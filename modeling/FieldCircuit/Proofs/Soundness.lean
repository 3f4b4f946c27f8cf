import FieldCircuit.Proofs.Satisfaction
import FieldCircuit.Proofs.Solution

/-!
# Evaluation and constraints

`Gate.Computes` is what evaluation makes of the values of a gate's wires. It differs from the
relation its constraints write down where these leave a value open: a quotient by zero and the
witness of a zero test that succeeds.
-/

namespace FieldCircuit

variable {p : Nat} [Fact p.Prime] {t : Table p}

namespace Gate

/-- The values of a gate's wires as evaluation over an assignment gives them. -/
def Computes (inputs : Assignment p) (t : Table p) : Gate → Prop
  | input w => ∃ x, inputs[w]? = some x ∧ t[w]? = some x
  | add a b w => ∃ x y, t[a]? = some x ∧ t[b]? = some y ∧ t[w]? = some (x + y)
  | mul a b w => ∃ x y, t[a]? = some x ∧ t[b]? = some y ∧ t[w]? = some (x * y)
  | div a b w => ∃ x y, t[a]? = some x ∧ t[b]? = some y ∧ y ≠ 0 ∧ t[w]? = some (x * y⁻¹)
  | constMul k a w => ∃ x, t[a]? = some x ∧ t[w]? = some (.ofInt k * x)
  | constDiv k a w => ∃ x, t[a]? = some x ∧ (.ofInt k : Residue p) ≠ 0 ∧
      t[w]? = some (x * (.ofInt k)⁻¹)
  | zeroTest a i w => ∃ x, t[a]? = some x ∧ t[i]? = some (if x = 0 then 1 else 0) ∧
      t[w]? = some x⁻¹

end Gate

theorem Evaluator.explains_iff {e : Evaluator p} {g : Gate} :
    e.Explains t g ↔ g.Computes e.inputs t := by
  unfold Explains
  cases g with
  | input w =>
    cases h : e.inputs[w]? <;> simp [gateValues, Gate.Computes, Gate.outputs, h]
  | add a b w | mul a b w =>
    cases ha : t[a]? <;> cases hb : t[b]? <;>
      simp [gateValues, Gate.evaluate, Gate.Computes, Gate.outputs, ha, hb, bind, Except.bind, pure,
        Except.pure]
  | div a b w =>
    cases ha : t[a]? with
    | none => simp [gateValues, Gate.evaluate, Gate.Computes, ha, bind, Except.bind]
    | some x =>
      cases hb : t[b]? with
      | none => simp [gateValues, Gate.evaluate, Gate.Computes, ha, hb, bind, Except.bind]
      | some y =>
        by_cases hy : y = 0
        · simp [gateValues, Gate.evaluate, Gate.Computes, ha, hb, hy, bind, Except.bind, throw,
            throwThe, MonadExceptOf.throw]
        · simp [gateValues, Gate.evaluate, Gate.Computes, Gate.outputs, ha, hb, hy,
            Residue.inverse?_of_ne_zero hy, bind, Except.bind, pure, Except.pure]
  | constMul k a w =>
    cases ha : t[a]? <;>
      simp [gateValues, Gate.evaluate, Gate.Computes, Gate.outputs, ha, bind, Except.bind, pure,
        Except.pure]
  | constDiv k a w =>
    by_cases hk : (.ofInt k : Residue p) = 0
    · simp [gateValues, Gate.evaluate, Gate.Computes, hk, throw, throwThe, MonadExceptOf.throw]
    · cases ha : t[a]? <;>
        simp [gateValues, Gate.evaluate, Gate.Computes, Gate.outputs, ha, hk,
          Residue.inverse?_of_ne_zero hk, bind, Except.bind, pure, Except.pure]
  | zeroTest a i w =>
    cases ha : t[a]? with
    | none => simp [gateValues, Gate.evaluate, Gate.Computes, ha, bind, Except.bind]
    | some x =>
      have hv : e.gateValues t (.zeroTest a i w) = .ok [if x = 0 then 1 else 0, x⁻¹] := by
        by_cases hx : x = 0
        · simp [gateValues, Gate.evaluate, ha, hx, bind, Except.bind, pure, Except.pure]
        · simp [gateValues, Gate.evaluate, ha, hx, Residue.inverse?_of_ne_zero hx, bind,
            Except.bind, pure, Except.pure]
      constructor
      · rintro ⟨xs, hx, ho⟩
        cases hv.symm.trans hx
        exact ⟨x, ha, ho (i, _) List.mem_cons_self,
          ho (w, _) (List.mem_cons_of_mem _ List.mem_cons_self)⟩
      · rintro ⟨y, hy, hi, hw⟩
        cases ha.symm.trans hy
        refine ⟨_, hv, ?_⟩
        simp only [Gate.outputs, List.zip_cons_cons, List.forall_mem_cons]
        exact ⟨hi, hw, by simp⟩

/-! ## What the constraints leave open -/

namespace Gate

theorem eq_input_or (g : Gate) : (∃ w, g = input w) ∨ g.isInput = false := by
  cases g with
  | input w => exact .inl ⟨w, rfl⟩
  | _ => exact .inr rfl

/-- A table settles a gate where the constraints do not: divisors are not zero, and the witness of a
zero test of zero is zero. -/
def Settled (t : Table p) : Gate → Prop
  | div _ b _ => ∃ y, t[b]? = some y ∧ y ≠ 0
  | constDiv k _ _ => (.ofInt k : Residue p) ≠ 0
  | zeroTest a _ w => t[a]? = some 0 → t[w]? = some 0
  | _ => True

/-- The constraints of a zero test fix the indicator, and the witness where the wire is not zero. -/
theorem zeroTest_holds_iff {x y z : Residue p} :
    x * z = 1 - y ∧ x * y = 0 ↔ y = (if x = 0 then 1 else 0) ∧ (x ≠ 0 → z = x⁻¹) := by
  by_cases hx : x = 0
  · subst hx
    simp only [zero_mul, and_true, ↓reduceIte, ne_eq, not_true_eq_false, false_implies]
    rw [eq_comm, sub_eq_zero, eq_comm]
  · simp only [hx, ↓reduceIte, mul_eq_zero, false_or, ne_eq, not_false_eq_true, forall_const]
    constructor
    · rintro ⟨h, rfl⟩
      rw [sub_zero] at h
      exact ⟨rfl, eq_inv_of_mul_eq_one_right h⟩
    · rintro ⟨rfl, rfl⟩
      rw [mul_inv_cancel₀ hx, sub_zero]
      exact ⟨rfl, rfl⟩

theorem computes_iff {inputs : Assignment p} {g : Gate} (hg : g.isInput = false) :
    g.Computes inputs t ↔ g.Relation .enforce t ∧ g.Settled t := by
  cases g with
  | input w => cases hg
  | add a b w | mul a b w => simp [Computes, Relation, Settled]
  | div a b w =>
    constructor
    · rintro ⟨x, y, hx, hy, h0, hw⟩
      exact ⟨⟨_, y, x, hw, hy, hx, inv_mul_cancel_right₀ h0 x⟩, y, hy, h0⟩
    · rintro ⟨⟨z, y, x, hz, hy, hx, h⟩, y', hy', h0⟩
      cases hy.symm.trans hy'
      refine ⟨x, y, hx, hy, h0, ?_⟩
      rw [hz, ← h, mul_inv_cancel_right₀ h0]
  | constMul k a w => simp [Computes, Relation, Settled, mul_comm]
  | constDiv k a w =>
    constructor
    · rintro ⟨x, hx, h0, hw⟩
      exact ⟨fun _ => ⟨_, x, hw, hx, inv_mul_cancel_right₀ h0 x⟩, h0⟩
    · rintro ⟨h, h0⟩
      obtain ⟨z, x, hz, hx, h⟩ := h rfl
      refine ⟨x, hx, h0, ?_⟩
      rw [hz, ← h, mul_inv_cancel_right₀ h0]
  | zeroTest a i w =>
    constructor
    · rintro ⟨x, hx, hi, hw⟩
      obtain ⟨h1, h2⟩ := (zeroTest_holds_iff (x := x)).2 ⟨rfl, fun _ => rfl⟩
      refine ⟨⟨x, _, _, hx, hi, hw, h1, h2⟩, fun h => ?_⟩
      cases hx.symm.trans h
      rw [hw, inv_zero]
    · rintro ⟨⟨x, y, z, hx, hy, hz, h1, h2⟩, h3⟩
      obtain ⟨rfl, hinv⟩ := zeroTest_holds_iff.1 ⟨h1, h2⟩
      refine ⟨x, hx, hy, ?_⟩
      by_cases h0 : x = 0
      · subst h0
        rw [h3 hx, inv_zero]
      · rw [hz, hinv h0]

end Gate

namespace Circuit

variable {c : Circuit}

theorem forall_settled_iff :
    (∀ g ∈ c.gates, g.Settled t) ↔
      (∀ a b w, Gate.div a b w ∈ c.gates → ∃ y, t[b]? = some y ∧ y ≠ 0) ∧
      (∀ k a w, Gate.constDiv k a w ∈ c.gates → (.ofInt k : Residue p) ≠ 0) ∧
      ∀ a i w, Gate.zeroTest a i w ∈ c.gates → t[a]? = some 0 → t[w]? = some 0 := by
  constructor
  · intro h
    exact ⟨fun a b w hg => h _ hg, fun k a w hg => h _ hg, fun a i w hg => h _ hg⟩
  · rintro ⟨hdiv, hconst, hzero⟩ g hg
    cases g with
    | div a b w => exact hdiv a b w hg
    | constDiv k a w => exact hconst k a w hg
    | zeroTest a i w => exact hzero a i w hg
    | _ => trivial

omit [Fact p.Prime] in
theorem getElem?_restrict {w : Wire} (hw : Gate.input w ∈ c.gates) :
    (Assignment.restrict t c)[w]? = t[w]? := by
  unfold Assignment.restrict
  rw [Std.ExtTreeMap.getElem?_filter', Circuit.isInput_iff.2 hw]
  cases t[w]? <;> rfl

/-- A table is what evaluation makes of its own input values exactly when every gate reads earlier
wires only, every constraint holds, no divisor is zero, and the witness of each zero test of zero is
zero. -/
theorem evaluate_restrict_eq_ok_iff (ht : ∀ w, w ∈ t ↔ w < c.total) :
    c.evaluate (Assignment.restrict t c) = .ok t ↔
      (∀ g ∈ c.gates, g.checkMonotonic = .ok ()) ∧
      firstUnsatisfied (c.constraints .enforce) t = .ok none ∧
      (∀ a b w, Gate.div a b w ∈ c.gates → ∃ y, t[b]? = some y ∧ y ≠ 0) ∧
      (∀ k a w, Gate.constDiv k a w ∈ c.gates → (.ofInt k : Residue p) ≠ 0) ∧
      ∀ a i w, Gate.zeroTest a i w ∈ c.gates → t[a]? = some 0 → t[w]? = some 0 := by
  have hgate : ∀ g ∈ c.gates, Evaluator.Explains ⟨c, Assignment.restrict t c⟩ t g ↔
      g.Satisfied .enforce t ∧ g.Settled t := by
    intro g hg
    rw [Evaluator.explains_iff, Gate.satisfied_iff]
    rcases g.eq_input_or with ⟨w, rfl⟩ | hi
    · have hw : w < c.total := Circuit.output_lt hg List.mem_cons_self
      obtain ⟨x, hx⟩ := mem_iff_exists_getElem?.1 ((ht w).2 hw)
      exact ⟨fun _ => ⟨trivial, trivial⟩, fun _ => ⟨x, (Circuit.getElem?_restrict hg).trans hx, hx⟩⟩
    · exact Gate.computes_iff hi
  rw [evaluate_eq_ok_iff, firstUnsatisfied_eq_none_iff, ← forall_settled_iff]
  constructor
  · intro h
    exact ⟨h.monotonic, fun g hg => ((hgate g hg).1 (h.explains g hg)).1,
      fun g hg => ((hgate g hg).1 (h.explains g hg)).2⟩
  · rintro ⟨hmono, hsat, hset⟩
    exact ⟨ht, hmono, fun g hg => (hgate g hg).2 ⟨hsat g hg, hset g hg⟩⟩

theorem evaluate_quotientTest {x y : Residue 7} (hy : y ≠ 0) :
    quotientTest.evaluate (quotientInputs x y) = .ok (quotientTable x y (x * y⁻¹)
      (if x * y⁻¹ = 0 then 1 else 0) (x * y⁻¹)⁻¹ (x * y⁻¹ * (.ofInt (-2))⁻¹)) := by
  rw [evaluate_eq_ok_iff]
  refine ⟨mem_quotientTable, by decide +kernel, fun g hg => ?_⟩
  rw [Evaluator.explains_iff]
  simp only [gates_quotientTest, List.mem_toArray, List.mem_cons, List.not_mem_nil, or_false] at hg
  rcases hg with rfl | rfl | rfl | rfl | rfl
  · exact ⟨x * y⁻¹, rfl, rfl, rfl⟩
  · exact ⟨x, y, rfl, rfl, hy, rfl⟩
  · exact ⟨x * y⁻¹, rfl, by decide, rfl⟩
  · exact ⟨x, rfl, rfl⟩
  · exact ⟨y, rfl, rfl⟩

/-- Six over zero. -/
def quotientByZero : Evaluator 7 := ⟨quotientTest, quotientInputs 6 0⟩

/-- Six over three. -/
def quotientByThree : Evaluator 7 := ⟨quotientTest, quotientInputs 6 3⟩

theorem coveredBy_quotientInputs (x y : Residue 7) :
    quotientTest.CoveredBy (quotientInputs x y) := by
  intro w hw
  have hw : w = 0 ∨ w = 1 := by simpa [gates_quotientTest] using hw
  rw [quotientInputs, Std.ExtTreeMap.mem_ofList]
  rcases hw with rfl | rfl <;> rfl

theorem evaluate_quotientByThree :
    quotientTest.evaluate (quotientInputs 6 3) = .ok (quotientTable 6 3 2 0 4 6) :=
  (evaluate_quotientTest (by decide)).trans (by decide +kernel)

/-- Zero over three, tested for zero. -/
theorem evaluate_restrict_quotientTable :
    (∀ v, v ∈ quotientTable 0 3 0 1 0 0 ↔ v < quotientTest.total) ∧
      quotientTest.evaluate (Assignment.restrict (quotientTable 0 3 0 1 0 0) quotientTest) =
        .ok (quotientTable 0 3 0 1 0 0) := by
  refine ⟨mem_quotientTable,
    (evaluate_restrict_eq_ok_iff mem_quotientTable).2
      ⟨by decide +kernel, by decide +kernel, ?_, ?_, ?_⟩⟩
  · intro a b w hg
    obtain ⟨-, rfl, -⟩ : a = 0 ∧ b = 1 ∧ w = 2 := by simpa [gates_quotientTest] using hg
    exact ⟨3, by decide +kernel, by decide⟩
  · intro k a w hg
    obtain ⟨rfl, -⟩ : k = -2 ∧ a = 2 ∧ w = 5 := by simpa [gates_quotientTest] using hg
    decide
  · intro a i w hg _
    obtain ⟨-, -, rfl⟩ : a = 2 ∧ i = 3 ∧ w = 4 := by simpa [gates_quotientTest] using hg
    decide +kernel

end Circuit

/-! ## What the constraints force -/

namespace Gate

/-- The witness of a zero test of zero. -/
def Frees (e : Table p) (g : Gate) (w : Wire) : Prop := ∃ a i, g = zeroTest a i w ∧ e[a]? = some 0

/-- Where a table agrees with computed values on the inputs of a gate, the constraints of the gate
say that it agrees on the outputs too, but for the witness of a zero test of zero. -/
theorem relation_iff_agree {inputs : Assignment p} {e : Table p} {g : Gate} (hg : g.isInput = false)
    (he : g.Computes inputs e) (hd : g.outputs.Nodup) (hi : ∀ v ∈ g.inputs, t[v]? = e[v]?)
    (ho : ∀ w ∈ g.outputs, w ∈ t) :
    g.Relation .enforce t ↔ ∀ w ∈ g.outputs, ¬g.Frees e w → t[w]? = e[w]? := by
  have hfree : ∀ {g : Gate} {w : Wire}, (∀ a i, g ≠ zeroTest a i w) → ¬g.Frees e w :=
    fun h ⟨a, i, hg, _⟩ => h a i hg
  have hval : ∀ w ∈ g.outputs, ∃ z, t[w]? = some z :=
    fun w hw => mem_iff_exists_getElem?.1 (ho w hw)
  cases g with
  | input w => cases hg
  | add a b w | mul a b w =>
    obtain ⟨x, y, hx, hy, hw⟩ := he
    rw [← hi a List.mem_cons_self] at hx
    rw [← hi b (List.mem_cons_of_mem _ List.mem_cons_self)] at hy
    simp [Relation, outputs, hx, hy, hw, hfree]
  | div a b w =>
    obtain ⟨x, y, hx, hy, h0, hw⟩ := he
    rw [← hi a List.mem_cons_self] at hx
    rw [← hi b (List.mem_cons_of_mem _ List.mem_cons_self)] at hy
    obtain ⟨z, hz⟩ := hval w List.mem_cons_self
    have hq : x = z * y ↔ z = x * y⁻¹ := eq_comm.trans (eq_mul_inv_iff_mul_eq₀ h0).symm
    simp [Relation, outputs, hx, hy, hz, hw, hfree, hq]
  | constMul k a w =>
    obtain ⟨x, hx, hw⟩ := he
    rw [← hi a List.mem_cons_self] at hx
    simp [Relation, outputs, hx, hw, hfree, mul_comm]
  | constDiv k a w =>
    obtain ⟨x, hx, h0, hw⟩ := he
    rw [← hi a List.mem_cons_self] at hx
    obtain ⟨z, hz⟩ := hval w List.mem_cons_self
    have hq : x = z * .ofInt k ↔ z = x * (.ofInt k)⁻¹ :=
      eq_comm.trans (eq_mul_inv_iff_mul_eq₀ h0).symm
    simp [Relation, outputs, hx, hz, hw, hfree, hq]
  | zeroTest a i w =>
    obtain ⟨x, hx, hiv, hwv⟩ := he
    have hne : i ≠ w := by simpa [outputs] using hd
    have hfi : ¬(zeroTest a i w).Frees e i := hfree fun a' i' h => hne (by cases h; rfl)
    have hfw : (zeroTest a i w).Frees e w ↔ x = 0 := by
      constructor
      · rintro ⟨a', i', h, h0⟩
        cases h
        exact Option.some.inj (hx.symm.trans h0)
      · intro h0
        exact ⟨a, i, rfl, h0 ▸ hx⟩
    obtain ⟨y, hy⟩ := hval i List.mem_cons_self
    obtain ⟨z, hz⟩ := hval w (List.mem_cons_of_mem _ List.mem_cons_self)
    have hxt : t[a]? = some x := (hi a List.mem_cons_self).trans hx
    have hrel : (zeroTest a i w).Relation .enforce t ↔ x * z = 1 - y ∧ x * y = 0 := by
      simp [Relation, hxt, hy, hz]
    rw [hrel, zeroTest_holds_iff]
    simp [outputs, hfi, hfw, hy, hz, hiv, hwv]

end Gate

namespace Circuit

variable {c : Circuit} {a : Assignment p} {e : Table p}

/-- The witness of some zero test of zero. -/
def FreeWitness (c : Circuit) (e : Table p) (w : Wire) : Prop :=
  ∃ a i, Gate.zeroTest a i w ∈ c.gates ∧ e[a]? = some 0

/-- No gate reads the witness of a zero test. -/
def WitnessesUnread (c : Circuit) : Prop :=
  ∀ a i w, Gate.zeroTest a i w ∈ c.gates → ∀ g ∈ c.gates, w ∉ g.inputs

theorem WitnessesUnread.not_freeWitness (hr : c.WitnessesUnread) {g : Gate} (hg : g ∈ c.gates)
    {v : Wire} (hv : v ∈ g.inputs) : ¬c.FreeWitness e v := by
  rintro ⟨a, i, hz, -⟩
  exact hr a i v hz g hg hv

theorem freeWitness_iff {g : Gate} (hg : g ∈ c.gates) {w : Wire}
    (hw : w ∈ g.outputs) : c.FreeWitness e w ↔ g.Frees e w := by
  constructor
  · rintro ⟨a, i, hz, h0⟩
    obtain rfl := Circuit.eq_of_mem_outputs hg hz hw (by simp [Gate.outputs])
    exact ⟨a, i, rfl, h0⟩
  · rintro ⟨a, i, rfl, h0⟩
    exact ⟨a, i, hg, h0⟩

/-- Satisfying one gate means agreeing on its outputs, given agreement on its inputs. -/
theorem Solution.satisfied_iff_agree (he : c.Solution a e)
    (ht : ∀ w, w ∈ t ↔ w < c.total) {g : Gate} (hg : g ∈ c.gates) (hn : g.isInput = false)
    (hi : ∀ v ∈ g.inputs, t[v]? = e[v]?) :
    g.Satisfied .enforce t ↔ ∀ w ∈ g.outputs, ¬c.FreeWitness e w → t[w]? = e[w]? := by
  rw [Gate.satisfied_iff, Gate.relation_iff_agree hn (Evaluator.explains_iff.1 (he.explains g hg))
    (Circuit.outputs_nodup hg) hi fun w hw => (ht w).2 (Circuit.output_lt hg hw)]
  refine forall₂_congr fun w hw => ?_
  rw [Circuit.freeWitness_iff hg hw]

theorem Solution.agree_of_satisfied (hr : c.WitnessesUnread)
    (he : c.Solution a e) (ht : ∀ w, w ∈ t ↔ w < c.total)
    (hin : ∀ w, Gate.input w ∈ c.gates → t[w]? = e[w]?)
    (hs : ∀ g ∈ c.gates, g.Satisfied .enforce t) (w : Wire) (hw : ¬c.FreeWitness e w) :
    t[w]? = e[w]? := by
  -- along the wires: the inputs of the gate of `w` come before `w` and are never free
  induction hn : w.toNat using Nat.strong_induction_on generalizing w with
  | _ n ih =>
    by_cases hlt : w < c.total
    · obtain ⟨g, hg, hwg⟩ := Circuit.exists_gate hlt
      rcases g.eq_input_or with ⟨v, rfl⟩ | hi
      · obtain rfl : w = v := by simpa [Gate.outputs] using hwg
        exact hin w hg
      · have hinputs : ∀ v ∈ g.inputs, t[v]? = e[v]? := by
          intro v hv
          refine ih v.toNat ?_ v (hr.not_freeWitness hg hv) rfl
          rw [← hn]
          exact UInt64.lt_iff_toNat_lt.1 (he.input_lt hg hv hwg)
        exact (he.satisfied_iff_agree ht hg hi hinputs).1 (hs g hg) w hwg hw
    · rw [Std.ExtTreeMap.getElem?_eq_none fun h => hlt ((ht w).1 h),
        Std.ExtTreeMap.getElem?_eq_none fun h => hlt ((he.mem_iff w).1 h)]

theorem Solution.satisfied_of_agree (hr : c.WitnessesUnread)
    (he : c.Solution a e) (ht : ∀ w, w ∈ t ↔ w < c.total)
    (hw : ∀ w, ¬c.FreeWitness e w → t[w]? = e[w]?) : ∀ g ∈ c.gates, g.Satisfied .enforce t := by
  intro g hg
  rcases g.eq_input_or with ⟨v, rfl⟩ | hi
  · exact Gate.satisfied_iff.2 trivial
  · have hinputs : ∀ v ∈ g.inputs, t[v]? = e[v]? := fun v hv => hw v (hr.not_freeWitness hg hv)
    exact (he.satisfied_iff_agree ht hg hi hinputs).2 fun w _ => hw w

/-- When no gate reads the witness of a zero test, a table with the input values of an evaluation
satisfies the constraints exactly when it differs from the evaluation at most in the witnesses of
zero tests of zero. The indicators and the other declared outputs are forced. -/
theorem satisfied_iff_eq_evaluate (hr : c.WitnessesUnread)
    (he : c.evaluate a = .ok e) (ht : ∀ w, w ∈ t ↔ w < c.total)
    (hin : ∀ w, Gate.input w ∈ c.gates → t[w]? = e[w]?) :
    ((∀ k ∈ c.constraints .enforce, k.isSatisfied t = .ok true) ↔
        ∀ w, ¬c.FreeWitness e w → t[w]? = e[w]?) ∧
      ((∀ k ∈ c.constraints .enforce, k.isSatisfied t = .ok true) →
        (∀ a i w, Gate.zeroTest a i w ∈ c.gates → t[i]? = e[i]?) ∧
        ∀ w ∈ c.outputs, ¬c.FreeWitness e w → t[w]? = e[w]?) := by
  have hsol := evaluate_eq_ok_iff.1 he
  have hall : (∀ k ∈ c.constraints .enforce, k.isSatisfied t = .ok true) ↔
      ∀ g ∈ c.gates, g.Satisfied .enforce t := by
    rw [← firstUnsatisfied_eq_none_iff]
    exact firstUnsatisfiedFrom_eq_none_iff.symm
  have hagree := hsol.agree_of_satisfied hr ht hin
  rw [hall]
  refine ⟨⟨hagree, hsol.satisfied_of_agree hr ht⟩, fun hs => ⟨fun a' i w hz => ?_, ?_⟩⟩
  · refine hagree hs i fun hfree => ?_
    obtain ⟨a₁, i₁, hz₁, -⟩ := hfree
    have hi : i ∈ (Gate.zeroTest a₁ i₁ i).outputs := List.mem_cons_of_mem _ List.mem_cons_self
    cases Circuit.eq_of_mem_outputs hz hz₁ List.mem_cons_self hi
    simpa [Gate.outputs] using Circuit.outputs_nodup hz
  · exact fun w _ hw => hagree hs w hw

/-- The witness of a zero test of zero over three may be five. -/
theorem satisfied_quotientTable_five :
    quotientTest.WitnessesUnread ∧
      quotientTest.evaluate (quotientInputs 0 3) = .ok (quotientTable 0 3 0 1 0 0) ∧
      (∀ v, v ∈ quotientTable 0 3 0 1 5 0 ↔ v < quotientTest.total) ∧
      (∀ w, Gate.input w ∈ quotientTest.gates →
        (quotientTable 0 3 0 1 5 0)[w]? = (quotientTable 0 3 0 1 0 0)[w]?) ∧
      ∀ k ∈ quotientTest.constraints .enforce,
        k.isSatisfied (quotientTable 0 3 0 1 5 0) = .ok true := by
  have hr : quotientTest.WitnessesUnread := by
    intro a i w hz
    obtain ⟨-, -, rfl⟩ : a = 2 ∧ i = 3 ∧ w = 4 := by simpa [gates_quotientTest] using hz
    decide +kernel
  have he : quotientTest.evaluate (quotientInputs 0 3) = .ok (quotientTable 0 3 0 1 0 0) :=
    (evaluate_quotientTest (by decide)).trans (by decide +kernel)
  have hagree : ∀ w : Wire, w ≠ 4 →
      (quotientTable 0 3 0 1 5 0)[w]? = (quotientTable 0 3 0 1 0 0)[w]? := by
    intro w hw
    have hinsert : quotientTable 0 3 0 1 5 0 = (quotientTable 0 3 0 1 0 0).insert 4 5 := by
      decide +kernel
    rw [hinsert, Std.ExtTreeMap.getElem?_insert]
    simp [hw.symm]
  have hin : ∀ w, Gate.input w ∈ quotientTest.gates →
      (quotientTable 0 3 0 1 5 0)[w]? = (quotientTable 0 3 0 1 0 0)[w]? := by
    refine fun w hw => hagree w ?_
    rintro rfl
    simp [gates_quotientTest] at hw
  refine ⟨hr, he, mem_quotientTable, hin,
    (satisfied_iff_eq_evaluate hr he mem_quotientTable hin).1.2 fun w hw => ?_⟩
  refine hagree w fun h4 => hw ?_
  subst h4
  exact ⟨2, 3, by decide +kernel, by decide +kernel⟩

end Circuit

end FieldCircuit
