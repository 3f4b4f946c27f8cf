import FieldCircuit.Proofs.Lowering
import FieldCircuit.Proofs.Rebuilding

/-!
# The constraints of a flattened circuit

Flattening keeps the constraints of a circuit, one for one and in order, whatever is said of
divisions by a constant: such a division becomes a multiplication by the inverse, which is always
enforced (`Constraint.Folds`). A table with values for the wires concerned satisfies a constraint
and its folded form alike, so that in both lists the same constraint is the first to fail.
-/

namespace FieldCircuit

variable {p : Nat}

/-! ## Constraints over known wires -/

section

variable [Nonzero p] {t : Table p}

theorem LinearCombination.exists_evaluate {l : LinearCombination p} (h : l.Over (· ∈ t)) :
    ∃ x, l.evaluate t = .ok x := by
  have hfold : ∀ (l : LinearCombination p) (sum : Residue p), l.Over (· ∈ t) →
      ∃ x, l.foldlM (fun sum term => do return sum + term.coefficient * (← term.var.value t)) sum =
        Except.ok (ε := Fault) x := by
    intro l
    induction l with
    | nil => exact fun sum _ => ⟨sum, rfl⟩
    | cons term l ih =>
      intro sum h
      obtain ⟨y, hy⟩ : ∃ y, term.var.value t = .ok y := by
        cases hv : term.var with
        | one => exact ⟨1, rfl⟩
        | wire w => exact ⟨_, Table.demand_of_mem (h term List.mem_cons_self w hv)⟩
      obtain ⟨x, hx⟩ :=
        ih (sum + term.coefficient * y) fun u hu => h u (List.mem_cons_of_mem term hu)
      refine ⟨x, ?_⟩
      rw [List.foldlM_cons, hy]
      exact hx
  exact hfold l 0 h

namespace Constraint

variable {k : Constraint p}

theorem isSatisfied_of_evaluate {x y z : Residue p} (hx : k.a.evaluate t = .ok x)
    (hy : k.b.evaluate t = .ok y) (hz : k.c.evaluate t = .ok z) :
    k.isSatisfied t = .ok (x * y = z) := by
  rw [isSatisfied, hx, hy, hz]
  rfl

theorem exists_isSatisfied (ha : k.a.Over (· ∈ t)) (hb : k.b.Over (· ∈ t)) (hc : k.c.Over (· ∈ t)) :
    ∃ b, k.isSatisfied t = .ok b := by
  obtain ⟨x, hx⟩ := LinearCombination.exists_evaluate ha
  obtain ⟨y, hy⟩ := LinearCombination.exists_evaluate hb
  obtain ⟨z, hz⟩ := LinearCombination.exists_evaluate hc
  exact ⟨_, isSatisfied_of_evaluate hx hy hz⟩

end Constraint

end

/-! ## Folding -/

variable [Fact p.Prime] {t : Table p}

open LinearCombination in
/-- The same constraint, or a division by a constant turned into a multiplication by its inverse. -/
inductive Constraint.Folds : Constraint p → Constraint p → Prop where
  | same (k : Constraint p) : Folds k k
  | inverse {x : Residue p} (a w : Wire) : x ≠ 0 →
      Folds ⟨ofWire a, ofConstant x⁻¹, ofWire w⟩ ⟨ofWire w, ofConstant x, ofWire a⟩

theorem Constraint.Folds.exists_isSatisfied {k k' : Constraint p} (h : Folds k k')
    (hk : k'.a.Over (· ∈ t) ∧ k'.b.Over (· ∈ t) ∧ k'.c.Over (· ∈ t)) :
    ∃ b, k.isSatisfied t = .ok b ∧ k'.isSatisfied t = .ok b := by
  obtain ⟨ha, hb, hc⟩ := hk
  cases h with
  | same =>
    obtain ⟨b, hb⟩ := Constraint.exists_isSatisfied ha hb hc
    exact ⟨b, hb, hb⟩
  | @inverse x a w hx =>
    obtain ⟨y, hy⟩ := LinearCombination.exists_evaluate hc
    obtain ⟨z, hz⟩ := LinearCombination.exists_evaluate ha
    have hconst : ∀ x : Residue p, (LinearCombination.ofConstant x).evaluate t = .ok x :=
      LinearCombination.evaluate_ofConstant
    refine ⟨_, isSatisfied_of_evaluate hy (hconst _) hz, ?_⟩
    rw [isSatisfied_of_evaluate hz (hconst _) hy]
    simp only [Except.ok.injEq, decide_eq_decide]
    rw [mul_inv_eq_iff_eq_mul₀ hx, eq_comm]

/-- Folded or not, the same constraint is the first to fail. -/
theorem firstUnsatisfiedFrom_of_folds {ks ks' : List (Constraint p)}
    (h : List.Forall₂ Constraint.Folds ks ks')
    (hk : ∀ k ∈ ks', k.a.Over (· ∈ t) ∧ k.b.Over (· ∈ t) ∧ k.c.Over (· ∈ t)) (n : Nat) :
    ∃ i, firstUnsatisfiedFrom t n ks = .ok i ∧ firstUnsatisfiedFrom t n ks' = .ok i := by
  induction h generalizing n with
  | nil => exact ⟨none, rfl, rfl⟩
  | cons hfold _ ih =>
    obtain ⟨b, hb, hb'⟩ := hfold.exists_isSatisfied (hk _ List.mem_cons_self)
    rw [firstUnsatisfiedFrom, firstUnsatisfiedFrom, hb, hb']
    cases b with
    | true => exact ih (fun k hmem => hk k (List.mem_cons_of_mem _ hmem)) (n + 1)
    | false => exact ⟨some n, rfl, rfl⟩

namespace Operation

variable {g : Gate} {op : Operation p}

/-- No operation leaves its constraints out. -/
theorem constraints_toGate (op : Operation p) (policy : ConstDiv) :
    (op.toGate.constraints policy : List (Constraint p)) = op.toGate.constraints .enforce := by
  cases op <;> rfl

theorem forall₂_folds (h : ofGate? g = .ok (some op)) (policy : ConstDiv) :
    List.Forall₂ (Constraint.Folds (p := p)) (op.toGate.constraints policy)
      (g.constraints .enforce) := by
  have hfold : ∀ x : Residue p, Residue.ofInt x.val = x := Residue.ofNat_val
  have hsame : ∀ ks : List (Constraint p), List.Forall₂ Constraint.Folds ks ks := fun ks =>
    List.forall₂_same.2 fun k _ => .same k
  rcases eq_or_of_ofGate? h with rfl | ⟨k, a, w, rfl, rfl⟩ | ⟨k, a, w, x, rfl, hx, rfl⟩
  · rw [constraints_toGate]
    exact hsame _
  · simp only [toGate, Gate.constraints, hfold]
    exact hsame _
  · have hk : (.ofInt k : Residue p) ≠ 0 := fun h0 => by
      rw [h0, Residue.inverse?_zero] at hx
      cases hx
    rw [Residue.inverse?_of_ne_zero hk] at hx
    cases hx
    simp only [toGate, Gate.constraints, hfold]
    exact .cons (.inverse a w hk) .nil

end Operation

theorem Flattens.forall₂_folds {gs : List Gate} {ops : List (Operation p)} (h : Flattens gs ops)
    (policy : ConstDiv) : List.Forall₂ (Constraint.Folds (p := p))
      (ops.flatMap (·.toGate.constraints policy)) (gs.flatMap (·.constraints .enforce)) := by
  induction h with
  | nil => exact .nil
  | input w _ ih => exact ih
  | operation hg _ ih =>
    rw [List.flatMap_cons, List.flatMap_cons]
    exact List.rel_append (Operation.forall₂_folds hg policy) ih

namespace Circuit

variable {c c' : Circuit} {s : Program p}

omit [Fact p.Prime] in
/-- The inputs in front have no constraints. -/
theorem constraints_of_gates [Nonzero p] (h : c'.gates.toList = s.gates) (policy : ConstDiv) :
    (c'.constraints policy : List (Constraint p)) =
      s.operations.flatMap (·.toGate.constraints policy) := by
  rw [constraints, h, Program.gates, List.flatMap_append, List.flatMap_map, List.flatMap_map]
  simp [Gate.constraints]

/-- The text of a circuit's program reads back as a circuit with as many constraints, under either
policy, as the circuit has with its divisions enforced. On every table with values for the wires
that gates read and produce, the same constraint is the first to fail. -/
theorem firstUnsatisfied_ofProgramText_flatten (hn : c.total ≤ Program.maxWires)
    {journal journal' : Journal}
    (h : (c.flatten : Journaled Fault (Program p)) journal = .ok s journal') :
    ∃ c', ofProgramText p s.text = .ok c' ∧ ∀ policy,
      (c'.constraints policy : List (Constraint p)).length =
        (c.constraints .enforce : List (Constraint p)).length ∧
      ∀ t : Table p, (∀ g ∈ c.gates, ∀ w, w ∈ g.inputs ∨ w ∈ g.outputs → w ∈ t) →
        ∃ i, firstUnsatisfied (c'.constraints policy) t = .ok i ∧
          firstUnsatisfied (c.constraints .enforce) t = .ok i := by
  have hs := ofCircuit_of_flatten h
  obtain ⟨-, -, hflat⟩ := Program.flattens_of_ofCircuit hs
  obtain ⟨c', hc'⟩ := Program.exists_toCircuit_of_ofCircuit hn hs
  obtain ⟨-, hgates, -⟩ := Program.of_toCircuit hc'
  refine ⟨c', (ofProgramText_text s).trans hc', fun policy => ?_⟩
  have hfolds : List.Forall₂ Constraint.Folds (c'.constraints policy : List (Constraint p))
      (c.constraints .enforce) := by
    rw [constraints_of_gates hgates]
    exact hflat.forall₂_folds policy
  refine ⟨hfolds.length_eq, fun t ht => firstUnsatisfiedFrom_of_folds hfolds (fun k hk => ?_) 0⟩
  obtain ⟨g, hg, hk⟩ := List.mem_flatMap.1 hk
  have hg : g ∈ c.gates := Array.mem_toList_iff.1 hg
  exact Gate.over_of_mem_constraints (fun w hw => ht g hg w (.inl hw))
    (fun w hw => ht g hg w (.inr hw)) hk

/-- The quotient by minus two is wrong in the table. The constraint of that division is the last
one, and fails also where divisions by a constant are not to be constrained. -/
theorem firstUnsatisfied_quotientProgram :
    quotientTest.total ≤ Program.maxWires ∧
      (quotientTest.flatten : Journaled Fault (Program 7)) [] =
        .ok quotientProgram [.flattened 3 3] ∧
      (∀ g ∈ quotientTest.gates, ∀ w, w ∈ g.inputs ∨ w ∈ g.outputs →
        w ∈ quotientTable 6 3 2 0 4 5) ∧
      ∃ c', ofProgramText 7 quotientProgram.text = .ok c' ∧
        firstUnsatisfied (c'.constraints .omit) (quotientTable 6 3 2 0 4 5) = .ok (some 3) := by
  have hn : quotientTest.total ≤ Program.maxWires := by decide
  have ht : ∀ g ∈ quotientTest.gates, ∀ w, w ∈ g.inputs ∨ w ∈ g.outputs →
      w ∈ quotientTable 6 3 2 0 4 5 := by
    intro g hg w hw
    have hmono : ∀ g ∈ quotientTest.gates, g.checkMonotonic = .ok () := by decide +kernel
    have houtput := fun v => Circuit.output_lt hg (w := v)
    rw [mem_quotientTable]
    rcases hw with hw | hw
    · obtain ⟨v, hv⟩ := g.exists_output
      have hlt :=
        UInt64.lt_of_lt_of_le (Gate.lt_firstOutput (hmono g hg) hw) (Gate.firstOutput_le hv)
      exact UInt64.lt_trans hlt (houtput v hv)
    · exact houtput w hw
  refine ⟨hn, flatten_quotientTest, ht, ?_⟩
  obtain ⟨c', hc', hall⟩ := firstUnsatisfied_ofProgramText_flatten hn flatten_quotientTest
  obtain ⟨i, hi, hi'⟩ := (hall .omit).2 _ ht
  have hthree : firstUnsatisfied (quotientTest.constraints .enforce) (quotientTable 6 3 2 0 4 5) =
      .ok (some 3) := by decide +kernel
  exact ⟨c', hc', hi.trans (hi'.symm.trans hthree)⟩

end Circuit

end FieldCircuit
