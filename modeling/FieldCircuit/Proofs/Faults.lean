import FieldCircuit.Proofs.History

/-!
# Faults of an evaluation

With a value for every input, a request for a wire of the circuit fails for one of three reasons
only: a gate reads a wire that does not come before its outputs, a divisor has the value zero, or a
constant divisor is zero as a residue. `Circuit.Blames` ties the fault to the gate that is to blame.
-/

namespace FieldCircuit

variable {p : Nat} [Nonzero p]

theorem Gate.checkMonotonic_eq_error {g : Gate} {fault : Fault}
    (h : g.checkMonotonic = .error fault) :
    fault = .nonMonotonic g.firstOutput g.inputs ∧ ∃ v ∈ g.inputs, g.firstOutput ≤ v := by
  unfold checkMonotonic at h
  split at h
  · cases h
  · next hn =>
    cases h
    simpa using hn

theorem Residue.inverse?_eq_none_iff {x : Residue p} : x.inverse? = none ↔ x = 0 := by
  unfold inverse?
  split <;> simp_all

/-- The gate that a failed evaluation blames: one that reads a wire from its outputs on, or one that
divides by zero. A divisor is zero if asking for it alone says so. -/
inductive Circuit.Blames (c : Circuit) (a : Assignment p) : Fault → Prop where
  | backward {g : Gate} {v : Wire} : g ∈ c.gates → v ∈ g.inputs → g.firstOutput ≤ v →
      Blames c a (.nonMonotonic g.firstOutput g.inputs)
  | divisor {x y w : Wire} : Gate.div x y w ∈ c.gates →
      outcome ((⟨c, a⟩ : Evaluator p).valueOf y) .empty = .ok 0 → Blames c a (.divisionByZero w)
  | constant {k : Int} {x w : Wire} : Gate.constDiv k x w ∈ c.gates → (.ofInt k : Residue p) = 0 →
      Blames c a (.divisionByZero w)

namespace Circuit

open Evaluator

variable {c : Circuit} {a : Assignment p}

/-- A gate with known inputs has no values only where it divides by zero. -/
theorem gateValues_eq_error {t : Table p} {g : Gate} {fault : Fault} (ha : c.CoveredBy a)
    (hg : g ∈ c.gates) (hi : ∀ v ∈ g.inputs, v ∈ t)
    (h : gateValues ⟨c, a⟩ t g = .error fault) :
    (∃ x y w, g = .div x y w ∧ t[y]? = some 0 ∧ fault = .divisionByZero w) ∨
      ∃ k x w, g = .constDiv k x w ∧ (.ofInt k : Residue p) = 0 ∧ fault = .divisionByZero w := by
  have hread : ∀ v ∈ g.inputs, ∃ x, t[v]? = some x :=
    fun v hv => mem_iff_exists_getElem?.1 (hi v hv)
  cases g with
  | input w =>
    obtain ⟨x, hx⟩ := mem_iff_exists_getElem?.1 (ha w hg)
    simp [gateValues, hx] at h
  | add u v w | mul u v w =>
    obtain ⟨x, hx⟩ := hread u (by simp [Gate.inputs])
    obtain ⟨y, hy⟩ := hread v (by simp [Gate.inputs])
    simp [gateValues, Gate.evaluate, hx, hy, bind, Except.bind, pure, Except.pure] at h
  | div u v w =>
    obtain ⟨x, hx⟩ := hread u (by simp [Gate.inputs])
    obtain ⟨y, hy⟩ := hread v (by simp [Gate.inputs])
    cases hz : y.inverse? with
    | some z =>
      simp [gateValues, Gate.evaluate, hx, hy, hz, bind, Except.bind, pure, Except.pure] at h
    | none =>
      obtain rfl := Residue.inverse?_eq_none_iff.1 hz
      simp only [gateValues, Gate.evaluate, hx, hy, hz, bind, Except.bind] at h
      cases h
      exact .inl ⟨u, v, w, rfl, hy, rfl⟩
  | constMul k u w =>
    obtain ⟨x, hx⟩ := hread u (by simp [Gate.inputs])
    simp [gateValues, Gate.evaluate, hx, bind, Except.bind, pure, Except.pure] at h
  | constDiv k u w =>
    obtain ⟨x, hx⟩ := hread u (by simp [Gate.inputs])
    cases hz : (Residue.ofInt k : Residue p).inverse? with
    | some z =>
      simp [gateValues, Gate.evaluate, hx, hz, bind, Except.bind, pure, Except.pure] at h
    | none =>
      simp only [gateValues, Gate.evaluate, hz] at h
      cases h
      exact .inr ⟨k, u, w, rfl, Residue.inverse?_eq_none_iff.1 hz, rfl⟩
  | zeroTest u i w =>
    obtain ⟨x, hx⟩ := hread u (by simp [Gate.inputs])
    cases hz : x.inverse? <;>
      simp [gateValues, Gate.evaluate, hx, hz, bind, Except.bind, pure, Except.pure] at h

/-! ## Whom a request blames -/

section

variable (ha : c.CoveredBy a) {m m' : Memory p} {w : Wire} {fault : Fault}


theorem Blames.of_refuses (hw : w < c.total) (h : Refuses (⟨c, a⟩ : Evaluator p) w fault) :
    c.Blames a fault := by
  cases h with
  | missing hn =>
    exact absurd hw (UInt64.not_lt.2 (Circuit.gate?_eq_none_iff.1 hn))
  | backward hg hm =>
    obtain ⟨rfl, v, hv, hle⟩ := Gate.checkMonotonic_eq_error hm
    exact .backward (Circuit.gate?_eq_some_iff.1 hg).1 hv hle

/-- What a memory knows of a wire is what asking for it alone says. -/
theorem outcome_valueOf_of_known {x : Residue p} (hm : Consistent ⟨c, a⟩ m.table)
    (hx : m.table[w]? = some x) : outcome ((⟨c, a⟩ : Evaluator p).valueOf w) .empty = .ok x := by
  rw [(alike_valueOf w).outcome_eq .empty m (below_empty hm), ← descend_eq_valueOf]
  exact outcome_of_ok (descend_of_getElem? hx)

include ha

theorem Blames.of_undefined {g : Gate} (hm : Consistent ⟨c, a⟩ m.table) (hg : g ∈ c.gates)
    (hi : ∀ v ∈ g.inputs, v ∈ m.table) (hx : gateValues ⟨c, a⟩ m.table g = .error fault) :
    c.Blames a fault := by
  rcases gateValues_eq_error ha hg hi hx with ⟨x, y, w, rfl, hy, rfl⟩ | ⟨k, x, w, rfl, hk, rfl⟩
  · exact .divisor hg (outcome_valueOf_of_known hm hy)
  · exact .constant hg hk

theorem Blames.of_descend (hw : w < c.total) (hm : Consistent ⟨c, a⟩ m.table)
    (h : descend ⟨c, a⟩ w m = .error fault m') : c.Blames a fault := by
  -- on the wire: a gate that may be entered reads smaller wires only
  induction w using wire_induction generalizing m m' with
  | h w ih =>
    by_cases hk : w ∈ m.table
    · obtain ⟨x, hx⟩ := mem_iff_exists_getElem?.1 hk
      rw [descend_of_getElem? hx] at h
      cases h
    · rcases enters_or_refuses ⟨c, a⟩ w with ⟨g, hg⟩ | ⟨fault', hr⟩
      · have hkeep : ∀ v ∈ g.inputs, ∀ s : Memory p, Consistent ⟨c, a⟩ s.table →
            Consistent ⟨c, a⟩ (stateAfter (discard (descend ⟨c, a⟩ v)) s).table := by
          intro v _ s hs
          rw [descend_eq_valueOf]
          exact hs.reaches (traced_discard_valueOf v s)
        cases hd : descendAll ⟨c, a⟩ g.inputs m with
        | error fault' m₁ =>
          obtain ⟨v, hv, s, hs, hv'⟩ :=
            exists_error_of_forM (P := fun m : Memory p => Consistent ⟨c, a⟩ m.table) hkeep hm hd
          rw [descend_of_inputs_error hk hg hd] at h
          cases h
          exact ih v (hg.lt hv) (UInt64.lt_trans (hg.lt hv) hw) hs (error_of_discard hv')
        | ok u m₁ =>
          have hm₁ : Consistent ⟨c, a⟩ m₁.table := by
            rw [← stateAfter_of_ok hd]
            exact stateAfter_forM (P := fun m : Memory p => Consistent ⟨c, a⟩ m.table) hkeep hm
          cases hx : gateValues ⟨c, a⟩ m₁.table g with
          | error fault' =>
            rw [descend_of_undefined hk hg hd hx] at h
            cases h
            exact .of_undefined ha hm₁ (Circuit.gate?_eq_some_iff.1 hg.gate).1
              (mem_of_descendAll hd).2 hx
          | ok xs =>
            obtain ⟨x, hok⟩ := descend_of_values hk hg hd hx
            rw [hok] at h
            cases h
      · rw [descend_of_refuses hk hr] at h
        cases h
        exact .of_refuses hw hr

/-- Asking for wires of the circuit, one after the other. -/
theorem Blames.of_forM {ws : List Wire} (hws : ∀ w ∈ ws, w < c.total)
    (hm : Consistent ⟨c, a⟩ m.table)
    (h : ws.forM (fun w => discard (valueOf ⟨c, a⟩ w)) m = .error fault m') : c.Blames a fault := by
  obtain ⟨w, hw, s, hs, hv⟩ :=
    exists_error_of_forM (P := fun m : Memory p => Consistent ⟨c, a⟩ m.table)
      (fun v _ s hs => hs.reaches (traced_discard_valueOf v s)) hm h
  rw [← descend_eq_valueOf] at hv
  exact .of_descend ha (hws w hw) hs (error_of_discard hv)

theorem Blames.of_evaluateOutputs (hm : Consistent ⟨c, a⟩ m.table)
    (h : evaluateOutputs ⟨c, a⟩ m = .error fault m') : c.Blames a fault := by
  rcases error_or_of_bind h with h | ⟨_, _, -, h⟩
  · exact .of_forM ha (fun w hw => Circuit.outputs_lt _ w (Std.ExtTreeSet.mem_toList.1 hw)) hm h
  · cases h

theorem Blames.of_fillGaps (hm : Consistent ⟨c, a⟩ m.table)
    (h : fillGaps ⟨c, a⟩ m = .error fault m') : c.Blames a fault := by
  change (c.wires.forM (fillGap ⟨c, a⟩) >>= _) m = _ at h
  rcases error_or_of_bind h with h | ⟨_, _, -, h⟩
  · have hask : fillGap (⟨c, a⟩ : Evaluator p) = fun w => discard (valueOf ⟨c, a⟩ w) :=
      funext fillGap_eq
    rw [hask] at h
    exact .of_forM ha (fun w hw => mem_wires.1 hw) hm h
  · cases h

/-- A failed evaluation blames a gate of the circuit. -/
theorem Blames.of_evaluate (h : c.evaluate a = .error fault) : c.Blames a fault := by
  unfold Circuit.evaluate solve at h
  simp only [create_of_coveredBy ha] at h
  cases hr : Evaluator.evaluate (⟨c, a⟩ : Evaluator p) ⟨∅, []⟩ with
  | ok u m =>
    rw [hr] at h
    cases h
  | error fault' m =>
    rw [hr] at h
    cases h
    rcases error_or_of_bind hr with hr | ⟨_, m₁, hok, hr⟩
    · exact .of_evaluateOutputs ha consistent_empty hr
    · exact .of_fillGaps ha (consistent_empty.reaches (traced_evaluateOutputs.reaches hok)) hr

end

end Circuit

end FieldCircuit
