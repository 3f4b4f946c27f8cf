import FieldCircuit.Proofs.Cone
import FieldCircuit.Proofs.FoldedConstraints

/-!
# The order of the gates

Gates stand in any order: every order of the gates of a circuit makes a circuit
(`Circuit.exists_reordered`). What a request for a wire does depends on which gates feed the wire,
not on where they stand, so an evaluation does the same in every order. The constraints come in
another order, but the same tables satisfy them.
-/

namespace FieldCircuit

/-! ## Constraints that can be checked -/

section

variable {p : Nat} [Nonzero p] {t : Table p}

theorem exists_firstUnsatisfiedFrom {ks : List (Constraint p)}
    (h : ∀ k ∈ ks, ∃ b, k.isSatisfied t = .ok b) (n : Nat) :
    ∃ i, firstUnsatisfiedFrom t n ks = .ok i := by
  induction ks generalizing n with
  | nil => exact ⟨none, rfl⟩
  | cons k ks ih =>
    obtain ⟨b, hb⟩ := h k List.mem_cons_self
    rw [firstUnsatisfiedFrom, hb]
    cases b with
    | true => exact ih (fun k' hk => h k' (List.mem_cons_of_mem k hk)) (n + 1)
    | false => exact ⟨some n, rfl⟩

/-- On a table with values for all wires of the gates, every constraint holds or fails. -/
theorem Circuit.exists_firstUnsatisfied {c : Circuit} (policy : ConstDiv)
    (ht : ∀ g ∈ c.gates, ∀ w, w ∈ g.inputs ∨ w ∈ g.outputs → w ∈ t) :
    ∃ i, firstUnsatisfied (c.constraints policy) t = .ok i := by
  refine exists_firstUnsatisfiedFrom (fun k hk => ?_) 0
  obtain ⟨g, hg, hk⟩ := List.mem_flatMap.1 hk
  have hg : g ∈ c.gates := Array.mem_toList_iff.1 hg
  obtain ⟨ha, hb, hc⟩ :=
    Gate.over_of_mem_constraints (P := (· ∈ t)) (fun w hw => ht g hg w (.inl hw))
    (fun w hw => ht g hg w (.inr hw)) hk
  exact Constraint.exists_isSatisfied ha hb hc

end

namespace Circuit

/-- The second circuit has the gates of the first in some order, and is the same otherwise. -/
structure Reorders (c c' : Circuit) : Prop where
  total : c'.total = c.total
  outputs : c'.outputs = c.outputs
  gates : c'.gates.toList.Perm c.gates.toList

variable {c c' : Circuit}

theorem exists_reordered {gs : List Gate} (h : gs.Perm c.gates.toList) :
    ∃ c', c.Reorders c' ∧ c'.gates.toList = gs := by
  have houtputs : (gs.flatMap Gate.outputs).Perm (c.gates.toList.flatMap Gate.outputs) :=
    h.flatMap_right _
  have hproduced : ∀ w, w ∈ gs.flatMap Gate.outputs ↔ w < c.total := by
    intro w
    rw [houtputs.mem_iff, List.mem_flatMap]
    refine ⟨fun ⟨g, hg, hw⟩ => Circuit.output_lt (Array.mem_toList_iff.1 hg) hw, fun hw => ?_⟩
    obtain ⟨g, hg, hwg⟩ := Circuit.exists_gate hw
    exact ⟨g, Array.mem_toList_iff.2 hg, hwg⟩
  have hdeclared : ∀ w ∈ c.outputs.toList, w < c.total := fun w hw =>
    Circuit.outputs_lt _ w (Std.ExtTreeSet.mem_toList.1 hw)
  obtain ⟨-, c', -, -, htotal, hgates, hmem⟩ :=
    Builder.exists_assemble
      (houtputs.nodup_iff.2 (Circuit.nodup_flatMap_outputs _)) hproduced hdeclared
  refine ⟨c', ⟨htotal, ?_, hgates ▸ h⟩, hgates⟩
  exact Std.ExtTreeSet.ext_mem fun w => (hmem w).trans Std.ExtTreeSet.mem_toList

variable {p : Nat} [Nonzero p] {a : Assignment p}

namespace Reorders

variable (h : c.Reorders c')

include h

theorem mem_gates {g : Gate} : g ∈ c'.gates ↔ g ∈ c.gates := by
  rw [← Array.mem_toList_iff, h.gates.mem_iff, Array.mem_toList_iff]

omit [Nonzero p] in
theorem coveredBy_iff : c'.CoveredBy a ↔ c.CoveredBy a := by
  unfold CoveredBy
  simp only [h.mem_gates]

/-! ## Evaluation -/

theorem evaluate_eq : Evaluator.evaluate ⟨c', a⟩ = Evaluator.evaluate ⟨c, a⟩ := by
  refine (Evaluator.passes_congr (fun w => ?_) h.total h.outputs).2.2
  refine Evaluator.valueOf_congr ⟨fun hw => ?_, fun g hg => ?_, fun _ _ _ => rfl⟩
  · rwa [h.total]
  · exact h.mem_gates.1 hg.mem

theorem solve_eq (ha : c.CoveredBy a) : c'.solve a = c.solve a := by
  unfold solve
  rw [create_of_coveredBy ha, create_of_coveredBy (h.coveredBy_iff.2 ha)]
  dsimp only
  rw [h.evaluate_eq]

/-! ## Constraints -/

theorem constraints_perm (policy : ConstDiv) :
    (c'.constraints policy : List (Constraint p)).Perm (c.constraints policy) :=
  h.gates.flatMap_right _

theorem forall_isSatisfied_iff (policy : ConstDiv) (t : Table p) :
    (∀ k ∈ c'.constraints policy, k.isSatisfied t = .ok true) ↔
      ∀ k ∈ c.constraints policy, k.isSatisfied t = .ok true := by
  simp only [(h.constraints_perm policy).mem_iff]

end Reorders

theorem exists_evaluate_error (ha : ¬c.CoveredBy a) :
    ∃ w, c.evaluate a = .error (.unassignedInput w) := by
  obtain ⟨w, -, -, hw⟩ := exists_create_error ha
  refine ⟨w, ?_⟩
  unfold evaluate solve
  rw [hw]

/-- Circuits that differ in the order of their gates have the same evaluations: the same values or
the same fault, and the same events, where every input has a value; elsewhere both say that an input
has none. The same tables satisfy all of their constraints, and where a table has values for all
wires concerned, both lists of constraints are checked to an end. -/
theorem evaluate_and_satisfied_of_reorders (h : c.Reorders c') :
    (∀ a : Assignment p, c.CoveredBy a → c'.evaluate a = c.evaluate a ∧ c'.solve a = c.solve a) ∧
      (∀ a : Assignment p, ¬c.CoveredBy a → (∃ w, c.evaluate a = .error (.unassignedInput w)) ∧
        ∃ w, c'.evaluate a = .error (.unassignedInput w)) ∧
      ∀ (policy : ConstDiv) (t : Table p),
        ((∀ k ∈ c'.constraints policy, k.isSatisfied t = .ok true) ↔
          ∀ k ∈ c.constraints policy, k.isSatisfied t = .ok true) ∧
        ((∀ g ∈ c.gates, ∀ w, w ∈ g.inputs ∨ w ∈ g.outputs → w ∈ t) →
          ∃ i i', firstUnsatisfied (c.constraints policy) t = .ok i ∧
            firstUnsatisfied (c'.constraints policy) t = .ok i' ∧ (i' = none ↔ i = none)) := by
  refine ⟨fun a ha => ?_, fun a ha => ?_,
    fun policy t => ⟨h.forall_isSatisfied_iff policy t, fun ht => ?_⟩⟩
  · have hsolve := h.solve_eq ha
    refine ⟨?_, hsolve⟩
    unfold evaluate
    rw [hsolve]
  · exact ⟨exists_evaluate_error ha, exists_evaluate_error fun ha' => ha (h.coveredBy_iff.1 ha')⟩
  · obtain ⟨i, hi⟩ := exists_firstUnsatisfied policy ht
    obtain ⟨i', hi'⟩ :=
      exists_firstUnsatisfied (c := c') (t := t) policy fun g hg => ht g (h.mem_gates.1 hg)
    refine ⟨i, i', hi, hi', ?_⟩
    have hnone : i = none ↔ ∀ g ∈ c.gates, g.Satisfied policy t := by
      rw [← firstUnsatisfied_eq_none_iff, hi, Except.ok.injEq]
    have hnone' : i' = none ↔ ∀ g ∈ c'.gates, g.Satisfied policy t := by
      rw [← firstUnsatisfied_eq_none_iff, hi', Except.ok.injEq]
    rw [hnone, hnone']
    simp only [h.mem_gates]

/-- The zero test of a quotient with its gates from the last to the first: six over zero fails
alike, six over three has the same values, no values are refused, and a wrong witness violates a
constraint of either list. -/
theorem evaluate_and_satisfied_reversed :
    ∃ c', quotientTest.Reorders c' ∧
      c'.gates.toList = [.input 1, .input 0, .constDiv (-2) 2 5, .div 0 1 2, .zeroTest 2 3 4] ∧
      quotientTest.CoveredBy (quotientInputs 6 0) ∧
      c'.evaluate (quotientInputs 6 0) = quotientTest.evaluate (quotientInputs 6 0) ∧
      c'.evaluate (quotientInputs 6 3) = .ok (quotientTable 6 3 2 0 4 6) ∧
      ¬quotientTest.CoveredBy (∅ : Assignment 7) ∧
      (∃ w, c'.evaluate (∅ : Assignment 7) = .error (.unassignedInput w)) ∧
      (∀ g ∈ quotientTest.gates, ∀ w, w ∈ g.inputs ∨ w ∈ g.outputs →
        w ∈ quotientTable 6 3 2 0 5 6) ∧
      ∃ i, firstUnsatisfied (c'.constraints .omit) (quotientTable 6 3 2 0 5 6) = .ok (some i) := by
  have hperm : [Gate.input 1, .input 0, .constDiv (-2) 2 5, .div 0 1 2, .zeroTest 2 3 4].Perm
      quotientTest.gates.toList := List.reverse_perm quotientTest.gates.toList
  obtain ⟨c', hr, hgates⟩ := exists_reordered hperm
  obtain ⟨heval, hnone, hsat⟩ := evaluate_and_satisfied_of_reorders (p := 7) hr
  have hempty : ¬quotientTest.CoveredBy (∅ : Assignment 7) := by
    intro h
    have h0 := h 0 (by simp [gates_quotientTest])
    simp at h0
  have hknown : ∀ g ∈ quotientTest.gates, ∀ w, w ∈ g.inputs ∨ w ∈ g.outputs →
      w ∈ quotientTable 6 3 2 0 5 6 := by
    have hall : ∀ g ∈ quotientTest.gates,
        (g.inputs ++ g.outputs).all (· ∈ quotientTable 6 3 2 0 5 6) = true := by decide +kernel
    intro g hg w hw
    simpa using List.all_eq_true.1 (hall g hg) w (List.mem_append.2 hw)
  obtain ⟨i, i', hi, hi', hiff⟩ := (hsat .omit (quotientTable 6 3 2 0 5 6)).2 hknown
  have hfirst : firstUnsatisfied (quotientTest.constraints .omit) (quotientTable 6 3 2 0 5 6) =
      .ok (some 0) := by decide +kernel
  cases hi.symm.trans hfirst
  obtain ⟨n, rfl⟩ := Option.ne_none_iff_exists'.1 fun h => Option.some_ne_none 0 (hiff.1 h)
  exact ⟨c', hr, hgates, coveredBy_quotientInputs 6 0, (heval _ (coveredBy_quotientInputs 6 0)).1,
    (heval _ (coveredBy_quotientInputs 6 3)).1.trans evaluate_quotientByThree, hempty,
    (hnone _ hempty).2, hknown, n, hi'⟩

end Circuit

end FieldCircuit
