import FieldCircuit.Proofs.Lowering
import FieldCircuit.Proofs.Soundness

/-!
# Completeness of the proving path

The table of an evaluation satisfies every constraint, whichever divisions are constrained, and the
system synthesized from it passes its check.
-/

namespace FieldCircuit

/-- A gate that reads only smaller wires than it makes reads wires of the circuit. -/
theorem Circuit.readsWires_of_monotonic {p : Nat} [Nonzero p] {c : Circuit}
    (hm : ∀ g ∈ c.gates, g.checkMonotonic = .ok ()) (policy : ConstDiv) :
    c.ReadsWires p policy := by
  intro g hg _ v hv
  obtain ⟨w, hw⟩ := g.exists_output
  have hlt : v < w :=
    UInt64.lt_of_lt_of_le (Gate.lt_firstOutput (hm g hg) hv) (Gate.firstOutput_le hw)
  exact UInt64.lt_trans hlt (Circuit.output_lt hg hw)

variable {p : Nat} [Fact p.Prime] {t : Table p}

/-- A gate whose division is not constrained is related by fewer constraints. -/
theorem Gate.Relation.of_enforce {g : Gate} (h : g.Relation .enforce t) (policy : ConstDiv) :
    g.Relation policy t := by
  cases g with
  | constDiv k a w => exact fun _ => h rfl
  | _ => exact h

theorem Gate.Computes.relation {inputs : Assignment p} {g : Gate} (h : g.Computes inputs t)
    (policy : ConstDiv) : g.Relation policy t := by
  rcases g.eq_input_or with ⟨w, rfl⟩ | hg
  · trivial
  · exact ((Gate.computes_iff hg).1 h).1.of_enforce policy

namespace Circuit

variable {c : Circuit} {a : Assignment p}

theorem Solution.satisfied (h : c.Solution a t) (policy : ConstDiv) {g : Gate} (hg : g ∈ c.gates) :
    g.Satisfied policy t :=
  Gate.satisfied_iff.2 ((Evaluator.explains_iff.1 (h.explains g hg)).relation policy)

theorem Solution.readsWires (h : c.Solution a t) (policy : ConstDiv) :
    c.ReadsWires p policy :=
  readsWires_of_monotonic h.monotonic policy

/-- The table of an evaluation satisfies all constraints, and so does the system made from it. -/
theorem check_synthesize_of_evaluate (policy : ConstDiv) (he : c.evaluate a = .ok t) :
    firstUnsatisfied (c.constraints policy) t = .ok none ∧
      ∃ s, c.synthesize (some t) policy = .ok s ∧ s.isSatisfied = true ∧ s.check = .ok () := by
  have hsol := evaluate_eq_ok_iff.1 he
  have hnone : firstUnsatisfied (c.constraints policy) t = .ok none :=
    firstUnsatisfied_eq_none_iff.2 fun g hg => hsol.satisfied policy hg
  obtain ⟨s, hs, hvalues, hrows⟩ :=
    exists_synthesize (hsol.readsWires policy) fun w => (hsol.mem_iff w).2
  obtain ⟨i, hk, hi⟩ := firstUnsatisfied_of_lowered hvalues hrows
  obtain rfl : none = i := Except.ok.inj (hnone.symm.trans hk)
  refine ⟨hnone, s, hs, ConstraintSystem.isSatisfied_of_firstUnsatisfied hi, ?_⟩
  exact ConstraintSystem.check_of_firstUnsatisfied hi

/-- Six over three, tested for zero. -/
theorem check_synthesize_six_over_three :
    quotientTest.evaluate (quotientInputs 6 3) = .ok (quotientTable 6 3 2 0 4 6) ∧
      firstUnsatisfied (quotientTest.constraints .enforce) (quotientTable 6 3 2 0 4 6) = .ok none ∧
      quotientTest.synthesize (some (quotientTable 6 3 2 0 4 6)) .enforce =
        .ok ⟨3, 4, quotientRows 7, some ⟨[1, 0, 6], [6, 3, 2, 4]⟩⟩ ∧
      ConstraintSystem.isSatisfied ⟨3, 4, quotientRows 7, some ⟨[1, 0, 6], [6, 3, 2, 4]⟩⟩ = true ∧
      ConstraintSystem.check ⟨3, 4, quotientRows 7, some ⟨[1, 0, 6], [6, 3, 2, 4]⟩⟩ = .ok () := by
  have he := evaluate_quotientByThree
  have hs : quotientTest.synthesize (some (quotientTable 6 3 2 0 4 6)) .enforce =
      .ok ⟨3, 4, quotientRows 7, some ⟨[1, 0, 6], [6, 3, 2, 4]⟩⟩ := by decide +kernel
  obtain ⟨hnone, s, hs', hsat, hcheck⟩ := check_synthesize_of_evaluate .enforce he
  cases hs.symm.trans hs'
  exact ⟨he, hnone, hs, hsat, hcheck⟩

end Circuit

end FieldCircuit
