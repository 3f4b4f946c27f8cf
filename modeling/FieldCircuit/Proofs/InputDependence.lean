import FieldCircuit.Proofs.Cone
import Mathlib.Data.List.Find

/-!
# What is taken from the assignment

Of an assignment only the values of the inputs are used: the first check asks for these wires alone,
and a gate that is not an input takes its operands from the table. Assignments that agree on the
inputs are therefore refused alike, or make evaluators that no requests tell apart. One of them is
the assignment restricted to the inputs.
-/

namespace FieldCircuit

variable {p : Nat} {c : Circuit} {a a' : Assignment p}

/-- The assignments have the same values for the inputs of the circuit, and lack the same. -/
def Circuit.AgreeOnInputs (c : Circuit) (a a' : Assignment p) : Prop :=
  ∀ w, Gate.input w ∈ c.gates → a[w]? = a'[w]?

namespace Evaluator

variable [Nonzero p]

/-- Whatever is asked of the evaluators, and from whatever memory, both end in the same memory, and
the next request has the same outcome. -/
structure Indistinguishable (e e' : Evaluator p) : Prop where
  serve_eq : ∀ rs m, e.serve rs m = e'.serve rs m
  outcome_eq : ∀ rs r m, outcome (e.answer r) (e.serve rs m) = outcome (e'.answer r) (e'.serve rs m)

/-- Both are refused with the same fault, or neither is and the evaluators cannot be told apart. -/
inductive CreatedAlike : Except Fault (Evaluator p) → Except Fault (Evaluator p) → Prop where
  | refused (fault : Fault) : CreatedAlike (.error fault) (.error fault)
  | created {e e' : Evaluator p} : e.Indistinguishable e' → CreatedAlike (.ok e) (.ok e')

variable {e e' : Evaluator p}

theorem indistinguishable_of_answer (h : e.answer = e'.answer) : e.Indistinguishable e' := by
  have hserve : ∀ rs m, e.serve rs m = e'.serve rs m := by
    intro rs m
    rw [serve, serve, h]
  exact ⟨hserve, fun rs r m => by rw [hserve, h]⟩

end Evaluator

namespace Circuit.AgreeOnInputs

open Evaluator

/-- The first check asks for the values of inputs only. -/
theorem find?_eq (h : c.AgreeOnInputs a a') :
    c.inputWires.find? (!a.contains ·) = c.inputWires.find? (!a'.contains ·) := by
  refine List.find?_congr fun w hw => ?_
  have hvalue := h w (mem_inputWires.1 hw)
  rw [← Std.ExtTreeMap.isSome_getElem?_eq_contains, ← Std.ExtTreeMap.isSome_getElem?_eq_contains,
    hvalue]

variable [Nonzero p]

/-- A value that is assigned to a computed wire does not take the place of the one that its gate
computes. -/
theorem valueOf_eq (h : c.AgreeOnInputs a a') (w : Wire) :
    valueOf ⟨c, a⟩ w = valueOf ⟨c, a'⟩ w :=
  valueOf_congr ⟨fun hw => hw, fun _ hg => hg.mem, fun v _ hv => h v hv⟩

theorem answer_eq (h : c.AgreeOnInputs a a') : answer ⟨c, a⟩ = answer ⟨c, a'⟩ := by
  obtain ⟨houtputs, hgaps, heval⟩ := passes_congr (h.valueOf_eq) rfl rfl
  funext r
  cases r with
  | valueOf w => rw [answer, answer, h.valueOf_eq]
  | evaluateOutputs => rw [answer, answer, houtputs]
  | fillGaps => rw [answer, answer, hgaps]
  | evaluate => rw [answer, answer, heval]

theorem createdAlike (h : c.AgreeOnInputs a a') :
    CreatedAlike (create c a) (create c a') := by
  unfold create
  rw [h.find?_eq]
  split
  · exact .refused _
  · exact .created (indistinguishable_of_answer (h.answer_eq))

theorem solve_eq (h : c.AgreeOnInputs a a') : c.solve a = c.solve a' := by
  obtain ⟨-, -, heval⟩ := passes_congr (h.valueOf_eq) rfl rfl
  unfold solve create
  rw [h.find?_eq]
  funext journal
  cases c.inputWires.find? (!a'.contains ·) with
  | some w => rfl
  | none =>
    dsimp only
    rw [heval]

end Circuit.AgreeOnInputs

namespace Circuit

/-! ## The assignment restricted to the inputs -/

theorem getElem?_restrict_eq_some_iff {w : Wire} {x : Residue p} :
    (a.restrict c)[w]? = some x ↔ Gate.input w ∈ c.gates ∧ a[w]? = some x := by
  rw [Assignment.restrict, Std.ExtTreeMap.getElem?_filter', Option.filter_eq_some_iff,
    Circuit.isInput_iff, and_comm]

theorem agreeOnInputs_restrict (a : Assignment p) : c.AgreeOnInputs (a.restrict c) a :=
  fun _ hw => Circuit.getElem?_restrict hw

end Circuit

namespace Evaluator

open Circuit

variable [Nonzero p]

/-- Assignments that agree on the inputs of a circuit, whatever they say of other wires, are refused
alike or make evaluators that cannot be told apart, and give the same evaluation. Retaining keeps
the values of inputs, unchanged, and nothing else, so that it makes no difference to what is
computed. -/
theorem create_depends_on_inputs :
    (∀ a a' : Assignment p, c.AgreeOnInputs a a' →
        CreatedAlike (create c a) (create c a') ∧ c.solve a = c.solve a') ∧
      ∀ (a : Assignment p) (ε : Type) (journal : Journal), ∃ b journal',
        (a.retain c : Journaled ε (Assignment p)) journal = .ok b journal' ∧
        (∀ w x, b[w]? = some x ↔ Gate.input w ∈ c.gates ∧ a[w]? = some x) ∧
        CreatedAlike (create c b) (create c a) ∧ c.solve b = c.solve a := by
  refine ⟨fun a a' h => ⟨h.createdAlike, h.solve_eq⟩, fun a ε journal => ?_⟩
  have hrestrict := agreeOnInputs_restrict (c := c) a
  exact ⟨a.restrict c, _, rfl, fun w x => getElem?_restrict_eq_some_iff, hrestrict.createdAlike,
    hrestrict.solve_eq⟩

/-- The operands of a quotient, with values for the quotient itself and for a wire that is not
there. -/
def overfullInputs (x y q z : Residue 7) : Assignment 7 :=
  .ofList ([(0, x), (1, y), (2, q), (9, z)] : List (Wire × Residue 7))

/-- Six over three is two, whether or not a wrong quotient and the value of a missing wire are
dropped first. -/
theorem create_overfullInputs :
    quotientTest.AgreeOnInputs (overfullInputs 6 3 5 1) (quotientInputs 6 3) ∧
      (overfullInputs 6 3 5 1)[(2 : Wire)]? = some 5 ∧
      CreatedAlike (create quotientTest (overfullInputs 6 3 5 1))
        (create quotientTest (quotientInputs 6 3)) ∧
      quotientTest.evaluate (overfullInputs 6 3 5 1) = .ok (quotientTable 6 3 2 0 4 6) ∧
      ∃ b journal,
        ((overfullInputs 6 3 5 1).retain quotientTest : Journaled Fault (Assignment 7)) [] =
          .ok b journal ∧
        b[(1 : Wire)]? = some 3 ∧ b[(2 : Wire)]? = none ∧ b[(9 : Wire)]? = none ∧
        quotientTest.solve b = quotientTest.solve (overfullInputs 6 3 5 1) := by
  have hagree : quotientTest.AgreeOnInputs (overfullInputs 6 3 5 1) (quotientInputs 6 3) := by
    intro w hw
    have hw : w = 0 ∨ w = 1 := by simpa [gates_quotientTest] using hw
    rcases hw with rfl | rfl <;> decide +kernel
  obtain ⟨hsame, hretain⟩ := create_depends_on_inputs (p := 7) (c := quotientTest)
  obtain ⟨hcreate, hsolve⟩ := hsame _ _ hagree
  obtain ⟨b, journal, hb, hkept, -, hsolve'⟩ := hretain (overfullInputs 6 3 5 1) Fault []
  have hnone : ∀ w, Gate.input w ∉ quotientTest.gates → b[w]? = none := fun w hw =>
    Option.eq_none_iff_forall_ne_some.2 fun x hx => hw ((hkept w x).1 hx).1
  refine ⟨hagree, by decide +kernel, hcreate, ?_, b, journal, hb, ?_, ?_, ?_, hsolve'⟩
  · rw [← evaluate_quotientByThree, Circuit.evaluate, Circuit.evaluate, hsolve]
  · exact (hkept 1 3).2 ⟨by simp [gates_quotientTest], by decide +kernel⟩
  · exact hnone 2 (by simp [gates_quotientTest])
  · exact hnone 9 (by simp [gates_quotientTest])

end Evaluator

end FieldCircuit
