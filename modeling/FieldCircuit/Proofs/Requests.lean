import FieldCircuit.Proofs.Soundness

/-!
# Requests to an evaluator

`Request` is what may be asked of an evaluator, and `serve` the memory that a list of requests
leaves, the failed ones included. Every request moves the memory by computing ready gates only, so
whatever was asked, each known wire is accounted for by its gate and stays as it is.
-/

namespace FieldCircuit

variable {p : Nat}

inductive Request where
  | valueOf (wire : Wire)
  | evaluateOutputs
  | fillGaps
  | evaluate
deriving DecidableEq, Repr

/-- The value of a wire that the table knows. -/
def Table.read (t : Table p) (w : Wire) : Except Fault (Residue p) :=
  match t[w]? with
  | some x => .ok x
  | none => .error (.missingWire w)

namespace Evaluator

variable [Nonzero p]

/-- Serves a request. The answer has a value if one was asked for. -/
def answer (e : Evaluator p) : Request → Eval p (Option (Residue p))
  | .valueOf w => do return some (← e.valueOf w)
  | .evaluateOutputs => do e.evaluateOutputs; return none
  | .fillGaps => do e.fillGaps; return none
  | .evaluate => do e.evaluate; return none

/-- The memory after a list of requests, whether they succeed or fail. -/
def serve (e : Evaluator p) (rs : List Request) (m : Memory p) : Memory p :=
  rs.foldl (fun m r => stateAfter (e.answer r) m) m

variable {e : Evaluator p} {t : Table p} {g : Gate}

theorem traced_answer (r : Request) : e.Traced (e.answer r) := by
  cases r with
  | valueOf w => exact (traced_valueOf w).bind fun _ => Traced.pure _
  | evaluateOutputs => exact traced_evaluateOutputs.bind fun _ => Traced.pure _
  | fillGaps => exact traced_fillGaps.bind fun _ => Traced.pure _
  | evaluate => exact traced_evaluate.bind fun _ => Traced.pure _

theorem serve_cons (r : Request) (rs : List Request) (m : Memory p) :
    e.serve (r :: rs) m = e.serve rs (stateAfter (e.answer r) m) := rfl

theorem reaches_serve (rs : List Request) (m : Memory p) : e.Reaches m (e.serve rs m) := by
  induction rs generalizing m with
  | nil => exact .refl
  | cons r rs ih => exact (traced_answer r m).trans (ih _)

theorem consistent_serve (rs : List Request) :
    e.Consistent (e.serve rs .empty).table := by
  have hempty : e.Consistent (Memory.empty : Memory p).table := consistent_empty
  exact hempty.reaches (reaches_serve rs .empty)

/-! ## What a known wire rests on -/

/-- A gate accounts for a known wire: it may be computed, its inputs and outputs are known, and
these have the assigned value of an input or the values that the gate computes from its inputs. -/
structure Accounts (e : Evaluator p) (t : Table p) (w : Wire) (g : Gate) : Prop where
  lt_total : w < e.circuit.total
  gate : e.circuit.gate? w = some g
  monotonic : g.checkMonotonic = .ok ()
  inputs : ∀ v ∈ g.inputs, v ∈ t
  outputs : ∀ v ∈ g.outputs, v ∈ t
  assigned : ∀ v, g = .input v → t[v]? = e.inputs[v]?
  computed : g.isInput = false →
    ∃ xs, g.evaluate t.read = .ok xs ∧ g.outputs.map (t[·]?) = xs.map some

theorem Explains.assigned {v : Wire} (h : e.Explains t (.input v)) : t[v]? = e.inputs[v]? := by
  obtain ⟨xs, hx, ho⟩ := h
  simp only [gateValues] at hx
  split at hx
  · next x hv =>
    cases hx
    rw [hv]
    exact ho (v, x) List.mem_cons_self
  · cases hx

theorem Explains.computed (h : e.Explains t g) (hg : g.isInput = false) :
    ∃ xs, g.evaluate t.read = .ok xs ∧ g.outputs.map (t[·]?) = xs.map some := by
  obtain ⟨xs, hx, ho⟩ := h
  have heval : e.gateValues t g = g.evaluate t.read := by
    cases g with
    | input v => cases hg
    | _ => rfl
  refine ⟨xs, heval ▸ hx, ?_⟩
  have hlen : xs.length = g.outputs.length := gateValues_length hx
  apply List.ext_getElem
  · simp [hlen]
  · intro i hi hi'
    have hi : i < g.outputs.length := by simpa using hi
    have hq : (g.outputs[i], xs[i]) ∈ g.outputs.zip xs :=
      List.mem_iff_getElem.2 ⟨i, by simp [hlen, hi], List.getElem_zip⟩
    simpa using ho _ hq

theorem Consistent.accounts (ht : e.Consistent t) {w : Wire} (hw : w ∈ t) :
    ∃ g, e.Accounts t w g := by
  obtain ⟨g, hg, hmono, hi, he⟩ := ht w hw
  refine ⟨g, ?_, hg, hmono, hi, fun v hv => he.mem hv, ?_, he.computed⟩
  · exact Circuit.lt_of_gate? hg
  · rintro v rfl
    exact he.assigned

/-- Whatever was asked of an evaluator, and however that ended, each known wire is accounted for by
its gate, and no later request takes back or changes its value. -/
theorem serve_accounts_and_within (rs rs' : List Request) :
    (∀ w ∈ (e.serve rs .empty).table, ∃ g, e.Accounts (e.serve rs .empty).table w g) ∧
      (e.serve rs .empty).table.Within (e.serve rs' (e.serve rs .empty)).table := by
  constructor
  · intro w hw
    exact (consistent_serve rs).accounts hw
  · exact (reaches_serve rs' (e.serve rs .empty)).within

theorem answer_valueOf_of_ok {w : Wire} {m m' : Memory p} {x : Residue p}
    (h : e.valueOf w m = .ok x m') : e.answer (.valueOf w) m = .ok (some x) m' :=
  bind_of_ok h

theorem answer_valueOf_of_error {w : Wire} {m m' : Memory p} {fault : Fault}
    (h : e.valueOf w m = .error fault m') : e.answer (.valueOf w) m = .error fault m' :=
  bind_of_error h

theorem answer_evaluate_of_ok {m m₁ m' : Memory p} (ho : e.evaluateOutputs m = .ok () m₁)
    (hg : e.fillGaps m₁ = .ok () m') : e.answer .evaluate m = .ok none m' :=
  bind_of_ok ((bind_of_ok ho).trans hg)

/-- An evaluation fails at its first output as the request for that wire does. -/
theorem evaluate_of_error {w : Wire} {m m' : Memory p} {fault : Fault}
    (hw : e.circuit.outputs.toList.head? = some w) (h : e.valueOf w m = .error fault m') :
    e.evaluate m = .error fault m' := by
  obtain ⟨ws, hws⟩ := List.head?_eq_some_iff.1 hw
  refine bind_of_error (bind_of_error ?_)
  rw [hws]
  exact bind_of_error (bind_of_error h)

theorem answer_evaluate_of_error {m m' : Memory p} {fault : Fault}
    (h : e.evaluate m = .error fault m') : e.answer .evaluate m = .error fault m' :=
  bind_of_error h

/-- What the outputs of six over three tell. -/
def quotientEvents : Journal :=
  [.collapsed 0 6, .collapsed 1 3, .collapsed 2 2, .collapsed 3 0, .collapsed 4 4, .collapsed 5 6,
    .evaluatedOutputs 6]

section

open Circuit

theorem evaluate_quotientByZero : quotientByZero.evaluate .empty =
    .error (.divisionByZero 2) ⟨quotientInputs 6 0, [.collapsed 0 6, .collapsed 1 0]⟩ := by
  refine evaluate_of_error (w := 3) (by decide +kernel) ?_
  exact valueOf_of_resolveWithin_error (n := 9) (by decide +kernel) (by decide +kernel)

theorem valueOf_quotientByThree : quotientByThree.valueOf 3 .empty =
    .ok 0 (Memory.empty.storeAll [(0, 6), (1, 3), (2, 2), (3, 0), (4, 4)]) :=
  valueOf_of_resolveWithin_ok (n := 9) (by decide +kernel) (by decide +kernel) (by decide +kernel)

theorem evaluateOutputs_quotientByThree :
    quotientByThree.evaluateOutputs .empty =
      .ok () ⟨quotientTable 6 3 2 0 4 6, quotientEvents⟩ := by
  have hthree : discard (quotientByThree.valueOf 3) .empty =
      .ok () (Memory.empty.storeAll [(0, 6), (1, 3), (2, 2), (3, 0), (4, 4)]) :=
    bind_of_ok valueOf_quotientByThree
  have hfive : discard (quotientByThree.valueOf 5)
      (Memory.empty.storeAll [(0, 6), (1, 3), (2, 2), (3, 0), (4, 4)]) =
      .ok () (Memory.empty.storeAll [(0, 6), (1, 3), (2, 2), (3, 0), (4, 4), (5, 6)]) :=
    bind_of_ok (valueOf_of_resolveWithin_ok (n := 9) (x := 6) (by decide +kernel)
      (by decide +kernel) (by decide +kernel))
  have hlist : quotientByThree.circuit.outputs.toList = [3, 5] := by decide +kernel
  rw [evaluateOutputs, hlist]
  refine (bind_of_ok ((bind_of_ok hthree).trans (bind_of_ok hfive))).trans ?_
  decide +kernel

end

open Circuit in
/-- Six over zero, with the dividend known and a wire asked for that is not there: the evaluation
fails at the quotient and adds the divisor, and the failed request for the zero test adds
nothing. -/
theorem serve_quotientByZero :
    quotientByZero.serve [.valueOf 0, .valueOf 9] .empty = Memory.empty.store 0 6 ∧
      quotientByZero.answer .evaluate (Memory.empty.store 0 6) =
        .error (.divisionByZero 2) ⟨quotientInputs 6 0, [.collapsed 0 6, .collapsed 1 0]⟩ ∧
      quotientByZero.serve [.evaluate, .valueOf 3] (Memory.empty.store 0 6) =
        ⟨quotientInputs 6 0, [.collapsed 0 6, .collapsed 1 0]⟩ ∧
      (∃ g, quotientByZero.Accounts (Memory.empty.store 0 6).table 0 g) ∧
      (Memory.empty.store 0 6).table.Within (quotientInputs 6 0) := by
  have hzero : quotientByZero.valueOf 0 .empty = .ok 6 (Memory.empty.store 0 6) :=
    valueOf_of_resolveWithin_ok (n := 2) (by decide +kernel) (by decide +kernel) (by decide +kernel)
  have hnine : quotientByZero.valueOf 9 (Memory.empty.store 0 6) =
      .error (.missingWire 9) (Memory.empty.store 0 6) :=
    valueOf_of_resolveWithin_error (n := 1) (by decide +kernel) (by decide +kernel)
  have hthree : quotientByZero.valueOf 3 (Memory.empty.store 0 6) =
      .error (.divisionByZero 2) ⟨quotientInputs 6 0, [.collapsed 0 6, .collapsed 1 0]⟩ :=
    valueOf_of_resolveWithin_error (n := 9) (by decide +kernel) (by decide +kernel)
  have hagain : quotientByZero.valueOf 3 ⟨quotientInputs 6 0, [.collapsed 0 6, .collapsed 1 0]⟩ =
      .error (.divisionByZero 2) ⟨quotientInputs 6 0, [.collapsed 0 6, .collapsed 1 0]⟩ :=
    valueOf_of_resolveWithin_error (n := 9) (by decide +kernel) (by decide +kernel)
  have hevaluate := answer_evaluate_of_error (evaluate_of_error (by decide +kernel) hthree)
  have hbefore : quotientByZero.serve [.valueOf 0, .valueOf 9] .empty =
      Memory.empty.store 0 6 := by
    rw [serve_cons, stateAfter_of_ok (answer_valueOf_of_ok hzero), serve_cons,
      stateAfter_of_error (answer_valueOf_of_error hnine)]
    rfl
  have hafter : quotientByZero.serve [.evaluate, .valueOf 3] (Memory.empty.store 0 6) =
      ⟨quotientInputs 6 0, [.collapsed 0 6, .collapsed 1 0]⟩ := by
    rw [serve_cons, stateAfter_of_error hevaluate, serve_cons,
      stateAfter_of_error (answer_valueOf_of_error hagain)]
    rfl
  obtain ⟨haccounts, hwithin⟩ := serve_accounts_and_within (e := quotientByZero)
    [.valueOf 0, .valueOf 9] [.evaluate, .valueOf 3]
  rw [hbefore] at haccounts hwithin
  rw [hafter] at hwithin
  exact ⟨hbefore, hevaluate, hafter, haccounts 0 (by decide +kernel), hwithin⟩

end Evaluator

end FieldCircuit
