import FieldCircuit.Assignment

/-!
# Evaluation on demand

A wire's value is computed from the wires below it, depth first in operand order, with an explicit
stack of wires, and is kept once known. `turn` is one turn of the loop on that stack and `resolve`
the loop, which ends for every circuit: a gate is only entered when the wires it reads come before
the wires it produces.
-/

namespace FieldCircuit

variable {p : Nat}

structure Evaluator (p : Nat) where
  circuit : Circuit
  inputs : Assignment p

/-- What is known so far, and the events on the way. -/
structure Memory (p : Nat) where
  table : Table p
  journal : Journal
deriving DecidableEq

/-- Evaluation keeps what it learned when it fails. -/
abbrev Eval (p : Nat) := EStateM Fault (Memory p)

def Memory.empty : Memory p := ⟨∅, []⟩

/-- Keeps the values that are new. -/
def Memory.store (m : Memory p) (w : Wire) (x : Residue p) : Memory p :=
  ⟨m.table.insertIfNew w x, m.journal ++ [.collapsed w x.val]⟩

def Memory.storeAll (m : Memory p) (values : List (Wire × Residue p)) : Memory p :=
  values.foldl (fun m (w, x) => m.store w x) m

theorem Memory.mem_storeAll {m : Memory p} {values : List (Wire × Residue p)} {w : Wire} :
    w ∈ (m.storeAll values).table ↔ w ∈ m.table ∨ w ∈ values.map (·.1) := by
  induction values generalizing m with
  | nil => simp [storeAll]
  | cons v vs ih =>
    change w ∈ ((m.store v.1 v.2).storeAll vs).table ↔ _
    rw [ih]
    simp only [store, Std.ExtTreeMap.mem_insertIfNew, Std.compare_eq_iff_eq, List.map_cons,
      List.mem_cons]
    rw [eq_comm, or_assoc, or_left_comm]

namespace Evaluator

/-- Every input of the circuit must have a value. -/
def create (c : Circuit) (inputs : Assignment p) : Except Fault (Evaluator p) :=
  match c.inputWires.find? (!inputs.contains ·) with
  | some w => .error (.unassignedInput w)
  | none => .ok ⟨c, inputs⟩

variable [Nonzero p]

/-- The values of a gate's outputs, from the assignment for an input and else from the table. -/
def gateValues (e : Evaluator p) (t : Table p) : Gate → Except Fault (List (Residue p))
  | .input w =>
    match e.inputs[w]? with
    | some x => .ok [x]
    | none => .error (.unassignedInput w)
  | g => g.evaluate fun w =>
    match t[w]? with
    | some x => .ok x
    | none => .error (.missingWire w)

inductive Turn (p : Nat) where
  | done
  | failed (fault : Fault)
  | next (stack : List Wire) (memory : Memory p)

/-- Looks at the wire on top of the stack. A known wire is popped, a gate with unknown inputs puts
these on the stack, and any other gate is computed. -/
def turn (e : Evaluator p) (m : Memory p) : List Wire → Turn p
  | [] => .done
  | w :: rest =>
    if w ∈ m.table then .next rest m
    else match e.circuit.gate? w with
      | none => .failed (.missingWire w)
      | some g =>
        match g.checkMonotonic with
        | .error fault => .failed fault
        | .ok () =>
          match g.inputs.filter (· ∉ m.table) with
          | [] =>
            match e.gateValues m.table g with
            | .error fault => .failed fault
            | .ok xs => .next rest (m.storeAll (g.outputs.zip xs))
          | pending => .next (pending ++ w :: rest) m

/-! ## The loop ends -/

section

omit [Nonzero p]

/-- The wires whose value is not known. -/
def unknown (e : Evaluator p) (t : Table p) : List Wire := e.circuit.wires.filter (· ∉ t)

/-- While nothing new becomes known, the top of the stack falls, or known wires are popped. -/
def height (t : Table p) : List Wire → Nat
  | [] => 0
  | w :: rest => if w ∈ t then UInt64.size + rest.length + 1 else w.toNat + 1

theorem unknown_length_lt {e : Evaluator p} {t t' : Table p} {w : Wire}
    (hw : w < e.circuit.total) (ht : w ∉ t) (ht' : w ∈ t') (hle : ∀ v ∈ t, v ∈ t') :
    (e.unknown t').length < (e.unknown t).length := by
  have hsub : e.unknown t' = (e.unknown t).filter (· ∉ t') := by
    simp only [unknown, List.filter_filter]
    refine List.filter_congr fun v _ => ?_
    have := hle v
    by_cases h : v ∈ t <;> simp_all
  rw [hsub]
  exact List.length_filter_lt_length_iff_exists.2
    ⟨w, by simpa [unknown, ht] using Circuit.mem_wires.2 hw, by simpa using ht'⟩

end

theorem gateValues_length {e : Evaluator p} {t : Table p} {g : Gate} {xs : List (Residue p)}
    (h : e.gateValues t g = .ok xs) : xs.length = g.outputs.length := by
  cases g with
  | input w =>
    simp only [gateValues] at h
    split at h <;> cases h
    rfl
  | _ =>
    simp only [gateValues] at h
    exact Gate.evaluate_length h

theorem turn_next {e : Evaluator p} {m m' : Memory p} {stack stack' : List Wire}
    (h : e.turn m stack = .next stack' m') :
    (e.unknown m'.table).length < (e.unknown m.table).length ∨
      m' = m ∧ height m.table stack' < height m.table stack := by
  cases stack with
  | nil => cases h
  | cons w rest =>
    simp only [turn] at h
    split at h
    · next hw =>
      cases h
      refine .inr ⟨rfl, ?_⟩
      cases stack' with
      | nil => simp [height, hw]
      | cons v vs =>
        have := v.toNat_lt
        simp only [height, hw, if_true, List.length_cons, UInt64.size]
        split <;> omega
    · next hw =>
      split at h
      · cases h
      · next g hg =>
        split at h
        · cases h
        · next hm =>
          split at h
          · split at h
            · cases h
            · next xs hx =>
              cases h
              refine .inl (unknown_length_lt (Circuit.lt_of_gate? hg) (by simpa using hw) ?_ ?_)
              · rw [Memory.mem_storeAll]
                right
                rw [List.map_fst_zip (Nat.le_of_eq (gateValues_length hx).symm)]
                exact (Circuit.gate?_eq_some_iff.1 hg).2
              · intro v hv
                exact Memory.mem_storeAll.2 (.inl hv)
          · next hp =>
            cases h
            refine .inr ⟨rfl, ?_⟩
            cases hf : g.inputs.filter (· ∉ m.table) with
            | nil => exact absurd hf hp
            | cons v vs =>
              have hv : v ∈ g.inputs.filter (· ∉ m.table) := hf ▸ List.mem_cons_self
              obtain ⟨hi, hv⟩ := List.mem_filter.1 hv
              have := UInt64.lt_of_lt_of_le (Gate.lt_firstOutput hm hi)
                (Gate.firstOutput_le (Circuit.gate?_eq_some_iff.1 hg).2)
              rw [UInt64.lt_iff_toNat_lt] at this
              simp only [List.cons_append, height]
              simp_all

/-- Turns the loop until the stack is empty or a fault stops it. -/
def resolve (e : Evaluator p) (stack : List Wire) (m : Memory p) :
    EStateM.Result Fault (Memory p) Unit :=
  match _h : e.turn m stack with
  | .done => .ok () m
  | .failed fault => .error fault m
  | .next stack' m' => e.resolve stack' m'
termination_by ((e.unknown m.table).length, height m.table stack)
decreasing_by
  rcases turn_next _h with h | ⟨rfl, h⟩
  · exact Prod.Lex.left _ _ h
  · exact Prod.Lex.right _ h

/-! ## Requests -/

/-- The value of a wire, computing the wires it depends on as far as they are not known. -/
def valueOf (e : Evaluator p) (w : Wire) : Eval p (Residue p) := fun m =>
  match m.table[w]? with
  | some x => .ok x m
  | none =>
    match e.resolve [w] m with
    | .error fault m' => .error fault m'
    | .ok () m' =>
      match m'.table[w]? with
      | some x => .ok x m'
      | none => .error (.missingWire w) m'

def log (event : Event) : Eval p Unit := modify fun m => { m with journal := m.journal ++ [event] }

/-- The declared outputs, in ascending order. -/
def evaluateOutputs (e : Evaluator p) : Eval p Unit := do
  e.circuit.outputs.toList.forM fun w => discard (e.valueOf w)
  log (.evaluatedOutputs (← get).table.size)

/-- All wires that are not known yet, in ascending order. -/
def fillGaps (e : Evaluator p) : Eval p Unit := do
  let known := (← get).table.size
  e.circuit.wires.forM fun w => do
    unless (← get).table.contains w do
      discard (e.valueOf w)
  log (.filledGaps ((← get).table.size - known))

def evaluate (e : Evaluator p) : Eval p Unit := do
  e.evaluateOutputs
  e.fillGaps

end Evaluator

namespace Circuit

variable [Nonzero p]

/-- The values of all wires, and the events on the way. -/
def solve (c : Circuit) (inputs : Assignment p) : Journaled Fault (Table p) := fun journal =>
  match Evaluator.create c inputs with
  | .error fault => .error fault journal
  | .ok e =>
    match e.evaluate ⟨∅, journal⟩ with
    | .ok () m => .ok m.table m.journal
    | .error fault m => .error fault m.journal

/-- The values of all wires. -/
def evaluate (c : Circuit) (inputs : Assignment p) : Except Fault (Table p) :=
  match c.solve inputs [] with
  | .ok t _ => .ok t
  | .error fault _ => .error fault

end Circuit

end FieldCircuit
