import FieldCircuit.Circuit

/-!
# Constraints

A constraint says that the product of two linear combinations of wires is a third. The constraints
of a circuit are those of its gates in order.
-/

namespace FieldCircuit

inductive Variable where
  | one
  | wire (wire : Wire)
deriving DecidableEq, Repr

structure Term (p : Nat) where
  coefficient : Residue p
  var : Variable
deriving DecidableEq, Repr

abbrev LinearCombination (p : Nat) := List (Term p)

structure Constraint (p : Nat) where
  a : LinearCombination p
  b : LinearCombination p
  c : LinearCombination p
deriving DecidableEq, Repr

variable {p : Nat} [Nonzero p]

/-- The value of a wire that the table must have. -/
def Table.demand (t : Table p) (w : Wire) : Except Fault (Residue p) :=
  match t[w]? with
  | some x => .ok x
  | none => .error (.incompleteTable w)

def Variable.value (t : Table p) : Variable → Except Fault (Residue p)
  | one => .ok 1
  | wire w => t.demand w

namespace LinearCombination

def ofWire (w : Wire) : LinearCombination p := [⟨1, .wire w⟩]

def ofConstant (c : Residue p) : LinearCombination p := [⟨c, .one⟩]

/-- Adds a term at the end. -/
def plus (l : LinearCombination p) (c : Residue p) (v : Variable) : LinearCombination p :=
  l ++ [⟨c, v⟩]

/-- The sum of the terms, read in order. -/
def evaluate (t : Table p) (l : LinearCombination p) : Except Fault (Residue p) :=
  l.foldlM (fun sum term => do return sum + term.coefficient * (← term.var.value t)) 0

end LinearCombination

def Constraint.isSatisfied (k : Constraint p) (t : Table p) : Except Fault Bool := do
  let a ← k.a.evaluate t
  let b ← k.b.evaluate t
  let c ← k.c.evaluate t
  return a * b = c

/-- Whether divisions by a constant are constrained. -/
inductive ConstDiv where
  | enforce
  | omit
deriving DecidableEq, Repr

open LinearCombination in
def Gate.constraints (policy : ConstDiv) : Gate → List (Constraint p)
  | input _ => []
  | add a b w => [⟨(ofWire a).plus 1 (.wire b), ofConstant 1, ofWire w⟩]
  | mul a b w => [⟨ofWire a, ofWire b, ofWire w⟩]
  | div a b w => [⟨ofWire w, ofWire b, ofWire a⟩]
  | constMul c a w => [⟨ofWire a, ofConstant (.ofInt c), ofWire w⟩]
  | constDiv c a w =>
    match policy with
    | .enforce => [⟨ofWire w, ofConstant (.ofInt c), ofWire a⟩]
    | .omit => []
  | zeroTest a i w =>
    [⟨ofWire a, ofWire w, (ofConstant 1).plus (-1) (.wire i)⟩, ⟨ofWire a, ofWire i, []⟩]

def Circuit.constraints (c : Circuit) (policy : ConstDiv) : List (Constraint p) :=
  c.gates.toList.flatMap (·.constraints policy)

/-- The number of the first constraint that does not hold, the list starting at number `n`. -/
def firstUnsatisfiedFrom (t : Table p) : Nat → List (Constraint p) → Except Fault (Option Nat)
  | _, [] => .ok none
  | n, k :: ks => do
    if ← k.isSatisfied t then firstUnsatisfiedFrom t (n + 1) ks else return some n

def firstUnsatisfied (ks : List (Constraint p)) (t : Table p) : Except Fault (Option Nat) :=
  firstUnsatisfiedFrom t 0 ks

/-- The number of constraints, of public and of secret variables. -/
structure Size where
  constraints : Nat
  publics : Nat
  secrets : Nat
deriving DecidableEq, Repr

/-- Declared outputs are public and all other wires secret. -/
def Circuit.size (p : Nat) [Nonzero p] (c : Circuit) (policy : ConstDiv) : Size :=
  ⟨(c.constraints policy : List (Constraint p)).length, c.outputs.size,
    c.total.toNat - c.outputs.size⟩

end FieldCircuit
