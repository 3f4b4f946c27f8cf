import FieldCircuit.Constraint
import FieldCircuit.Evaluation
import FieldCircuit.SystemFault

/-!
# Constraint systems

The constraints of a circuit over numbered columns: the constant one, then the declared outputs,
then the other wires, each in ascending order. A system made for setup has no values.
-/

namespace FieldCircuit

/-- Coefficients by column, none of them zero, in ascending order of columns. -/
abbrev Row (p : Nat) := List (Residue p × Nat)

/-- The values of the columns: the public ones, the constant one first, and the secret ones. -/
structure Values (p : Nat) where
  publics : List (Residue p)
  secrets : List (Residue p)
deriving DecidableEq, Repr

structure ConstraintSystem (p : Nat) where
  /-- The number of public columns, the constant one included. -/
  publicColumns : Nat
  secretColumns : Nat
  rows : List (Row p × Row p × Row p)
  values : Option (Values p)
deriving DecidableEq, Repr

variable {p : Nat} [Nonzero p]

/-- The values of the declared outputs, in ascending order. -/
def Circuit.publicInput (c : Circuit) (t : Table p) : Except Fault (List (Residue p)) :=
  c.outputs.toList.mapM t.demand

namespace Circuit

/-- The wires that get a public column, in the order in which the wires are walked. -/
def publicWires (c : Circuit) : List Wire := c.wires.filter (· ∈ c.outputs)

def secretWires (c : Circuit) : List Wire := c.wires.filter (· ∉ c.outputs)

/-- The column of every wire. -/
def columns (c : Circuit) : Std.ExtTreeMap Wire Nat :=
  .ofList ((c.publicWires ++ c.secretWires).zipIdx 1)

def columnOf (columns : Std.ExtTreeMap Wire Nat) : Variable → Except SystemFault Nat
  | .one => .ok 0
  | .wire w =>
    match columns[w]? with
    | some j => .ok j
    | none => .error (.unallocated w)

/-- Adds a term to the coefficient of its column. -/
def addTerm (columns : Std.ExtTreeMap Wire Nat) (row : Std.ExtTreeMap Nat (Residue p))
    (term : Term p) : Except SystemFault (Std.ExtTreeMap Nat (Residue p)) := do
  let j ← columnOf columns term.var
  return row.insert j (row.getD j 0 + term.coefficient)

def lower (columns : Std.ExtTreeMap Wire Nat) (l : LinearCombination p) :
    Except SystemFault (Row p) := do
  let row ← l.foldlM (addTerm columns) ∅
  return row.toList.filterMap fun (j, x) => if x = 0 then none else some (x, j)

def lowerConstraint (columns : Std.ExtTreeMap Wire Nat) (k : Constraint p) :
    Except SystemFault (Row p × Row p × Row p) := do
  let a ← lower columns k.a
  let b ← lower columns k.b
  let c ← lower columns k.c
  return (a, b, c)

/-- The values of all columns; every wire must have one. -/
def allocate (c : Circuit) (t : Table p) : Except Fault (Values p) := do
  let _ ← c.wires.mapM t.demand
  let publics ← c.publicWires.mapM t.demand
  let secrets ← c.secretWires.mapM t.demand
  return ⟨1 :: publics, secrets⟩

/-- The system of a circuit, for proving with the values of a table and else for setup. -/
def synthesize (c : Circuit) (table : Option (Table p)) (policy : ConstDiv) :
    Except SystemFault (ConstraintSystem p) := do
  let values ← match table with
    | some t => some <$> (c.allocate t).mapError .circuit
    | none => pure none
  let rows ← (c.constraints policy).mapM (lowerConstraint c.columns)
  return ⟨c.publicWires.length + 1, c.secretWires.length, rows, values⟩

end Circuit

namespace ConstraintSystem

def size (s : ConstraintSystem p) : Size := ⟨s.rows.length, s.publicColumns - 1, s.secretColumns⟩

/-- The values assigned to columns; for setup only the constant one has a value. -/
def assigned (s : ConstraintSystem p) : Values p := s.values.getD ⟨[1], []⟩

/-- The product of a row with the values of the columns. -/
def dot (z : Array (Residue p)) (row : Row p) : Residue p :=
  row.foldl (fun sum (x, j) => sum + x * z.getD j 0) 0

def holds (z : Array (Residue p)) : Row p × Row p × Row p → Bool
  | (a, b, c) => dot z a * dot z b = dot z c

/-- The number of the first row that does not hold; a system without values has none to try. -/
def firstUnsatisfied (s : ConstraintSystem p) : Except SystemFault (Option Nat) :=
  match s.values with
  | none => .error (.synthesis .missingAssignment)
  | some v => .ok (s.rows.findIdx? (!holds (v.publics ++ v.secrets).toArray ·))

def isSatisfied (s : ConstraintSystem p) : Bool :=
  match s.firstUnsatisfied with
  | .ok none => true
  | _ => false

def check (s : ConstraintSystem p) : Except SystemFault Unit := do
  match ← s.firstUnsatisfied with
  | some i => throw (.unsatisfied i)
  | none => return ()

/-- Moves the system into the place of a target. Neither may be missing, and a system that someone
else holds too cannot be moved. -/
def moveInto (s : ConstraintSystem p) (held : Bool) (target : Option (ConstraintSystem p)) :
    Except SystemFault (ConstraintSystem p) :=
  if held || target.isNone then .error (.synthesis .missingSystem) else .ok s

/-- A system without constraints. -/
def empty : ConstraintSystem p := ⟨1, 0, [], some ⟨[1], []⟩⟩

end ConstraintSystem

/-- `synthesize`, reported. -/
def Circuit.system (c : Circuit) (table : Option (Table p)) (policy : ConstDiv) :
    Journaled SystemFault (ConstraintSystem p) := do
  let s ← liftExcept (c.synthesize table policy)
  report (.synthesized s.rows.length c.outputs.size table.isNone)
  return s

end FieldCircuit
