import FieldCircuit.Assignment
import FieldCircuit.Constraint

/-!
# Wire dumps

The values of the first wires as text, one wire a line. An assignment reads it back.
-/

namespace FieldCircuit

variable {p : Nat} [Nonzero p]

namespace Table

/-- The lines of `count` wires from `start` on. -/
def dumpFrom (t : Table p) (start : Nat) : Nat → Except Fault String
  | 0 => .ok ""
  | count + 1 => do
    let x ← t.demand start.toUInt64
    let rest ← t.dumpFrom (start + 1) count
    return s!"{start} " ++ x.hex ++ "\n" ++ rest

def dump (t : Table p) (total : UInt64) : Except Fault String := t.dumpFrom 0 total.toNat

end Table

end FieldCircuit
