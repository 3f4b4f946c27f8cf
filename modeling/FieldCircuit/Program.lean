import FieldCircuit.Circuit

/-!
# Straight-line programs

A circuit with its constants folded into the field and its divisions by constants made
multiplications. Wires that no operation produces are inputs, and the outputs are the wires from
`outStart` on.
-/

namespace FieldCircuit

inductive Operation (p : Nat) where
  | add (left right output : Wire)
  | mul (left right output : Wire)
  | div (dividend divisor output : Wire)
  | constMul (constant : Residue p) (input output : Wire)
  | zeroTest (input indicator witness : Wire)
deriving DecidableEq, Repr

structure Program (p : Nat) where
  total : UInt64
  outStart : Wire
  operations : List (Operation p)
deriving DecidableEq, Repr

variable {p : Nat}

namespace Operation

/-- The wires produced, in slot order. -/
def outputs : Operation p → List Wire
  | add _ _ w | mul _ _ w | div _ _ w | constMul _ _ w => [w]
  | zeroTest _ i w => [i, w]

def toGate : Operation p → Gate
  | add a b w => .add a b w
  | mul a b w => .mul a b w
  | div a b w => .div a b w
  | constMul c a w => .constMul c.val a w
  | zeroTest a i w => .zeroTest a i w

/-- The quotient is written before the divisor and the dividend. -/
def text : Operation p → String
  | add a b w => s!"add {a} {b} {w}"
  | mul a b w => s!"mul {a} {b} {w}"
  | div a b w => s!"div {w} {b} {a}"
  | constMul c a w => s!"constmul {a} " ++ c.hex ++ s!" {w}"
  | zeroTest a i w => s!"zerop {a} {i} {w}"

variable [Nonzero p]

/-- The operation of a gate; an input has none. -/
def ofGate? : Gate → Except Fault (Option (Operation p))
  | .input _ => .ok none
  | .add a b w => .ok (some (add a b w))
  | .mul a b w => .ok (some (mul a b w))
  | .div a b w => .ok (some (div a b w))
  | .constMul c a w => .ok (some (constMul (.ofInt c) a w))
  | .constDiv c a w =>
    match (Residue.ofInt c : Residue p).inverse? with
    | some x => .ok (some (constMul x a w))
    | none => .error (.divisionByZero w)
  | .zeroTest a i w => .ok (some (zeroTest a i w))

end Operation

namespace Program

variable [Nonzero p]

/-- A circuit without outputs has them start behind its last wire. -/
def ofCircuit (c : Circuit) : Except Fault (Program p) := do
  let operations ← c.gates.toList.mapM Operation.ofGate?
  return ⟨c.total, c.firstOutput?.getD c.total, operations.filterMap id⟩

end Program

end FieldCircuit
