import FieldCircuit.Fault
import FieldCircuit.Residue
import Std.Data.ExtTreeMap

/-!
# Gates

A gate reads wires and produces one wire, or two for a zero test: the indicator is one exactly
when the tested wire is zero, and the witness is its inverse otherwise.
-/

namespace FieldCircuit

inductive Gate where
  | input (output : Wire)
  | add (left right output : Wire)
  | mul (left right output : Wire)
  | div (dividend divisor output : Wire)
  | constMul (constant : Int) (input output : Wire)
  | constDiv (constant : Int) (input output : Wire)
  | zeroTest (input indicator witness : Wire)
deriving DecidableEq, Repr

namespace Gate

/-- The wires read, in operand order. -/
def inputs : Gate → List Wire
  | input _ => []
  | add a b _ | mul a b _ | div a b _ => [a, b]
  | constMul _ a _ | constDiv _ a _ | zeroTest a _ _ => [a]

/-- The wires produced, in slot order. -/
def outputs : Gate → List Wire
  | input w | add _ _ w | mul _ _ w | div _ _ w | constMul _ _ w | constDiv _ _ w => [w]
  | zeroTest _ i w => [i, w]

/-- The smallest wire produced. -/
def firstOutput : Gate → Wire
  | input w | add _ _ w | mul _ _ w | div _ _ w | constMul _ _ w | constDiv _ _ w => w
  | zeroTest _ i w => min i w

def isInput : Gate → Bool
  | input _ => true
  | _ => false

/-- Every wire read comes before every wire produced. -/
def checkMonotonic (g : Gate) : Except Fault Unit :=
  if g.inputs.all (· < g.firstOutput) then .ok ()
  else .error (.nonMonotonic g.firstOutput g.inputs)

/-! ## Text -/

def wireList (ws : List Wire) : String :=
  s!"{ws.length} <" ++ " ".intercalate (ws.map toString) ++ ">"

/-- A constant as it ends an operator: its magnitude in hexadecimal, marked when negative. -/
def constantText : Int → String
  | .ofNat n => Text.hexDigits n
  | .negSucc n => "neg-" ++ Text.hexDigits (n + 1)

def operator : Gate → String
  | input _ => "input"
  | add .. => "add"
  | mul .. => "mul"
  | div .. => "div"
  | constMul c _ _ => "const-mul-" ++ constantText c
  | constDiv c _ _ => "const-div-" ++ constantText c
  | zeroTest .. => "zerop"

def text : Gate → String
  | input w => s!"input {w}"
  | g => g.operator ++ " in " ++ wireList g.inputs ++ " out " ++ wireList g.outputs

/-! ## Values -/

variable {p : Nat} [Nonzero p]

/-- The values of the outputs, in slot order, given a reader of the inputs. Operands are read in
order; a constant divisor is inverted before the operand is read. -/
def evaluate (value : Wire → Except Fault (Residue p)) : Gate → Except Fault (List (Residue p))
  | input w => .error (.unassignedInput w)
  | add a b _ => do
    let x ← value a
    let y ← value b
    return [x + y]
  | mul a b _ => do
    let x ← value a
    let y ← value b
    return [x * y]
  | div a b w => do
    let x ← value a
    let y ← value b
    match y.inverse? with
    | some z => return [x * z]
    | none => throw (.divisionByZero w)
  | constMul c a _ => do
    let x ← value a
    return [Residue.ofInt c * x]
  | constDiv c a w =>
    match (Residue.ofInt c : Residue p).inverse? with
    | some z => do
      let x ← value a
      return [x * z]
    | none => throw (.divisionByZero w)
  | zeroTest a _ _ => do
    let x ← value a
    match x.inverse? with
    | some z => return [0, z]
    | none => return [1, 0]

theorem evaluate_length {value : Wire → Except Fault (Residue p)} {g : Gate}
    {xs : List (Residue p)} (h : g.evaluate value = .ok xs) : xs.length = g.outputs.length := by
  cases g <;> simp only [evaluate, bind, Except.bind, pure, Except.pure, throw, throwThe,
    MonadExceptOf.throw] at h <;> (repeat' split at h) <;> cases h <;> rfl

theorem firstOutput_le {g : Gate} {w : Wire} (h : w ∈ g.outputs) : g.firstOutput ≤ w := by
  cases g with
  | zeroTest a i x =>
    simp only [outputs, List.mem_cons, List.not_mem_nil, or_false] at h
    rcases h with rfl | rfl
    · exact Std.min_le_left
    · exact Std.min_le_right
  | _ => simp_all [outputs, firstOutput]

theorem lt_firstOutput {g : Gate} (h : g.checkMonotonic = .ok ()) {w : Wire} (hw : w ∈ g.inputs) :
    w < g.firstOutput := by
  unfold checkMonotonic at h
  split at h
  · next ha => simpa using List.all_eq_true.1 ha w hw
  · cases h

end Gate

/-- Values of wires. -/
abbrev Table (p : Nat) := Std.ExtTreeMap Wire (Residue p)

end FieldCircuit
