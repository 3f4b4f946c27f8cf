import FieldCircuit.Circuit.Statement
import FieldCircuit.Program

/-!
# Program source

A program as text: `input n` gives the number of wires, `out_start w` the first output, and every
other line is an operation and its three operands. The headers may stand anywhere.
-/

namespace FieldCircuit

variable {p : Nat}

/-- What the lines so far declare. -/
structure Program.Partial (p : Nat) where
  total : Option UInt64
  outStart : Option Wire
  operations : List (Operation p)

def Program.text (s : Program p) : String :=
  s!"input {s.total}\nout_start {s.outStart}\n" ++
    String.join (s.operations.map fun op => op.text ++ "\n")

/-- Exactly three wires. -/
def Operation.readWires (args : List (List Char)) : Except LineFault (Wire × Wire × Wire) :=
  match args with
  | [x, y, z] => return (← readWord x, ← readWord y, ← readWord z)
  | _ => .error .malformed

variable [Nonzero p]

/-- The constant of a multiplication is read before its wires. -/
def Operation.read (verb : List Char) (args : List (List Char)) : Except LineFault (Operation p) :=
  match String.ofList verb with
  | "add" => do
    let (a, b, w) ← readWires args
    return add a b w
  | "mul" => do
    let (a, b, w) ← readWires args
    return mul a b w
  | "div" => do
    let (w, b, a) ← readWires args
    return div a b w
  | "constmul" =>
    match args with
    | [a, c, w] =>
      match Residue.ofHex? c with
      | some x => return constMul x (← readWord a) (← readWord w)
      | none => .error (.invalidInteger (String.ofList c))
    | _ => .error .malformed
  | "zerop" => do
    let (a, i, w) ← readWires args
    return zeroTest a i w
  | _ => .error (.unknownOperator (String.ofList verb))

namespace Program

/-- A header is declared at most once. -/
def declareOnce (slot : Option UInt64) (text : List Char) : Except LineFault (Option UInt64) :=
  match slot with
  | some _ => .error .duplicateDeclaration
  | none => some <$> readWord text

/-- Adds what the words of a line declare. A header has exactly one operand. -/
def declareWords (s : Partial p) (words : List (List Char)) : Except LineFault (Partial p) :=
  match words with
  | [] => .ok s
  | verb :: args =>
    match String.ofList verb, args with
    | "input", [count] => return { s with total := ← declareOnce s.total count }
    | "out_start", [wire] => return { s with outStart := ← declareOnce s.outStart wire }
    | _, _ => return { s with operations := s.operations ++ [← Operation.read verb args] }

def declareLines : Nat → List (List Char) → Partial p → Except Fault (Partial p)
  | _, [], s => .ok s
  | line, l :: ls, s =>
    let content := Text.uncomment l
    match declareWords s (Text.words content) with
    | .error fault => .error (.onLine line content fault)
    | .ok s' => declareLines (line + 1) ls s'

/-- Without `out_start` there are no outputs. -/
def parse (text : String) : Except Fault (Program p) := do
  let s ← declareLines 1 (Text.lines text.toList) ⟨none, none, []⟩
  match s.total with
  | none => throw .undeclaredTotal
  | some total => return ⟨total, s.outStart.getD total, s.operations⟩

end Program

end FieldCircuit
