import FieldCircuit.Gate
import FieldCircuit.Text.Split

/-!
# Statements

One line of a circuit's source: `total n`, `output w`, `input w`, or
`operator in k <wires> out m <wires>`.
-/

namespace FieldCircuit

inductive Statement where
  | total (count : UInt64)
  | gate (gate : Gate)
  | output (wire : Wire)
deriving DecidableEq, Repr

/-- A word that is the whole of the text. -/
def readWord (cs : List Char) : Except LineFault UInt64 :=
  if cs.isEmpty || cs.any Text.isBlank then .error .malformed
  else match Text.word? cs with
    | some n => .ok n
    | none => .error (.invalidInteger (String.ofList cs))

namespace Statement

def text : Statement → String
  | total n => s!"total {n}"
  | gate g => g.text
  | output w => s!"output {w}"

/-- A count and as many wires in angle brackets, after a blank; gives the text that follows. -/
def readWires (cs : List Char) : Except LineFault (List Wire × List Char) := do
  unless cs.head?.any Text.isBlank do
    throw .malformed
  let some (count, rest) := Text.cut? (· == '<') cs | throw .malformed
  let declared ← readWord (Text.trim count)
  let some (list, rest) := Text.cut? (· == '>') rest | throw .malformed
  let wires ← (Text.words list).mapM readWord
  if wires.length = declared.toNat then return (wires, rest)
  else throw (.countMismatch declared wires.length)

/-- The wires read and the wires produced. -/
def readLists (cs : List Char) : Except LineFault (List Wire × List Wire) := do
  let some rest := ['i', 'n'].isPrefixOf? cs | throw .malformed
  let (inputs, rest) ← readWires rest
  let some rest := ['o', 'u', 't'].isPrefixOf? (Text.trimStart rest) | throw .malformed
  let (outputs, rest) ← readWires rest
  if rest.all Text.isBlank then return (inputs, outputs) else throw .malformed

/-- A signed constant: its magnitude in hexadecimal, after `neg-` when negative. -/
def constant? (cs : List Char) : Option Int :=
  match ['n', 'e', 'g', '-'].isPrefixOf? cs with
  | some ds => (Text.hex? ds).map fun n : Nat => -(n : Int)
  | none => (Text.hex? cs).map fun n : Nat => (n : Int)

def readConstant (cs : List Char) : Except LineFault Int :=
  match constant? cs with
  | some c => .ok c
  | none => .error (.invalidInteger (String.ofList cs))

/-- The fault of an operator of `i` inputs and `o` outputs on lists of other lengths. -/
def arityFault (op : List Char) (i o : Nat) (inputs outputs : List Wire) : LineFault :=
  .arity (String.ofList op) i o inputs.length outputs.length

def readBinary (op : List Char) (gate : Wire → Wire → Wire → Gate) :
    List Wire → List Wire → Except LineFault Gate
  | [a, b], [w] => .ok (gate a b w)
  | inputs, outputs => .error (arityFault op 2 1 inputs outputs)

def readZeroTest (op : List Char) : List Wire → List Wire → Except LineFault Gate
  | [a], [i, w] => .ok (.zeroTest a i w)
  | inputs, outputs => .error (arityFault op 1 2 inputs outputs)

/-- The lists are counted before the constant is read. -/
def readScaled (op : List Char) (gate : Int → Wire → Wire → Gate) (constant : List Char) :
    List Wire → List Wire → Except LineFault Gate
  | [a], [w] => return gate (← readConstant constant) a w
  | inputs, outputs => .error (arityFault op 1 1 inputs outputs)

/-- The gate of an operator that ends in a constant. -/
def readConstantGate (op : List Char) (inputs outputs : List Wire) : Except LineFault Gate :=
  match "const-mul-".toList.isPrefixOf? op, "const-div-".toList.isPrefixOf? op with
  | some constant, _ => readScaled op .constMul constant inputs outputs
  | none, some constant => readScaled op .constDiv constant inputs outputs
  | none, none => .error (.unknownOperator (String.ofList op))

/-- The gate of an operator and its two lists. -/
def readGate (op : List Char) (inputs outputs : List Wire) : Except LineFault Gate :=
  match String.ofList op with
  | "add" => readBinary op .add inputs outputs
  | "mul" => readBinary op .mul inputs outputs
  | "div" => readBinary op .div inputs outputs
  | "zerop" => readZeroTest op inputs outputs
  | "split" => .error (.unsupportedOperator (String.ofList op))
  | _ => readConstantGate op inputs outputs

/-- The statement of a verb and the text after it. -/
def readClause (verb rest : List Char) : Except LineFault Statement := do
  match String.ofList verb with
  | "total" => return .total (← readWord rest)
  | "input" => return .gate (.input (← readWord rest))
  | "output" => return .output (← readWord rest)
  | _ =>
    let (inputs, outputs) ← readLists rest
    return .gate (← readGate verb inputs outputs)

/-- The statement on a line without comment, if the line is not blank. -/
def read? (line : List Char) : Except LineFault (Option Statement) :=
  let line := Text.trim line
  if line.isEmpty then .ok none
  else match Text.cut? Text.isBlank line with
    | some (verb, rest) => some <$> readClause verb (Text.trim rest)
    | none => some <$> readClause line []

end Statement

end FieldCircuit
