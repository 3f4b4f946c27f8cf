import FieldCircuit.Circuit.Builder
import FieldCircuit.Circuit.Statement

/-!
# Circuit source

A circuit as text, one statement a line, in any order. `Circuit.text` writes the total, the gates
and then the outputs; `Circuit.parse` reads any order, with comments and blank lines.
-/

namespace FieldCircuit

/-- Declares a statement; the fault of a second total is one of its line. -/
def Builder.declare (onLine : LineFault → Fault) : Statement → Build Unit
  | .total n => (declareTotal n).adaptExcept onLine
  | .gate g => push g
  | .output w => modify (·.declareOutput w)

namespace Circuit

def statements (c : Circuit) : List Statement :=
  .total c.total :: (c.gates.toList.map .gate ++ c.outputs.toList.map .output)

def text (c : Circuit) : String := String.join (c.statements.map fun s => s.text ++ "\n")

/-- Declares the statements of the lines, the first of which has number `line`. -/
def declareLines : Nat → List (List Char) → Builder → Except Fault Builder
  | _, [], b => .ok b
  | line, l :: ls, b =>
    let content := Text.uncomment l
    match Statement.read? content with
    | .error fault => .error (.onLine line content fault)
    | .ok none => declareLines (line + 1) ls b
    | .ok (some s) =>
      match Builder.declare (.onLine line content) s b with
      | .ok () b' => declareLines (line + 1) ls b'
      | .error fault _ => .error fault

def parse (text : String) : Except Fault Circuit := do
  let b ← declareLines 1 (Text.lines text.toList) .empty
  b.finish

def load (text : String) : Journaled Fault Circuit := do
  let c ← liftExcept (parse text)
  report c.validated
  return c

end Circuit

end FieldCircuit
