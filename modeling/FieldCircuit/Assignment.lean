import FieldCircuit.Circuit.Source

/-!
# Assignments

Values given to wires from outside, as text one wire and its value in hexadecimal a line.
-/

namespace FieldCircuit

abbrev Assignment (p : Nat) := Table p

namespace Assignment

variable {p : Nat} [Nonzero p]

/-- The wire and the value on a line without comment, if the line is not blank. -/
def readEntry? (line : List Char) : Except LineFault (Option (Wire × Residue p)) :=
  match Text.words line with
  | [] => .ok none
  | [wire, value] => do
    let w ← readWord wire
    match Residue.ofHex? value with
    | some x => return some (w, x)
    | none => throw (.invalidInteger (String.ofList value))
  | _ => .error .malformed

/-- Enters the lines, the first of which has number `line`, into the assignment. -/
def enterLines : Nat → List (List Char) → Assignment p → Except Fault (Assignment p)
  | _, [], a => .ok a
  | line, l :: ls, a =>
    let content := Text.uncomment l
    match readEntry? content with
    | .error fault => .error (.onLine line content fault)
    | .ok none => enterLines (line + 1) ls a
    | .ok (some (w, x)) =>
      if a.contains w then .error (.onLine line content (.duplicateAssignment w))
      else enterLines (line + 1) ls (a.insert w x)

def parse (text : String) : Except Fault (Assignment p) :=
  enterLines 1 (Text.lines text.toList) ∅

def load (text : String) : Journaled Fault (Assignment p) := do
  let a ← liftExcept (parse text)
  report (.readAssignment a.size)
  return a

/-- The values of the wires that are inputs of the circuit. -/
def restrict (a : Assignment p) (c : Circuit) : Assignment p := a.filter fun w _ => c.isInput w

/-- `restrict`, with a warning for each wire left out, in ascending order. -/
def retain {ε : Type} (a : Assignment p) (c : Circuit) : Journaled ε (Assignment p) := do
  modify (· ++ (a.keys.filter (!c.isInput ·)).map .ignoredWire)
  return a.restrict c

end Assignment

end FieldCircuit
