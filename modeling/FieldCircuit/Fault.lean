import FieldCircuit.Text.Split

/-!
# Faults

Everything that can be wrong with a circuit, an assignment or a table of values, as causes; the
wording is in the `message` functions.
-/

namespace FieldCircuit

/-- A wire's number. -/
abbrev Wire := UInt64

/-- What is wrong with one line of text. -/
inductive LineFault where
  | malformed
  | invalidInteger (text : String)
  | duplicateDeclaration
  | unknownOperator (operator : String)
  | unsupportedOperator (operator : String)
  | countMismatch (declared : UInt64) (listed : Nat)
  | arity (operator : String) (expectedInputs expectedOutputs inputs outputs : Nat)
  | duplicateAssignment (wire : Wire)
deriving DecidableEq, Repr

def LineFault.message : LineFault → String
  | malformed => "malformed instruction"
  | invalidInteger text => s!"invalid integer `{text}`"
  | duplicateDeclaration => "duplicate total declaration"
  | unknownOperator op => s!"unknown operator `{op}`"
  | unsupportedOperator op => s!"unsupported operator `{op}`"
  | countMismatch declared listed => s!"list declares {declared} wires but names {listed}"
  | arity op ei eo i o => s!"`{op}` takes {ei} inputs and {eo} outputs, found {i} and {o}"
  | duplicateAssignment w => s!"wire {w} is assigned more than once"

inductive Fault where
  /-- `line` counts from one and `content` is trimmed. -/
  | parse (line : Nat) (content : String) (fault : LineFault)
  | duplicateWire (wire : Wire)
  | missingWire (wire : Wire)
  | undeclaredTotal
  | wireCountMismatch (declared actual : UInt64)
  | tooManyWires (declared limit : UInt64)
  | unassignedInput (wire : Wire)
  | nonMonotonic (wire : Wire) (dependencies : List Wire)
  | divisionByZero (wire : Wire)
  | incompleteTable (wire : Wire)
deriving DecidableEq, Repr

def Fault.message : Fault → String
  | parse line content fault => s!"line {line}: {fault.message}: `{content}`"
  | duplicateWire w => s!"wire {w} is assigned more than once"
  | missingWire w => s!"wire {w} is not populated"
  | undeclaredTotal => "circuit does not declare a total wire count"
  | wireCountMismatch declared actual =>
    s!"circuit declares {declared} wires but assigns {actual}"
  | tooManyWires declared limit =>
    s!"converted circuit declares {declared} wires, more than the limit of {limit}"
  | unassignedInput w => s!"no value assigned to input wire {w}"
  | nonMonotonic w deps =>
    "circuit does not flow monotonically: dependencies [" ++
      ", ".intercalate (deps.map toString) ++ s!"] come after wire {w}"
  | divisionByZero w => s!"division by zero while computing wire {w}"
  | incompleteTable w => s!"value table is missing wire {w}"

/-- A fault on the line with the given number. -/
def Fault.onLine (line : Nat) (content : List Char) (fault : LineFault) : Fault :=
  .parse line (String.ofList (Text.trim content)) fault

end FieldCircuit
