import FieldCircuit.Fault

/-!
# Events

What the passes report while they work. A journal is a list of events, oldest first.
-/

namespace FieldCircuit

inductive Event where
  | validated (total : UInt64) (gates outputs : Nat)
  | readAssignment (assigned : Nat)
  | ignoredWire (wire : Wire)
  | collapsed (wire : Wire) (value : Nat)
  | evaluatedOutputs (cached : Nat)
  | filledGaps (filled : Nat)
  | flattened (operations : Nat) (outStart : Wire)
  | synthesized (constraints publics : Nat) (setup : Bool)
  | generatedKeys (publicInputs : Nat)
  | compiled (wires : UInt64) (gates outputs : Nat)
  | verifiedProof (publicInputs : Nat)
deriving DecidableEq, Repr

inductive Event.Level where
  | trace | debug | info | warn
deriving DecidableEq, Repr

inductive Event.Value where
  | count (n : Nat)
  | flag (b : Bool)
  | residue (value : Nat)
deriving DecidableEq, Repr

namespace Event

def level : Event → Level
  | collapsed .. => .trace
  | ignoredWire _ => .warn
  | compiled .. | verifiedProof _ => .info
  | _ => .debug

def message : Event → String
  | validated .. => "validated circuit"
  | readAssignment _ => "parsed input assignment"
  | ignoredWire _ => "ignoring value assigned to a wire that is not an input"
  | collapsed .. => "collapsed wire"
  | evaluatedOutputs _ => "evaluated outputs"
  | filledGaps _ => "filled wire gaps"
  | flattened .. => "converted circuit"
  | synthesized .. => "synthesized constraint system"
  | generatedKeys _ => "generated groth16 keys"
  | compiled .. => "compiled circuit"
  | verifiedProof _ => "verified groth16 proof"

/-- The named numbers, flags and residues of an event. -/
def fields : Event → List (String × Value)
  | validated total gates outputs =>
    [("total_wires", .count total.toNat), ("gates", .count gates), ("outputs", .count outputs)]
  | readAssignment n => [("assigned", .count n)]
  | ignoredWire w => [("wire", .count w.toNat)]
  | collapsed w x => [("wire", .count w.toNat), ("value", .residue x)]
  | evaluatedOutputs n => [("cached", .count n)]
  | filledGaps n => [("filled", .count n)]
  | flattened operations outStart =>
    [("operations", .count operations), ("out_start", .count outStart.toNat)]
  | synthesized constraints publics setup =>
    [("constraints", .count constraints), ("public", .count publics), ("setup", .flag setup)]
  | generatedKeys n => [("public_inputs", .count n)]
  | compiled wires gates outputs =>
    [("wires", .count wires.toNat), ("gates", .count gates), ("outputs", .count outputs)]
  | verifiedProof n => [("public_inputs", .count n)]

end Event

/-- Events, oldest first. -/
abbrev Journal := List Event

/-- Computations that report events and keep what they reported when they fail. -/
abbrev Journaled (ε : Type) := EStateM ε Journal

def report {ε : Type} (event : Event) : Journaled ε Unit := modify (· ++ [event])

end FieldCircuit
