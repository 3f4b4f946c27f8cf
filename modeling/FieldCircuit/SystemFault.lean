import FieldCircuit.Fault

/-!
# Faults of proof systems

What can be wrong with a constraint system, and with the keys and proofs made for it.
-/

namespace FieldCircuit

inductive SynthesisFault where
  | missingSystem
  | missingAssignment
  | divisionByZero
  | unsatisfiable
  | degreeTooLarge
  | unexpectedIdentity
  | malformedKey
  | unconstrained
deriving DecidableEq, Repr

def SynthesisFault.message : SynthesisFault → String
  | missingSystem => "the constraint system was `None`"
  | missingAssignment => "an assignment for a variable could not be computed"
  | divisionByZero => "division by zero"
  | unsatisfiable => "unsatisfiable constraint system"
  | degreeTooLarge => "polynomial degree is too large"
  | unexpectedIdentity => "encountered an identity element in the CRS"
  | malformedKey => "malformed verifying key"
  | unconstrained => "auxiliary variable was unconstrained"

/-- What can be wrong with the bytes of a key or a proof. -/
inductive EncodingFault where
  | shortInput
  | invalidData
  | unexpectedFlags
  | notEnoughSpace
deriving DecidableEq, Repr

def EncodingFault.message : EncodingFault → String
  | shortInput => "the input is too short"
  | invalidData => "the input buffer contained invalid data"
  | unexpectedFlags => "the call expects empty flags"
  | notEnoughSpace => "the last byte does not have enough space to encode the extra info bits"

inductive SystemFault where
  | circuit (fault : Fault)
  | synthesis (fault : SynthesisFault)
  /-- The constraint with this number does not hold. -/
  | unsatisfied (index : Nat)
  /-- A constraint names a wire that has no column. -/
  | unallocated (wire : Wire)
  | encoding (fault : EncodingFault)
deriving DecidableEq, Repr

def SystemFault.message : SystemFault → String
  | circuit fault => fault.message
  | synthesis fault => "constraint synthesis failed: " ++ fault.message
  | unsatisfied index => s!"constraint `{index}` is not satisfied by the wire values"
  | unallocated w => s!"no column for wire {w}"
  | encoding fault => "serialization failed: " ++ fault.message

end FieldCircuit
