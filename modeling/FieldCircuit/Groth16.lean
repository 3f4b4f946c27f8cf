import FieldCircuit.ConstraintSystem
import FieldCircuit.Modulus

/-!
# Groth16

Keys and proofs for the constraint systems of circuits. How they are made and checked is left to a
`Snark`, of which nothing is assumed.
-/

namespace FieldCircuit.Groth16

abbrev Scalar := Residue scalarModulus

/-- The making, checking and writing of keys and proofs. What is made depends on randomness, which
is used up. -/
structure Snark where
  Randomness : Type
  ProvingKey : Type
  VerifyingKey : Type
  Proof : Type
  /-- The randomness that a seed determines. -/
  seeded : UInt64 → Randomness
  /-- Keys for a system without values. -/
  setup : ConstraintSystem scalarModulus →
    StateT Randomness (Except SynthesisFault) (ProvingKey × VerifyingKey)
  /-- A proof of the values of a system. -/
  prove : ProvingKey → ConstraintSystem scalarModulus →
    StateT Randomness (Except SynthesisFault) Proof
  verify : VerifyingKey → List Scalar → Proof → Except SynthesisFault Bool
  /-- The number of points in a key for the constant one and the public values. -/
  publicPoints : VerifyingKey → Nat
  provingKeyBytes : ProvingKey → Except EncodingFault (List UInt8)
  verifyingKeyBytes : VerifyingKey → Except EncodingFault (List UInt8)
  proofBytes : Proof → Except EncodingFault (List UInt8)

variable (S : Snark)

/-- Keys for the system of a circuit, and the randomness that is left. -/
def compile (c : Circuit) (policy : ConstDiv) (random : S.Randomness) :
    Journaled SystemFault ((S.ProvingKey × S.VerifyingKey) × S.Randomness) := do
  let s ← c.system none policy
  let made ← liftExcept ((S.setup s random).mapError SystemFault.synthesis)
  report (.generatedKeys (S.publicPoints made.1.2 - 1))
  return made

/-- A proof of values that satisfy the system, and the randomness that is left. -/
def prove (key : S.ProvingKey) (c : Circuit) (t : Table scalarModulus) (policy : ConstDiv)
    (random : S.Randomness) : Journaled SystemFault (S.Proof × S.Randomness) := do
  let s ← c.system (some t) policy
  liftExcept s.check
  liftExcept ((S.prove key s random).mapError SystemFault.synthesis)

def verify (key : S.VerifyingKey) (input : List Scalar) (proof : S.Proof) :
    Except SystemFault Bool :=
  (S.verify key input proof).mapError .synthesis

end FieldCircuit.Groth16
