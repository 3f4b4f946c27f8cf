import FieldCircuit.Groth16
import FieldCircuit.Groth16.Encoding

/-!
# An ideal proof system

Stands in where a `Snark` has to be run: a key has as many points as the shape of its system asks
for, a proof carries the public values it was made for, and verification accepts exactly these.
Nothing is drawn at random, and all points are at infinity.
-/

namespace FieldCircuit.Groth16.Ideal

/-- A proof and the public values it attests, if any. -/
structure Attestation where
  proof : Proof
  attested : Option (List Scalar)
deriving DecidableEq, Repr

/-- The proof of nothing. -/
def Attestation.default : Attestation := ⟨⟨.infinity, .infinity, .infinity⟩, none⟩

def verifyingKey (s : ConstraintSystem scalarModulus) : VerifyingKey :=
  ⟨.infinity, .infinity, .infinity, .infinity, .replicate s.publicColumns .infinity⟩

/-- The evaluation domain has a power of two points. -/
def domainSize (s : ConstraintSystem scalarModulus) : Nat :=
  (s.rows.length + s.publicColumns).nextPowerOfTwo

def provingKey (s : ConstraintSystem scalarModulus) : ProvingKey :=
  let columns := s.publicColumns + s.secretColumns
  ⟨verifyingKey s, .infinity, .infinity, .replicate columns .infinity,
    .replicate columns .infinity, .replicate columns .infinity,
    .replicate (domainSize s - 1) .infinity, .replicate s.secretColumns .infinity⟩

def snark : Snark where
  Randomness := Unit
  ProvingKey := ProvingKey
  VerifyingKey := VerifyingKey
  Proof := Attestation
  seeded _ := ()
  setup s := return (provingKey s, verifyingKey s)
  prove _ s := return { Attestation.default with attested := s.values.map (·.publics.drop 1) }
  verify key input proof :=
    if input.length + 1 = key.publics.length then .ok (proof.attested = some input)
    else .error .malformedKey
  publicPoints key := key.publics.length
  provingKeyBytes key := .ok key.encode
  verifyingKeyBytes key := .ok key.encode
  proofBytes proof := .ok proof.proof.encode

/-- Writes the proof and reads it back. -/
def Attestation.reread (a : Attestation) : Except EncodingFault Attestation :=
  return { a with proof := ← decode Proof.read a.proof.encode }

end FieldCircuit.Groth16.Ideal
