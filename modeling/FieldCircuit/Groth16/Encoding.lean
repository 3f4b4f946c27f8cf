import FieldCircuit.Curve.Encoding

/-!
# Encoded keys and proofs

The points that make up Groth16 keys and proofs, in the order in which they are written.
-/

namespace FieldCircuit.Groth16

structure Proof where
  a : G1
  b : G2
  c : G1
deriving DecidableEq, Repr

structure VerifyingKey where
  alpha : G1
  beta : G2
  gamma : G2
  delta : G2
  publics : List G1
deriving DecidableEq, Repr

structure ProvingKey where
  verifyingKey : VerifyingKey
  beta : G1
  delta : G1
  a : List G1
  bFirst : List G1
  bSecond : List G2
  h : List G1
  l : List G1
deriving DecidableEq, Repr

def readG2 : Decoder G2 := Decoder.one G2.inGroup G2.read

def readG1s : Decoder (List G1) := Decoder.list (fun _ => true) G1.read

def encodeG1s (ps : List G1) : List UInt8 := encodeList G1.encode ps

namespace Proof

def read : Decoder Proof := return ⟨← G1.read, ← readG2, ← G1.read⟩

def encode (p : Proof) : List UInt8 := p.a.encode ++ p.b.encode ++ p.c.encode

end Proof

namespace VerifyingKey

def read : Decoder VerifyingKey :=
  return ⟨← G1.read, ← readG2, ← readG2, ← readG2, ← readG1s⟩

def encode (k : VerifyingKey) : List UInt8 :=
  k.alpha.encode ++ k.beta.encode ++ k.gamma.encode ++ k.delta.encode ++ encodeG1s k.publics

end VerifyingKey

namespace ProvingKey

def read : Decoder ProvingKey :=
  return ⟨← VerifyingKey.read, ← G1.read, ← G1.read, ← readG1s, ← readG1s,
    ← Decoder.list G2.inGroup G2.read, ← readG1s, ← readG1s⟩

def encode (k : ProvingKey) : List UInt8 :=
  k.verifyingKey.encode ++ k.beta.encode ++ k.delta.encode ++ encodeG1s k.a ++
    encodeG1s k.bFirst ++ encodeList G2.encode k.bSecond ++ encodeG1s k.h ++ encodeG1s k.l

end ProvingKey

/-- What is read from the front of the bytes; what follows is ignored. -/
def decode {α : Type} (read : Decoder α) (bytes : List UInt8) : Except EncodingFault α :=
  (read.run bytes).map (·.1)

end FieldCircuit.Groth16
