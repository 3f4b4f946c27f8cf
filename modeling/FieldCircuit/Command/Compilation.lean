import FieldCircuit.Command.FileTree
import FieldCircuit.Evaluation
import FieldCircuit.Groth16
import FieldCircuit.Program.Rebuild
import FieldCircuit.WireDump

/-!
# Compilation

From the texts of a circuit and its inputs to the artifacts: the program, the values of the wires
and, on request, keys and a proof.
-/

namespace FieldCircuit.Command

inductive Cause where
  | circuit (fault : Fault)
  | system (fault : SystemFault)
  | file (fault : FileFault)
  | unverified
deriving DecidableEq, Repr

def Cause.message : Cause → String
  | circuit fault => fault.message
  | system fault => fault.message
  | file fault => fault.message
  | unverified => "generated proof does not verify"

/-- What went wrong, and in which phase. -/
structure Failure where
  context : Option String
  cause : Cause
deriving DecidableEq, Repr

def Failure.message (f : Failure) : String :=
  match f.context with
  | some context => context ++ ": " ++ f.cause.message
  | none => f.cause.message

def Failure.ofFault (fault : Fault) : Failure := ⟨none, .circuit fault⟩

def Failure.ofSystemFault (fault : SystemFault) : Failure := ⟨none, .system fault⟩

structure Artifact where
  name : String
  bytes : List UInt8
deriving DecidableEq, Repr

def Artifact.ofText (name text : String) : Artifact := ⟨name, text.toUTF8.data.toList⟩

/-- An artifact with the bytes of a key or a proof. -/
def Artifact.ofEncoding (name : String) (bytes : Except EncodingFault (List UInt8)) :
    Except Failure Artifact :=
  match bytes with
  | .ok bytes => .ok ⟨name, bytes⟩
  | .error fault => .error (.ofSystemFault (.encoding fault))

structure Compilation where
  circuit : Circuit
  table : Table scalarModulus
  artifacts : List Artifact

/-- Names the phase in which a circuit fault arose. -/
def during {σ α : Type} (context : String) (x : EStateM Fault σ α) : EStateM Failure σ α :=
  x.adaptExcept fun fault => ⟨some context, .circuit fault⟩

def compile (circuit inputs : String) : Journaled Failure Compilation := do
  let c ← during "failed to parse circuit" (Circuit.load circuit)
  let a ← during "failed to parse inputs" (Assignment.load inputs)
  let a ← a.retain c
  let t ← during "failed to evaluate circuit" (c.solve a)
  let program : Program scalarModulus ← c.flatten.adaptExcept .ofFault
  let dump ← liftExcept ((t.dump c.total).mapError Failure.ofFault)
  report (.compiled c.total c.gates.size c.outputs.size)
  return ⟨c, t, [.ofText "arith_converted" program.text, .ofText "arith_wires" dump]⟩

/-- Names the phase in which a fault of the proof system arose. -/
def proving {σ α : Type} (context : String) (x : EStateM SystemFault σ α) : EStateM Failure σ α :=
  x.adaptExcept fun fault => ⟨some context, .system fault⟩

/-- Keys and a proof for the values of the wires; the proof is verified. -/
def prove (S : Groth16.Snark) (c : Circuit) (t : Table scalarModulus) (policy : ConstDiv)
    (random : S.Randomness) : Journaled Failure (List Artifact) := do
  let ((provingKey, verifyingKey), random) ←
    proving "failed to generate groth16 keys" (Groth16.compile S c policy random)
  let (proof, _) ←
    proving "failed to prove circuit evaluation" (Groth16.prove S provingKey c t policy random)
  let input ← liftExcept ((c.publicInput t).mapError Failure.ofFault)
  let verified ← liftExcept
    ((Groth16.verify S verifyingKey input proof).mapError Failure.ofSystemFault)
  unless verified do
    throw ⟨none, .unverified⟩
  report (.verifiedProof input.length)
  let provingKey ← liftExcept
    (Artifact.ofEncoding "proving_key.bin" (S.provingKeyBytes provingKey))
  let verifyingKey ← liftExcept
    (Artifact.ofEncoding "verifying_key.bin" (S.verifyingKeyBytes verifyingKey))
  let proof ← liftExcept (Artifact.ofEncoding "proof.bin" (S.proofBytes proof))
  return [provingKey, verifyingKey, proof]

end FieldCircuit.Command
