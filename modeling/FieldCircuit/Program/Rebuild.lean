import FieldCircuit.Circuit.Builder
import FieldCircuit.Program.Source

/-!
# Programs as circuits

A program becomes a circuit again when its wires are few enough and its operations produce each
wire below the total at most once.
-/

namespace FieldCircuit

variable {p : Nat}

namespace Program

/-- The header alone decides how many inputs a circuit gets, so it is bounded. -/
def maxWires : UInt64 := 16777216

/-- The wires that operations produce. -/
def produced (s : Program p) : Std.ExtTreeSet Wire :=
  .ofList (s.operations.flatMap Operation.outputs)

/-- The wires `start, …, stop - 1`. -/
def wiresFrom (start stop : UInt64) : List Wire :=
  (List.range' start.toNat (stop.toNat - start.toNat)).map Nat.toUInt64

/-- Inputs for the wires that no operation produces, then the operations. -/
def gates (s : Program p) : List Gate :=
  ((wiresFrom 0 s.total).filter (· ∉ s.produced)).map .input ++ s.operations.map Operation.toGate

def declareAll (s : Program p) : Build Unit := do
  s.gates.forM Builder.push
  (wiresFrom s.outStart s.total).forM fun w => modify (·.declareOutput w)

def toCircuit (s : Program p) : Except Fault Circuit :=
  if s.total > maxWires then .error (.tooManyWires s.total maxWires)
  else match s.produced.max? with
    | some w =>
      if s.total ≤ w then .error (.wireCountMismatch s.total (Builder.next w)) else build
    | none => build
where
  build : Except Fault Circuit :=
    match s.declareAll.run (Builder.withTotal s.total) with
    | .ok _ b => b.finish
    | .error fault _ => .error fault

end Program

variable [Nonzero p]

/-- The circuit of a program's text. -/
def Circuit.ofProgramText (p : Nat) [Nonzero p] (text : String) : Except Fault Circuit := do
  let s ← (Program.parse text : Except Fault (Program p))
  s.toCircuit

/-- The program of a circuit, reported. -/
def Circuit.flatten (c : Circuit) : Journaled Fault (Program p) := do
  let s ← liftExcept (Program.ofCircuit c)
  report (.flattened s.operations.length s.outStart)
  return s

end FieldCircuit
