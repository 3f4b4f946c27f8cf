import FieldCircuit.Groth16.Ideal
import FieldCircuit.Main
import FieldCircuit.Proofs.PrimeField
import FieldCircuit.Proofs.Run
import FieldCircuit.Proofs.Solution
import FieldCircuit.Proofs.Satisfaction
import FieldCircuit.Proofs.Soundness
import FieldCircuit.Proofs.Completeness
import FieldCircuit.Proofs.Descent
import FieldCircuit.Proofs.Requests
import FieldCircuit.Proofs.History
import FieldCircuit.Proofs.Text
import FieldCircuit.Proofs.ProgramText
import FieldCircuit.Proofs.Assembly
import FieldCircuit.Proofs.Flattening
import FieldCircuit.Proofs.Declarations
import FieldCircuit.Proofs.Faults
import FieldCircuit.Proofs.Ascent
import FieldCircuit.Proofs.Spelling
import FieldCircuit.Proofs.Grammar
import FieldCircuit.Proofs.CircuitSource
import FieldCircuit.Proofs.CircuitText
import FieldCircuit.Proofs.FinalCheck
import FieldCircuit.Proofs.FoldedConstraints
import FieldCircuit.Proofs.WireDump
import FieldCircuit.Proofs.Compilation
import FieldCircuit.Proofs.Synthesis
import FieldCircuit.Proofs.Emission
import FieldCircuit.Proofs.FileTree
import FieldCircuit.Proofs.FailedRun
import FieldCircuit.Proofs.ProgramCheck
import FieldCircuit.Proofs.AssignmentText
import FieldCircuit.Proofs.Cone
import FieldCircuit.Proofs.GateOrder
import FieldCircuit.Proofs.InputDependence
import FieldCircuit.Proofs.Chronicle
import FieldCircuit.Proofs.Termination
import FieldCircuit.Proofs.UnassignedInputs
import FieldCircuit.Proofs.Literals
import FieldCircuit.Proofs.Moduli
import FieldCircuit.Proofs.Coordinates
import FieldCircuit.Proofs.PointEncoding
import FieldCircuit.Proofs.KeyEncoding
