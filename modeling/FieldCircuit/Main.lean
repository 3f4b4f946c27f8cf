import FieldCircuit.Command.Run
import FieldCircuit.Groth16.Ideal

/-!
# The command

`main` reads the arguments and runs the command on the files around it. Keys and proofs are those of
the ideal proof system.
-/

namespace FieldCircuit.Command

def usage : String := "Usage: field-circuit [OPTIONS] <CIRCUIT> <INPUTS>"

def help : String :=
  "Compile an arithmetic circuit and evaluate its wires\n\n" ++ usage ++ "\n\n" ++
  "Arguments:\n" ++
  "  <CIRCUIT>  Path to the circuit source\n" ++
  "  <INPUTS>   Path to the input assignment\n\n" ++
  "Options:\n" ++
  "  -o, --out-dir <OUT_DIR>  Directory the artifacts are written to [default: .]\n" ++
  "      --omit-const-div     Leave constant divisions unconstrained\n" ++
  "      --prove              Also run Groth16 setup, proving, and verification\n" ++
  "      --seed <SEED>        Seed for deterministic Groth16 randomness\n" ++
  "  -v, --verbose            Enable verbose output\n" ++
  "  -h, --help               Print help\n" ++
  "  -V, --version            Print version"

def ArgumentFault.message : ArgumentFault → String
  | missingRequired => "error: a required argument was not provided\n\n" ++ usage
  | unknown => "error: unexpected argument found\n\n" ++ usage
  | invalidValue => "error: a value is required for an argument but none was supplied\n\n" ++ usage
  | valueValidation => "error: invalid value for an argument\n\n" ++ usage
  | conflict => "error: an argument cannot be used multiple times\n\n" ++ usage
  | tooManyValues => "error: unexpected value for an argument\n\n" ++ usage
  | help => Command.help
  | version => "field-circuit 0.1.0"

/-- Asking for help or the version is no failure. -/
def ArgumentFault.exitCode : ArgumentFault → UInt32
  | help | version => 0
  | _ => 2

/-- The steps of an evaluation are never shown, and details only when asked for. -/
def isShown (verbose : Bool) (event : Event) : Bool :=
  match event.level with
  | .trace => false
  | .debug => verbose
  | .info | .warn => true

def levelText : Event.Level → String
  | .trace => "TRACE"
  | .debug => "DEBUG"
  | .info => "INFO"
  | .warn => "WARN"

def valueText : Event.Value → String
  | .count n | .residue n => toString n
  | .flag b => toString b

def eventText (event : Event) : String :=
  " ".intercalate
    (levelText event.level :: event.message :: event.fields.map fun (k, v) =>
      k ++ "=" ++ valueText v)

def FileFault.ofError : IO.Error → FileFault
  | .noFileOrDirectory .. => .notFound
  | .alreadyExists .. => .alreadyExists
  | e => .other (toString e)

def attempt {α : Type} (x : IO α) : EIO Failure (Except FileFault α) := do
  return (← EIO.toBaseIO x).mapError FileFault.ofError

def print (text : String) : EIO Failure Unit := do
  let _ ← attempt (IO.println text)

/-- The files around the program; events that are shown are printed. -/
def systemHost (verbose : Bool) : Host (EIO Failure) where
  readText path := do
    match ← attempt (IO.FS.readBinFile path) with
    | .error fault => return .error fault
    | .ok bytes =>
      match String.fromUTF8? bytes with
      | some text => return .ok text
      | none => return .error .invalidText
  makeDirectories path := attempt (IO.FS.createDirAll path)
  writeFile path bytes := attempt (IO.FS.writeBinFile path ⟨bytes.toArray⟩)
  journaled x := do
    let result := x []
    let journal := match result with
      | .ok _ journal | .error _ journal => journal
    (journal.filter (isShown verbose)).forM fun event => print (eventText event)
    match result with
    | .ok a _ => return a
    | .error failure _ => throw failure

end FieldCircuit.Command

open FieldCircuit FieldCircuit.Command in
def main (args : List String) : IO UInt32 := do
  match Options.parse args with
  | .error fault =>
    if fault.exitCode = 0 then IO.println fault.message else IO.eprintln fault.message
    return fault.exitCode
  | .ok options =>
    match ← EIO.toBaseIO (run (systemHost options.verbose) Groth16.Ideal.snark () options) with
    | .ok paths =>
      paths.forM fun path => IO.println s!"INFO wrote artifact path={path}"
      return 0
    | .error failure =>
      IO.eprintln s!"Error: {failure.message}"
      return 1
