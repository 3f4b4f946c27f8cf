import FieldCircuit.Command.Compilation
import FieldCircuit.Command.Options

/-!
# Running a command

Reads the two texts, compiles them, and writes the artifacts into the output directory. A command
runs on any `Host`; `World.host` is a file tree with a journal.
-/

namespace FieldCircuit.Command

/-- Where a command runs: its files, and what becomes of the events that are reported. -/
structure Host (m : Type → Type) where
  readText : String → m (Except FileFault String)
  makeDirectories : String → m (Except FileFault Unit)
  writeFile : String → List UInt8 → m (Except FileFault Unit)
  journaled : {α : Type} → Journaled Failure α → m α

section

variable {m : Type → Type} [Monad m] [MonadExceptOf Failure m] (host : Host m) (S : Groth16.Snark)

/-- Names the action on files that failed. -/
def naming {α : Type} (context : String) (x : m (Except FileFault α)) : m α := do
  match ← x with
  | .ok a => return a
  | .error fault => throw ⟨some context, .file fault⟩

def readText (path : String) : m String :=
  naming s!"failed to read `{path}`" (host.readText path)

/-- Everything that is to be written. Proofs are made with the randomness of the seed, or of
`entropy` if there is none. -/
def artifacts (entropy : S.Randomness) (o : Options) (circuit inputs : String) :
    Journaled Failure (List Artifact) := do
  let k ← compile circuit inputs
  if o.prove then
    let random := o.seed.elim entropy S.seeded
    return k.artifacts ++ (← prove S k.circuit k.table o.policy random)
  else return k.artifacts

/-- Writes the artifacts one after the other, and gives their paths. -/
def write (outDir : String) (artifacts : List Artifact) : m (List String) := do
  naming s!"failed to create `{outDir}`" (host.makeDirectories outDir)
  artifacts.mapM fun artifact => do
    let path := FileTree.join outDir artifact.name
    naming s!"failed to write `{path}`" (host.writeFile path artifact.bytes)
    return path

def run (entropy : S.Randomness) (o : Options) : m (List String) := do
  let circuit ← readText host o.circuit
  let inputs ← readText host o.inputs
  write host o.outDir (← host.journaled (artifacts S entropy o circuit inputs))

end

/-! ## File trees -/

/-- A file tree, and what has been reported. -/
structure World where
  files : FileTree
  journal : Journal

abbrev Run := EStateM Failure World

def onJournal {α : Type} (x : Journaled Failure α) : Run α := fun w =>
  match x w.journal with
  | .ok a journal => .ok a { w with journal }
  | .error fault journal => .error fault { w with journal }

def onFiles {α : Type} (x : FileTree.Files α) : Run (Except FileFault α) := fun w =>
  match x w.files with
  | .ok a files => .ok (.ok a) { w with files }
  | .error fault files => .ok (.error fault) { w with files }

def World.host : Host Run where
  readText path := return (← get).files.readText path
  makeDirectories path := onFiles (FileTree.makeDirectories path)
  writeFile path bytes := onFiles (FileTree.writeFile path bytes)
  journaled x := onJournal x

end FieldCircuit.Command
