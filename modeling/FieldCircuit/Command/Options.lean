import FieldCircuit.Constraint
import FieldCircuit.Text.Numeral

/-!
# Command line options

Arguments are scanned from left to right. The value of an option may be attached to it, and is
then checked at once, or be the next argument; that and a positional argument are checked when the
next one begins. An argument that is not known is refused before that.
-/

namespace FieldCircuit.Command

structure Options where
  circuit : String
  inputs : String
  outDir : String
  omitConstDiv : Bool
  prove : Bool
  seed : Option UInt64
  verbose : Bool
deriving DecidableEq, Repr

def Options.policy (o : Options) : ConstDiv := if o.omitConstDiv then .omit else .enforce

inductive ArgumentFault where
  | missingRequired
  | unknown
  | invalidValue
  | valueValidation
  | conflict
  | tooManyValues
  | help
  | version
deriving DecidableEq, Repr

/-- The arguments that have a value. -/
inductive Slot where
  | circuit | inputs | outDir | seed
deriving DecidableEq, Repr

inductive Switch where
  | omitConstDiv | prove | verbose | help | version
deriving DecidableEq, Repr

inductive Named where
  | slot (slot : Slot)
  | switch (switch : Switch)
deriving DecidableEq, Repr

def longName? : String → Option Named
  | "out-dir" => some (.slot .outDir)
  | "seed" => some (.slot .seed)
  | "omit-const-div" => some (.switch .omitConstDiv)
  | "prove" => some (.switch .prove)
  | "verbose" => some (.switch .verbose)
  | "help" => some (.switch .help)
  | "version" => some (.switch .version)
  | _ => none

def shortName? : Char → Option Named
  | 'o' => some (.slot .outDir)
  | 'v' => some (.switch .verbose)
  | 'h' => some (.switch .help)
  | 'V' => some (.switch .version)
  | _ => none

/-- What has been scanned. `pending` is an argument that still wants a value or whose value is not
checked yet. -/
structure Scan where
  circuit : Option String
  inputs : Option String
  outDir : Option String
  seed : Option UInt64
  switches : List Switch
  positionals : Nat
  pending : Option (Slot × Option String)
deriving DecidableEq, Repr

namespace Scan

def start : Scan := ⟨none, none, none, none, [], 0, none⟩

/-- A path is not empty. -/
def path (value : String) : Except ArgumentFault String :=
  if value.isEmpty then .error .invalidValue else .ok value

/-- Enters a value. An argument is given at most once. -/
def enter (s : Scan) (slot : Slot) (value : String) : Except ArgumentFault Scan :=
  match slot with
  | .circuit => return { s with circuit := some (← path value) }
  | .inputs => return { s with inputs := some (← path value) }
  | .outDir =>
    match s.outDir with
    | some _ => .error .conflict
    | none => return { s with outDir := some (← path value) }
  | .seed =>
    match s.seed with
    | some _ => .error .conflict
    | none =>
      match Text.word? value.toList with
      | some n => .ok { s with seed := some n }
      | none => .error .valueValidation

/-- Checks the pending argument. -/
def settle (s : Scan) : Except ArgumentFault Scan :=
  match s.pending with
  | none => .ok s
  | some (_, none) => .error .invalidValue
  | some (slot, some value) => { s with pending := none }.enter slot value

def awaitValue (s : Scan) (slot : Slot) : Except ArgumentFault Scan := do
  return { ← s.settle with pending := some (slot, none) }

def attach (s : Scan) (slot : Slot) (value : String) : Except ArgumentFault Scan := do
  (← s.settle).enter slot value

def turnOn (s : Scan) (switch : Switch) : Except ArgumentFault Scan := do
  let s ← s.settle
  match switch with
  | .help => throw .help
  | .version => throw .version
  | _ =>
    if switch ∈ s.switches then throw .conflict
    else return { s with switches := s.switches ++ [switch] }

/-- An argument that begins with two dashes, without these. -/
def long (s : Scan) (body : List Char) : Except ArgumentFault Scan :=
  let name := String.ofList (body.takeWhile (· != '='))
  let value? := match body.dropWhile (· != '=') with
    | _ :: value => some (String.ofList value)
    | [] => none
  match longName? name, value? with
  | none, _ => .error .unknown
  | some (.slot slot), some value => s.attach slot value
  | some (.slot slot), none => s.awaitValue slot
  | some (.switch _), some _ => .error .tooManyValues
  | some (.switch switch), none => s.turnOn switch

/-- Switches written together behind one dash, the last of which may be an option and its value. -/
def short (s : Scan) : List Char → Except ArgumentFault Scan
  | [] => .ok s
  | c :: cs =>
    match shortName? c, cs with
    | none, _ => .error .unknown
    | some (.switch switch), _ => do short (← s.turnOn switch) cs
    | some (.slot slot), [] => s.awaitValue slot
    | some (.slot slot), '=' :: value => s.attach slot (String.ofList value)
    | some (.slot slot), value => s.attach slot (String.ofList value)

def positional (s : Scan) (value : String) : Except ArgumentFault Scan :=
  let await (slot : Slot) : Except ArgumentFault Scan := do
    return { ← s.settle with pending := some (slot, some value), positionals := s.positionals + 1 }
  match s.positionals with
  | 0 => await .circuit
  | 1 => await .inputs
  | _ => .error .unknown

/-- An argument before `--`. A lone dash is a value. -/
def argument (s : Scan) (arg : String) : Except ArgumentFault Scan :=
  match arg.toList with
  | '-' :: '-' :: body => s.long body
  | '-' :: c :: cs => s.short (c :: cs)
  | _ =>
    match s.pending with
    | some (slot, none) => .ok { s with pending := some (slot, some arg) }
    | _ => s.positional arg

def arguments (s : Scan) : List String → Except ArgumentFault Scan
  | [] => s.settle
  | "--" :: rest => do (← rest.foldlM positional s).settle
  | arg :: rest => do arguments (← s.argument arg) rest

end Scan

/-- The options of a command line, without the program's name. A seed is only for proving. -/
def Options.parse (args : List String) : Except ArgumentFault Options := do
  let s ← Scan.start.arguments args
  match s.circuit, s.inputs with
  | some circuit, some inputs =>
    if s.seed.isSome && !s.switches.contains .prove then throw .missingRequired
    return ⟨circuit, inputs, s.outDir.getD ".", s.switches.contains .omitConstDiv,
      s.switches.contains .prove, s.seed, s.switches.contains .verbose⟩
  | _, _ => throw .missingRequired

end FieldCircuit.Command
