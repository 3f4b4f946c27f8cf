import FieldCircuit.Text.Split
import Std.Data.ExtTreeMap

/-!
# File trees

Files and directories around a working directory, as a value. Paths are walked component by
component: each step needs a directory, `.` stays and `..` goes up. Operations keep what they did
when a later one fails.
-/

namespace FieldCircuit.Command

inductive FileFault where
  | notFound
  | alreadyExists
  | notADirectory
  | isADirectory
  | nameTooLong
  | nulByte
  | invalidText
  | other (message : String)
deriving DecidableEq, Repr

def FileFault.message : FileFault → String
  | notFound => "No such file or directory (os error 2)"
  | alreadyExists => "File exists (os error 17)"
  | notADirectory => "Not a directory (os error 20)"
  | isADirectory => "Is a directory (os error 21)"
  | nameTooLong => "File name too long (os error 36)"
  | nulByte => "file name contained an unexpected NUL byte"
  | invalidText => "stream did not contain valid UTF-8"
  | other message => message

/-- A place in the tree: names down from the working directory, after as many `..` as it is above,
or names down from `/`. -/
abbrev Place := List String

inductive Entry where
  | file (bytes : List UInt8)
  | directory
deriving DecidableEq, Repr

/-- The entries by place; the working directory, those above it and `/` are always there. -/
structure FileTree where
  entries : Std.ExtTreeMap Place Entry
deriving DecidableEq

namespace FileTree

def empty : FileTree := ⟨∅⟩

/-- The working directory, a directory above it, or `/`. -/
def isFixed (place : Place) : Bool := place.all (· == "..") || place == ["/"]

def entry? (t : FileTree) (place : Place) : Option Entry :=
  if isFixed place then some .directory else t.entries[place]?

def isDirectory (t : FileTree) (place : Place) : Bool := t.entry? place == some .directory

def parent (place : Place) : Place :=
  if place == ["/"] then place
  else if isFixed place then place ++ [".."]
  else place.dropLast

/-- The components of a path as written, the first one `/` if the path starts there. -/
def components (path : String) : List String :=
  match (Text.pieces (· == '/') path.toList).map String.ofList with
  | "" :: name :: names => "/" :: name :: names
  | names => names

/-- One step down a path to something that is there. -/
def step (t : FileTree) (place : Place) (name : String) : Except FileFault Place :=
  if !t.isDirectory place then .error .notADirectory
  else if name == "" || name == "." then .ok place
  else if name == "/" then .ok ["/"]
  else if name == ".." then .ok (parent place)
  else if name.utf8ByteSize > 255 then .error .nameTooLong
  else if (t.entry? (place ++ [name])).isSome then .ok (place ++ [name])
  else .error .notFound

def walk (t : FileTree) (names : List String) : Except FileFault Place := names.foldlM t.step []

/-- The place that a path names in a directory that is there. A path that ends with `..`, `.` or `/`
has no name of its own and exists. -/
def locate (t : FileTree) (names : List String) : Except FileFault Place := do
  match (names.reverse.dropWhile (· == "")) with
  | [] => throw .alreadyExists
  | name :: above =>
    let place ← t.walk above.reverse
    if !t.isDirectory place then throw .notADirectory
    if name == "." || name == ".." || name == "/" then throw .alreadyExists
    if name.utf8ByteSize > 255 then throw .nameTooLong
    return place ++ [name]

/-- Paths hold no zero character. -/
def checkPath (path : String) : Except FileFault (List String) :=
  if path.toList.contains (Char.ofNat 0) then .error .nulByte
  else if path.utf8ByteSize ≥ 4096 then .error .nameTooLong
  else .ok (components path)

/-- The text of a file; an empty path names none. -/
def readText (t : FileTree) (path : String) : Except FileFault String := do
  if path.isEmpty then throw .notFound
  let place ← t.walk (← checkPath path)
  match t.entry? place with
  | some (.file bytes) =>
    match String.fromUTF8? ⟨bytes.toArray⟩ with
    | some text => return text
    | none => throw .invalidText
  | some .directory => throw .isADirectory
  | none => throw .notFound

/-- Operations that change the tree. -/
abbrev Files := EStateM FileFault FileTree

def put (place : Place) (entry : Entry) : Files Unit :=
  modify fun t => ⟨t.entries.insert place entry⟩

def makeDirectory (names : List String) : Files Unit := do
  let t ← get
  let place ← liftExcept (t.locate names)
  if (t.entry? place).isSome then throw .alreadyExists
  put place .directory

/-- A path that names a directory. -/
def isDirectoryPath (t : FileTree) (names : List String) : Bool :=
  match t.walk names with
  | .ok place => t.isDirectory place
  | .error _ => false

/-- Makes a directory, and first what `makeAbove` makes if something above it is missing. A
directory that is there is fine. -/
def makeWith (makeAbove : Files Unit) (names : List String) : Files Unit := fun t =>
  match makeDirectory names t with
  | .ok () t' => .ok () t'
  | .error .notFound t' =>
    match makeAbove t' with
    | .error fault t' => .error fault t'
    | .ok () t' =>
      match makeDirectory names t' with
      | .ok () t' => .ok () t'
      | .error fault t' => if t'.isDirectoryPath names then .ok () t' else .error fault t'
  | .error fault t' => if t'.isDirectoryPath names then .ok () t' else .error fault t'

/-- Makes a directory and those above it; the names are given from the last one up. -/
def makeAll : List String → Files Unit
  | [] => pure ()
  | name :: above => makeWith (makeAll above) (name :: above).reverse

/-- The components that count: no empty one, and `.` only in front. -/
def plain (names : List String) : List String :=
  match names with
  | [] => []
  | first :: rest =>
    (if first == "" then [] else [first]) ++ rest.filter fun name => name != "" && name != "."

/-- Makes the directory of a path and those above it as far as they are missing. -/
def makeDirectories (path : String) : Files Unit := do
  let names ← liftExcept (checkPath path)
  makeWith (makeAll (plain names).dropLast.reverse) names

def writeFile (path : String) (bytes : List UInt8) : Files Unit := do
  let t ← get
  let names ← liftExcept (checkPath path)
  match t.locate names with
  | .error .alreadyExists => throw .isADirectory
  | .error fault => throw fault
  | .ok place =>
    match t.entry? place with
    | some .directory => throw .isADirectory
    | _ => put place (.file bytes)

/-- Writes a file into a directory that is made if it is missing. -/
def addFile (path : String) (bytes : List UInt8) : Files Unit := do
  makeAll (plain (components path)).dropLast.reverse
  writeFile path bytes

/-- A path with a name added, behind a `/` unless the path is empty or ends with one. -/
def join (path name : String) : String :=
  match path.toList.getLast? with
  | none | some '/' => path ++ name
  | some _ => path ++ "/" ++ name

end FileTree

end FieldCircuit.Command
