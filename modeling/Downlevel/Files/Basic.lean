import Downlevel.Files.Path
import Downlevel.Text.Utf8

/-!
# `Files`: directories and files as a value

Files are kept in a table by their place below the working directory. A place that leads out of the
working directory starts with its root or with double dots; such directories are there, and hold nothing
but what has been written to them.

Every operation can fail with a cause that names the path it was given. Directories made before a failure
stay.
-/

namespace Downlevel.Files

open Text

/-! ## The table -/

/-- What stands at a place. -/
inductive Entry where
  | file (bytes : List UInt8)
  | directory
  deriving DecidableEq

/-- A place: the names from the working directory down to it. -/
abbrev Place := List String

/-- The files and directories, by place. -/
abbrev Table := List (Place × Entry)

/-- Is the place one that is always there: the working directory, one above it, or a root? -/
def Place.isOutside (p : Place) : Bool := p.all fun name => name == ".." || name == "/"

namespace Table

/-- What stands at a place. -/
def find? (t : Table) (p : Place) : Option Entry :=
  if p.isOutside then some .directory else (List.find? (fun e => e.1 == p) t).map (·.2)

/-- Puts an entry at a place, instead of what stood there. -/
def put (t : Table) (p : Place) (e : Entry) : Table := t.filter (·.1 != p) ++ [(p, e)]

/-- The files below the working directory, with the paths that name them. -/
def regular (t : Table) : List (String × List UInt8) :=
  t.filterMap fun (p, e) =>
    match e, p.head? with
    | .file bytes, some first =>
      if first == ".." || first == "/" then none else some (joinWith "/" p, bytes)
    | _, _ => none

end Table

/-! ## Failures -/

/-- Why an operation on files failed. -/
inductive FileProblem where
  | missing
  | present
  | notDirectory
  | isDirectory
  deriving DecidableEq

/-- The number and wording under which systems report a problem. -/
def FileProblem.text : FileProblem → String
  | .missing => "[Errno 2] No such file or directory"
  | .present => "[Errno 17] File exists"
  | .notDirectory => "[Errno 20] Not a directory"
  | .isDirectory => "[Errno 21] Is a directory"

/-- A failure, with the path it was about. -/
structure FileFault where
  problem : FileProblem
  path : String
  deriving DecidableEq

def FileFault.message (f : FileFault) : String :=
  let name := shown f.path
  s!"{f.problem.text}: {name}"

/-! ## Where paths lead -/

/-- The place one step on from a directory. -/
def step (p : Place) (name : String) : Place :=
  if name == ".." then
    match p.getLast? with
    | none | some ".." => p ++ [".."]
    | some "/" => p
    | some _ => p.dropLast
  else p ++ [name]

/-- Where names lead from a place. Every place on the way must be a directory. -/
def follow (t : Table) (p : Place) : List String → Except FileProblem Place
  | [] => .ok p
  | name :: rest =>
    match t.find? p with
    | none => .error .missing
    | some (.file _) => .error .notDirectory
    | some .directory => follow t (step p name) rest

/-- Where a path leads; nothing need stand there. -/
def place (t : Table) (path : Path) : Except FileProblem Place :=
  follow t (if path.root.isEmpty then [] else ["/"]) path.parts

/-- What a path names. -/
def entry? (t : Table) (path : Path) : Option Entry := (place t path).toOption.bind t.find?

/-- Does a path name a directory? -/
def isDirectory (t : Table) (path : Path) : Bool := entry? t path == some .directory

/-! ## Operations -/

/-- An operation on files. -/
abbrev Action := ExceptT FileFault (StateM Table)

/-- The bytes of a file. -/
def readBytes (t : Table) (path : Path) : Except FileFault (List UInt8) :=
  match place t path with
  | .error problem => .error ⟨problem, path.text⟩
  | .ok p =>
    match t.find? p with
    | none => .error ⟨.missing, path.text⟩
    | some .directory => .error ⟨.isDirectory, path.text⟩
    | some (.file bytes) => .ok bytes

/-- The table with a new directory, in a directory that is there. -/
def addDirectory (t : Table) (path : Path) : Except FileFault Table :=
  match place t path with
  | .error problem => .error ⟨problem, path.text⟩
  | .ok p =>
    match t.find? p with
    | some _ => .error ⟨.present, path.text⟩
    | none => .ok (t.put p .directory)

/-- Makes a directory unless it is there. -/
def makeDirectory (path : Path) : Action Unit := do
  let t ← get
  match addDirectory t path with
  | .ok t => set t
  | .error fault =>
    if fault.problem != .missing && isDirectory t path then return else throw fault

/-- Makes the directory whose last parts, the last one first, are given, and those above it that are
missing. -/
def makeAll (root : String) : List String → Action Unit
  | [] => pure ()
  | name :: above => do
      let path : Path := ⟨root, (name :: above).reverse⟩
      match addDirectory (← get) path with
      | .error ⟨.missing, _⟩ =>
        makeAll root above
        makeDirectory path
      | _ => makeDirectory path

/-- Makes a directory and those above it that are missing. -/
def makeDirectories (path : Path) : Action Unit := makeAll path.root path.parts.reverse

/-- Writes a file in a directory that is there, instead of what it held. -/
def writeBytes (path : Path) (bytes : List UInt8) : Action Unit := do
  let t ← get
  match place t path with
  | .error problem => throw ⟨problem, path.text⟩
  | .ok p =>
    match t.find? p with
    | some .directory => throw ⟨.isDirectory, path.text⟩
    | _ => set (t.put p (.file bytes))

/-- Writes a text to a file, and makes the directories above it that are missing. -/
def writeText (path : Path) (text : String) : Action Unit := do
  makeDirectories path.parent
  writeBytes path (encode text)

/-! ## Text files -/

/-- Why a text could not be read. -/
inductive ReadFault where
  | file (fault : FileFault)
  | bytes (fault : DecodeFault)
  deriving DecidableEq

def ReadFault.message : ReadFault → String
  | .file fault => fault.message
  | .bytes fault => fault.message

/-- The text of a file, with every line end as a line feed. -/
def readText (t : Table) (path : Path) : Except ReadFault String :=
  match readBytes t path with
  | .error fault => .error (.file fault)
  | .ok bytes =>
    match decode bytes with
    | .error fault => .error (.bytes fault)
    | .ok text => .ok (unixLines text)

end Downlevel.Files
