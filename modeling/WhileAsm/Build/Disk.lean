import WhileAsm.Build.Host

/-!
# Disks

A tree of directories and files, kept as the places that are taken. A location is followed piece by
piece from the root or from the working directory; each piece must lie in a directory.
-/

namespace WhileAsm.Build

/-- The names from the root to something. -/
abbrev Place := List String

inductive Entry where
  | directory
  | file (content : String)
  deriving DecidableEq, Repr, Inhabited

structure Disk where
  /-- What there is below the root. -/
  entries : List (Place × Entry)
  /-- Where locations start that do not start at the root. -/
  workDir : Place
  deriving Repr, Inhabited

namespace Disk

/-- A disk that holds nothing but the working directory. -/
def ofWorkDir (workDir : Place) : Disk where
  entries := (List.range workDir.length).map fun i => (workDir.take (i + 1), .directory)
  workDir := workDir

/-- What there is at a place. -/
def entry? (d : Disk) (p : Place) : Option Entry :=
  if p = [] then some .directory else (d.entries.find? (·.1 == p)).map (·.2)

/-- Puts something at a place, whatever was there before. -/
def put (d : Disk) (p : Place) (e : Entry) : Disk :=
  { d with entries := d.entries.filter (·.1 != p) ++ [(p, e)] }

/-- The longest name and the longest location, in bytes. -/
def maxName : Nat := 255

def maxPath : Nat := 4095

/-- Follows one piece of a location. -/
def follow (d : Disk) (p : Place) (piece : String) : Except FileCause Place :=
  match d.entry? p with
  | none => .error .notFound
  | some (.file _) => .error .notDirectory
  | some .directory =>
    if piece = "" ∨ piece = "." then .ok p
    else if piece = ".." then .ok p.dropLast
    else if piece.utf8ByteSize > maxName then .error .nameTooLong
    else .ok (p ++ [piece])

/-- The place of a location; only the last piece may be missing. -/
def place (d : Disk) (path : String) : Except FileCause Place :=
  if path.toList.contains '\x00' then .error .invalid
  else if path = "" then .error .notFound
  else if path.utf8ByteSize > maxPath then .error .nameTooLong
  else
    let start := if Location.isRooted path.toList then [] else d.workDir
    ((Location.pieces path.toList).map String.ofList).foldlM d.follow start

/-- What there is at a location. -/
def find (d : Disk) (path : String) : Except FileCause (Place × Entry) := do
  let p ← d.place path
  match d.entry? p with
  | some e => return (p, e)
  | none => throw .notFound

def isDirectory (d : Disk) (path : String) : Except FileCause Bool := do
  let (_, e) ← d.find path
  return e == .directory

def makeDir (d : Disk) (path : String) : Except FileError Disk :=
  match d.place path with
  | .error cause => .error ⟨.makeDir, path, cause⟩
  | .ok p =>
    match d.entry? p with
    | some _ => .error ⟨.makeDir, path, .taken⟩
    | none => .ok (d.put p .directory)

def writeFile (d : Disk) (path content : String) : Except FileError Disk :=
  match d.place path with
  | .error cause => .error ⟨.openFile, path, cause⟩
  | .ok p =>
    match d.entry? p with
    | some .directory => .error ⟨.openFile, path, .isDirectory⟩
    | _ => .ok (d.put p (.file content))

/-- The content of a file. A directory can be opened and not be read. -/
def readFile (d : Disk) (path : String) : Except FileError String :=
  match d.find path with
  | .error cause => .error ⟨.openFile, path, cause⟩
  | .ok (_, .directory) => .error ⟨.readFile, path, .isDirectory⟩
  | .ok (_, .file content) => .ok content

/-- What there is below the working directory, by its place there. -/
def contents (d : Disk) : List (Place × Entry) :=
  d.entries.filterMap fun (p, e) =>
    if d.workDir.isPrefixOf p ∧ p ≠ d.workDir then some (p.drop d.workDir.length, e) else none

end Disk

end WhileAsm.Build
