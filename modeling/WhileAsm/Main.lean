import WhileAsm.Command.Run

/-!
# The program

Runs the command on the files of this machine. It starts no other programs: the assembler and the
linker count as missing, so a build ends with its listing.
-/

namespace WhileAsm.Main

open Build (FileAction FileCause FileError)

/-- Why the system refused a file operation. -/
def fileCause : IO.Error → FileCause
  | .noFileOrDirectory _ _ _ => .notFound
  | .noSuchThing _ _ _ => .notFound
  | .alreadyExists _ _ _ => .taken
  | .invalidArgument _ _ _ => .invalid
  | .inappropriateType _ 20 _ => .notDirectory
  | .inappropriateType _ 21 _ => .isDirectory
  | .inappropriateType _ _ _ => .notDirectory
  | .permissionDenied _ _ _ => .other "permission denied"
  | e => .other e.toString

/-- Runs a file operation and names it if it fails. -/
def attempt {α : Type} (action : FileAction) (path : String) (run : IO α) :
    IO (Except FileError α) := do
  match ← run.toBaseIO with
  | .ok a => return .ok a
  | .error e => return .error ⟨action, path, fileCause e⟩

/-- Whether something is a directory, or why there is nothing. -/
def isDirectory (path : String) : IO (Except FileCause Bool) := do
  let look : IO Bool := do
    let real ← IO.FS.realPath path
    return (← real.metadata).type == .dir
  match ← look.toBaseIO with
  | .ok answer => return .ok answer
  | .error e => return .error (fileCause e)

/-- The bytes of a file. A directory can be opened and not be read. -/
def readFile (path : String) : IO (Except FileError ByteArray) := do
  match ← attempt .openFile path (IO.FS.Handle.mk path .read) with
  | .error e => return .error e
  | .ok h => attempt .readFile path h.readBinToEnd

instance : Build.Host IO where
  isDirectory := isDirectory
  makeDir path := attempt .makeDir path (IO.FS.createDir path)
  writeFile path content := attempt .openFile path (IO.FS.writeFile path content)
  readFile := readFile
  hasTool _ := return false
  runTool name _ := return .error ⟨127, name ++ ": not found\n"⟩
  printOut := IO.print
  printError := IO.eprint

end WhileAsm.Main

def main (args : List String) : IO UInt32 := do
  let code : Nat ← WhileAsm.Command.run args
  return code.toUInt32
