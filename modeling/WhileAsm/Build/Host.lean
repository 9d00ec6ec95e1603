import WhileAsm.Build.Toolchain

/-!
# Hosts

What a build asks of the place where it runs: files and directories, tools, and two channels for
text. A build is written against these requests alone.
-/

namespace WhileAsm.Build

/-- Why a file operation fails. -/
inductive FileCause where
  | notFound
  | notDirectory
  | isDirectory
  | taken
  | invalid
  | nameTooLong
  | other (text : String)
  deriving DecidableEq, Repr, Inhabited

def FileCause.text : FileCause → String
  | .notFound => "no such file or directory"
  | .notDirectory => "not a directory"
  | .isDirectory => "is a directory"
  | .taken => "file exists"
  | .invalid => "invalid argument"
  | .nameTooLong => "file name too long"
  | .other text => text

inductive FileAction where
  | openFile
  | readFile
  | makeDir
  deriving DecidableEq, Repr, Inhabited

def FileAction.text : FileAction → String
  | .openFile => "open"
  | .readFile => "read"
  | .makeDir => "mkdir"

/-- A file operation that failed. -/
structure FileError where
  action : FileAction
  path : String
  cause : FileCause
  deriving DecidableEq, Repr, Inhabited

def FileError.message (e : FileError) : String :=
  e.action.text ++ " " ++ e.path ++ ": " ++ e.cause.text

/-- How a tool ended that reported failure: its exit status and what it said. -/
structure ToolFailure where
  status : Nat
  complaint : String
  deriving DecidableEq, Repr, Inhabited

def ToolFailure.message (f : ToolFailure) : String :=
  "exit status " ++ toString f.status ++ "\n" ++ f.complaint

/-- A place where builds run. -/
class Host (m : Type → Type) where
  /-- Whether something is a directory, or why there is nothing. -/
  isDirectory : String → m (Except FileCause Bool)
  makeDir : String → m (Except FileError Unit)
  writeFile : String → String → m (Except FileError Unit)
  readFile : String → m (Except FileError ByteArray)
  hasTool : String → m Bool
  /-- Runs a tool. What it prints goes to the output channel. -/
  runTool : String → List String → m (Except ToolFailure Unit)
  printOut : String → m Unit
  printError : String → m Unit

/-- Makes the first of some directories, which lie inside each other, innermost first. -/
def makeAll {m : Type → Type} [Monad m] [Host m] : List String → m (Except FileError Unit)
  | [] => return .ok ()
  | dir :: around => do
    match ← Host.isDirectory dir with
    | .ok true => return .ok ()
    | .ok false => return .error ⟨.makeDir, dir, .notDirectory⟩
    | .error _ =>
      match ← makeAll around with
      | .error e => return .error e
      | .ok () => Host.makeDir dir

/-- Makes a directory and those around it, as far as they do not exist. -/
def makeDirs {m : Type → Type} [Monad m] [Host m] (dir : String) : m (Except FileError Unit) :=
  makeAll (Location.lineage dir)

/-- The needed tools that are missing, as they are reported. -/
def missingTools {m : Type → Type} [Monad m] [Host m] : List Stage → m (List String)
  | [] => return []
  | s :: ss => do
    let here ← Host.hasTool s.tool
    let rest ← missingTools ss
    return if here then rest else s.toolText :: rest

end WhileAsm.Build
