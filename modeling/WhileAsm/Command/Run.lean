import WhileAsm.Build.Pipeline
import WhileAsm.Command.Flags
import WhileAsm.Journal.Record
import WhileAsm.Load.Program
import WhileAsm.Tree.Dump
import WhileAsm.Tree.Outline

/-!
# The command

Loads the program file, shows it if asked to, builds it and lists what was made. Messages and records
go to the error channel in the order in which things happen; details are shown only on request.
-/

namespace WhileAsm.Command

open Build (Artifacts FileError Host Options)
open Journal (Event)

section

variable {m : Type → Type} [Monad m] [Host m]

/-- Shows the record of an event, details only if they are wanted. -/
def report (verbose : Bool) (e : Event) : m Unit :=
  match e.level, verbose with
  | .debug, false => return
  | _, _ => Host.printError e.record

/-- Why a file gives no program. -/
inductive FileFailure where
  | file (e : FileError)
  | load (f : LoadFailure)
  deriving Repr, Inhabited

/-- Loads a program file. A file that can be opened and not be read counts as malformed. -/
def loadFile (path : String) : m (Except FileFailure Program) := do
  match ← Host.readFile path with
  | .ok bytes => return (load bytes).mapError .load
  | .error e =>
    if e.action = .readFile then
      return .error (.load (.malformed (.ofBytes (.unreadable e.message))))
    else return .error (.file e)

/-- The message for a file that gives no program. -/
def FileFailure.message (path : String) : FileFailure → String
  | .file e => "Error: " ++ e.message ++ "\n"
  | .load (.rejected e) => path ++ ": " ++ e.message ++ "\n"
  | .load f => "Error: " ++ f.message ++ "\n"

/-- A line of the list of artifacts; what was not made is left out. -/
def artifactLine (what path : String) : String :=
  if path = "" then "" else "  " ++ what ++ path ++ "\n"

/-- The list of what a build has made, and its warnings. -/
def artifactList (a : Artifacts) : String :=
  "Build artifacts:\n" ++ artifactLine "Assembly: " a.asm ++ artifactLine "Object:   " a.object
    ++ artifactLine "Binary:   " a.executable
    ++ (if a.warnings.isEmpty then "" else "\n")
    ++ String.join (a.warnings.map fun w => "  " ++ w ++ "\n")

/-- The build that the flags ask for. -/
def buildOptions (f : Flags) (path : String) : Options where
  dir := f.buildDir
  name := if f.output = "" then Build.Location.stem path else f.output
  asmOnly := f.asmOnly
  skipLink := f.skipLink

/-- Builds a loaded program. The result is the exit code. -/
def buildLoaded (f : Flags) (path : String) (p : Program) : m Nat := do
  if f.verbose then report f.verbose (.loaded (Program.outline (some p)))
  if f.dump then Host.printError p.dump
  match ← Build.build (report f.verbose) (buildOptions f path) (some p) with
  | .error e =>
    Host.printError ("Codegen error: " ++ e.message ++ "\n")
    return 1
  | .ok made =>
    Host.printOut (artifactList made)
    return 0

/-- Loads and builds the one program file. The result is the exit code. -/
def runOperands (f : Flags) : List String → m Nat
  | [path] => do
    report f.verbose (.loading path)
    match ← loadFile path with
    | .error e =>
      Host.printError (e.message path)
      return 1
    | .ok p => buildLoaded f path p
  | _ => do
    Host.printError usage
    return 1

/-- Runs the command with its arguments. The result is the exit code. -/
def run (args : List String) : m Nat := do
  match readFlags {} args with
  | .error e =>
    Host.printError e.message
    return e.exitCode
  | .ok (f, operands) =>
    let code ← runOperands f operands
    report f.verbose .exiting
    return code

end

end WhileAsm.Command
