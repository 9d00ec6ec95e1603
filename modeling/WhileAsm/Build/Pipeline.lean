import WhileAsm.Build.Host
import WhileAsm.Lowering.Program

/-!
# Builds

A build generates the listing of a program, writes it to a file of its own directory and, unless
told otherwise, assembles and links it. Nothing is written if there is no listing, and a missing tool
is no error: the build ends with the listing and says what is missing.
-/

namespace WhileAsm.Build

open Asm (Target)
open Journal (Event)
open Lowering (GenError)

structure Options where
  target : Target := .host
  /-- The directory of all builds; the default stands for an empty text. -/
  dir : String := "build"
  /-- The name of the files; the default stands for an empty text. -/
  name : String := "output"
  /-- Ends the build with the listing. -/
  asmOnly : Bool := false
  /-- Ends the build with the object file. -/
  skipLink : Bool := false
  deriving Repr, Inhabited

namespace Options

/-- A text, or another one if it is empty. -/
def nonEmpty (text fallback : String) : String := if text = "" then fallback else text

/-- The characters that a file name must not hold. -/
def isSeparator (c : Char) : Bool := c == '.' || c == ' ' || c == '/' || c == '\\'

/-- The name of the files: one piece without an extension, whatever was asked for. -/
def fileName (o : Options) : String :=
  (nonEmpty o.name "output").map fun c => if isSeparator c then '_' else c

/-- The directory of the files: one for each platform. -/
def fileDir (o : Options) : String :=
  Location.join (nonEmpty o.dir "build") (o.target.os.text ++ "_x86_64")

def files (o : Options) : Files := .inside o.fileDir o.fileName

end Options

/-- What a build has made; a file that was not made has an empty name. -/
structure Artifacts where
  asm : String
  object : String := ""
  executable : String := ""
  warnings : List String := []
  deriving DecidableEq, Repr, Inhabited

inductive BuildError where
  | directory (dir : String) (e : FileError)
  | generation (e : GenError)
  | assembly (e : FileError)
  /-- A tool failed; what was made before it remains. -/
  | stage (s : Stage) (f : ToolFailure) (made : Artifacts)
  deriving Repr, Inhabited

namespace BuildError

def message : BuildError → String
  | .directory dir e => "cannot create build directory " ++ dir ++ ": " ++ e.message
  | .generation e => "code generation failed: " ++ e.message
  | .assembly e => "cannot write assembly file: " ++ e.message
  | .stage s f _ => s.failureText ++ ": " ++ s.text ++ " failed: " ++ f.message

/-- What a failed build has made. -/
def made? : BuildError → Option Artifacts
  | .stage _ _ made => some made
  | _ => none

end BuildError

/-- The warnings of a build that has no tools. -/
def missingWarnings (missing : List String) (asm : String) : List String := [
  "missing toolchain components: " ++ ", ".intercalate missing,
  "assembly file was written to " ++ asm ++ "; assemble and link manually"]

section

variable {m : Type → Type} [Monad m] [Host m] (report : Event → m Unit)

def reportAll : List Event → m Unit
  | [] => return
  | e :: es => do
    report e
    reportAll es

/-- Runs the tool of a stage. A stage without arguments is left out. -/
def runStage (t : Target) (f : Files) (s : Stage) : m (Except ToolFailure Unit) := do
  let args := s.args t f
  if args.isEmpty then return .ok ()
  else
    report (.running s.text (" ".intercalate (s.tool :: args)))
    Host.runTool s.tool args

/-- The listing of a program, with what was reported on the way. -/
def listing (t : Target) (p : Option Program) : m (Except GenError String) := do
  match (Lowering.Gen.program t p).run (.start t) with
  | .ok text s =>
    reportAll report s.events.toList
    return .ok text
  | .error e s =>
    reportAll report s.events.toList
    return .error e

/-- Renames the symbols of an object file and links it. -/
def linkObject (o : Options) (made : Artifacts) : m (Except BuildError Artifacts) := do
  match ← runStage report o.target o.files .rename with
  | .error f => return .error (.stage .rename f made)
  | .ok () =>
    report .linking
    match ← runStage report o.target o.files .link with
    | .error f => return .error (.stage .link f made)
    | .ok () =>
      report (.executableWritten o.files.executable)
      return .ok { made with executable := o.files.executable }

/-- Makes an executable from a listing, as far as the options and the tools allow. -/
def assembleAndLink (o : Options) (made : Artifacts) : m (Except BuildError Artifacts) := do
  let missing ← missingTools (Stage.needed o.target)
  if !missing.isEmpty then
    report (.toolsMissing missing)
    return .ok { made with warnings := missingWarnings missing made.asm }
  else
    report .assembling
    match ← runStage report o.target o.files .assemble with
    | .error f => return .error (.stage .assemble f made)
    | .ok () =>
      let made := { made with object := o.files.object }
      if o.skipLink then return .ok made else linkObject report o made

/-- Builds a program. -/
def build (o : Options) (p : Option Program) : m (Except BuildError Artifacts) := do
  match ← makeDirs o.fileDir with
  | .error e => return .error (.directory o.fileDir e)
  | .ok () =>
    report (.generatingAssembly o.target.os.text)
    match ← listing report o.target p with
    | .error e => return .error (.generation e)
    | .ok text =>
      match ← Host.writeFile o.files.asm text with
      | .error e => return .error (.assembly e)
      | .ok () =>
        report (.assemblyWritten o.files.asm)
        let made : Artifacts := { asm := o.files.asm }
        if o.asmOnly then return .ok made else assembleAndLink report o made

end

end WhileAsm.Build
