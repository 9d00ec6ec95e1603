import WhileAsm.Asm.Target
import WhileAsm.Build.Location

/-!
# Tools and their arguments

An executable is made by an assembler and a linker. Listings spell the symbols of the C library with
a leading underscore, as one system wants it; on the others a third tool renames them in between.
-/

namespace WhileAsm.Build

open Asm (OS Target)

/-- The files of one build. -/
structure Files where
  asm : String
  object : String
  executable : String
  deriving DecidableEq, Repr, Inhabited

/-- The files of a build in a directory. -/
def Files.inside (dir name : String) : Files where
  asm := Location.join dir (name ++ Asm.asmExtension)
  object := Location.join dir (name ++ Asm.objectExtension)
  executable := Location.join dir (name ++ Asm.executableExtension)

/-- A symbol without its leading underscore. -/
def plainSymbol (symbol : String) : String :=
  match symbol.toList with
  | '_' :: rest => String.ofList rest
  | _ => symbol

inductive Stage where
  | assemble
  | rename
  | link
  deriving DecidableEq, Repr, Inhabited

namespace Stage

def text : Stage → String
  | .assemble => "assemble"
  | .rename => "rename symbols"
  | .link => "link"

/-- What a failure of the stage is called. -/
def failureText : Stage → String
  | .assemble => "assembly failed"
  | .rename => "symbol renaming failed"
  | .link => "linking failed"

/-- The program that a stage runs. -/
def tool : Stage → String
  | .assemble => "as"
  | .rename => "objcopy"
  | .link => "cc"

/-- What a tool is called in a list of missing ones. -/
def toolText : Stage → String
  | .assemble => "as (assembler)"
  | .rename => "objcopy (symbol renamer)"
  | .link => "cc (linker driver)"

/-- The arguments of the tool; a stage without any is left out. -/
def args (t : Target) (f : Files) : Stage → List String
  | .assemble =>
    match t.os with
    | .darwin => ["-arch", "x86_64", "-o", f.object, f.asm]
    | _ => ["--64", "-o", f.object, f.asm]
  | .rename =>
    match t.os with
    | .darwin => []
    | _ => [
        "--redefine-sym", t.entryPoint ++ "=" ++ plainSymbol t.entryPoint,
        "--redefine-sym", t.printFunc ++ "=" ++ plainSymbol t.printFunc,
        f.object]
  | .link =>
    match t.os with
    | .darwin => [
        "-arch", "x86_64", "-Wl,-no_pie", "-Wl,-alias,_scanf," ++ t.scanFunc,
        "-o", f.executable, f.object]
    | _ => ["-no-pie", "-o", f.executable, f.object]

/-- The stages whose tools a target needs, in the order in which missing ones are listed. -/
def needed (t : Target) : List Stage :=
  match t.os with
  | .darwin => [.assemble, .link]
  | _ => [.assemble, .link, .rename]

end Stage

end WhileAsm.Build
