import WhileAsm.Build.Disk
import WhileAsm.Journal.Event

/-!
# Workplaces

A place where builds run that is all data: a disk, tools that say what they are told to say, and
what happened so far. A run of a build at a workplace is a function of the workplace.
-/

namespace WhileAsm.Build

/-- A program that prints fixed texts and ends with a fixed status. It makes no files. -/
structure Tool where
  status : UInt8 := 0
  output : String := ""
  complaint : String := ""
  /-- Whether the file of the program may be run. -/
  runnable : Bool := true
  deriving Repr, Inhabited

structure Workplace where
  disk : Disk
  tools : List (String × Tool) := []
  /-- The tools that were run, each with its arguments. -/
  calls : List (List String) := []
  out : String := ""
  err : String := ""
  events : List Journal.Event := []
  deriving Repr, Inhabited

namespace Workplace

/-- The tool with a name, if it may be run. -/
def tool? (w : Workplace) (name : String) : Option Tool :=
  ((w.tools.find? (·.1 == name)).map (·.2)).filter (·.runnable)

/-- Puts the outcome of a file operation into effect. -/
def update (w : Workplace) : Except FileError Disk → Except FileError Unit × Workplace
  | .ok d => (.ok (), { w with disk := d })
  | .error e => (.error e, w)

/-- Runs a tool; nothing can be run that is not there. -/
def runTool (w : Workplace) (name : String) (args : List String) :
    Except ToolFailure Unit × Workplace :=
  match w.tool? name with
  | none => (.error ⟨127, name ++ ": not found\n"⟩, w)
  | some t =>
    let w := { w with calls := w.calls ++ [name :: args], out := w.out ++ t.output }
    if t.status = 0 then (.ok (), w) else (.error ⟨t.status.toNat, t.complaint⟩, w)

/-- Keeps an event. -/
def keep (e : Journal.Event) : StateM Workplace Unit :=
  modify fun w => { w with events := w.events ++ [e] }

instance : Host (StateM Workplace) where
  isDirectory path := return (← get).disk.isDirectory path
  makeDir path := modifyGet fun w => w.update (w.disk.makeDir path)
  writeFile path content := modifyGet fun w => w.update (w.disk.writeFile path content)
  readFile path := return (← get).disk.readFile path |>.map String.toUTF8
  hasTool name := return ((← get).tool? name).isSome
  runTool name args := modifyGet fun w => w.runTool name args
  printOut text := modify fun w => { w with out := w.out ++ text }
  printError text := modify fun w => { w with err := w.err ++ text }

end Workplace

end WhileAsm.Build
