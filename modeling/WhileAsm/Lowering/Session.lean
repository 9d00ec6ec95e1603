import WhileAsm.Asm.Target
import WhileAsm.Lowering.Cells
import WhileAsm.Lowering.Error

/-!
# Sessions

The state of code generation: the register file, the cells and labels given out, the listing so far
and what was reported. A step that fails keeps what it did before it failed.

The names of cells are kept twice: by declaration in the name table, and in the order of first use
for the data section, with the set of those that are in that list.
-/

namespace WhileAsm.Lowering

open Asm (Instr Line Target)
open Journal (Event)

structure Session where
  registers : Registers
  names : NameTable := {}
  /-- The names of the cells in use, in the order of first use. -/
  used : List String := []
  /-- The set of the names in use. -/
  usedSet : List String := []
  /-- How many labels have been drawn. -/
  labels : Nat := 0
  lines : Array Line := #[]
  events : Array Event := #[]
  deriving Repr, Inhabited

/-- A session in which nothing has happened. -/
def Session.start (t : Target) : Session := { registers := .ofPool t.scratch }

/-- The cells of the declarations that were referred to. -/
abbrev Session.cells (s : Session) : CellNames := s.names.entries

/-- A step of code generation. -/
abbrev Gen := EStateM GenError Session

namespace Gen

def report (e : Event) : Gen Unit := modify fun s => { s with events := s.events.push e }

def line (l : Line) : Gen Unit := modify fun s => { s with lines := s.lines.push l }

def instr (i : Instr) : Gen Unit := line (.instr i)

def reject {α : Type} (what : Unknown) : Gen α := throw (.unknown what)

/-- Starts anew; what was reported remains. -/
def restart (t : Target) : Gen Unit :=
  modify fun s => { Session.start t with events := s.events }

/-- Puts the outcome of a step on the register file into effect. -/
def commit {α : Type} (step : Step α) : Gen α := do
  modify fun s => { s with
    registers := step.registers
    lines := s.lines ++ step.instrs.map Line.instr
    events := s.events ++ step.events }
  return step.result

def freeAll : Gen Unit := do commit (← get).registers.freeAll

/-- Where an instruction finds a value now. -/
def operand (v : Value) : Gen Asm.Operand := return (← get).registers.operand v

/-- Draws the next label. -/
def drawLabel : Gen String :=
  modifyGet fun s => (labelAt s.labels, { s with labels := s.labels + 1 })

/-- The name of the cell of a declaration. -/
def nameFor (place : Path) : Gen String :=
  modifyGet fun s =>
    let (storage, names) := s.names.nameFor place
    (storage, { s with names })

/-- Notes that a cell is in use, and reports it the first time. -/
def use (variableName storage : String) : Gen Unit := do
  unless storage ∈ (← get).usedSet do
    modify fun s => { s with
      usedSet := storage :: s.usedSet
      used := s.used ++ [storage] }
    report (.named variableName storage)

/-- The cell of a variable, which is in use from then on. -/
def cell (ref : Option VarRef) : Gen String := do
  match ref with
  | some ⟨name, some d, _⟩ =>
    let storage ← nameFor d.place
    use name storage
    return storage
  | _ => reject .reference

end Gen

end WhileAsm.Lowering
