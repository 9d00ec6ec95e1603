import WhileAsm.Lowering.Stmt

/-!
# Code for programs

A listing has the code of the program between the saving and the restoring of the base pointer, then
the formats and one cell for each variable that the code refers to.
-/

namespace WhileAsm

open Asm (Line Target)

namespace Lowering.Gen

/-- The code around the block of a program. -/
def programBody (t : Target) (p : Program) : Gen Unit := do
  line (.global t.entryPoint)
  line .textSection
  line (.label t.entryPoint)
  instr (.push t.basePointer)
  blockOf t p.block
  instr (.pop t.basePointer)
  instr .ret

/-- The data section: the formats, then the cells in the order of first use. -/
def dataLines (t : Target) (used : List String) : List Line :=
  [.dataSection, .readFormat t.readFormat, .writeFormat t.writeFormat] ++ used.map .cell

def dataSection (t : Target) : Gen Unit :=
  modify fun s => { s with lines := s.lines ++ dataLines t s.used }

/-- The listing of a program as text. A session starts anew with each program. -/
def program (t : Target) (p : Option Program) : Gen String := do
  restart t
  match p with
  | none => reject .program
  | some p =>
    report .generating
    programBody t p
    dataSection t
    let s ← get
    report (.generated s.lines.size s.used.length s.labels)
    return Asm.listingText s.lines.toList

end Lowering.Gen

/-- The assembly text of a program, or why there is none. -/
def generate (t : Target) (p : Option Program) : Except Lowering.GenError String :=
  match (Lowering.Gen.program t p).run (.start t) with
  | .ok text _ => .ok text
  | .error e _ => .error e

end WhileAsm
