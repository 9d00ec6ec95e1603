import WhileAsm.Lowering.Expr

/-!
# Code for statements

A declaration takes no code: a variable gets its cell when it is first referred to. Reading and
writing call a library routine for each variable or expression. A block gives all registers back
when it ends, and the body of a loop starts with an empty register file.
-/

namespace WhileAsm.Lowering

open Asm (Target)

namespace Gen

/-- Calls a library routine with a format. The return register tells it that no argument is in a
vector register. -/
def libraryCall (t : Target) (formatReg format function : String) : Gen Unit := do
  instr (.loadAddress format formatReg)
  instr (.clear t.returnReg)
  instr (.call function)

/-- Reads a number into a variable. -/
def readVar (t : Target) (ref : Option VarRef) : Gen Unit := do
  let c ← cell ref
  match t.argRegs with
  | formatReg :: valueReg :: _ =>
    instr (.moveAddress c valueReg)
    libraryCall t formatReg t.readFormat t.scanFunc
  | _ => throw .fewArguments

def readVars (t : Target) : List (Option VarRef) → Gen Unit
  | [] => return
  | ref :: refs => do
    readVar t ref
    readVars t refs

/-- Writes the value of an expression. -/
def writeExpr (t : Target) (e : Expr) : Gen Unit := do
  let v ← expr t e
  match t.argRegs with
  | formatReg :: valueReg :: _ =>
    instr (.move (← operand v) (.reg valueReg))
    libraryCall t formatReg t.writeFormat t.printFunc
  | _ => throw .fewArguments

def writeExprs (t : Target) : List Expr → Gen Unit
  | [] => return
  | e :: es => do
    writeExpr t e
    writeExprs t es

/-- The place that an assignment changes. -/
def assignTarget : Option VarRef → Gen String
  | some ref => cell (some ref)
  | none => reject (.expr (.emptyOf .var))

/-- A value that can be moved to memory. No instruction moves from memory to memory, so the contents
of a cell go through a register. -/
def stage (v : Value) : Gen Value :=
  match v with
  | .cell _ => return .reg (← load v)
  | _ => return v

/-- Assigns the value of an expression to a variable. -/
def assign (t : Target) (target : Option VarRef) (source : Expr) : Gen Unit := do
  let v ← expr t source
  let c ← assignTarget target
  let v ← stage v
  instr (.move (← operand v) (.mem c))

/-- Jumps if a value is zero. Constants cannot be compared, so one goes through a register. -/
def jumpIfFalse (v : Value) (label : String) : Gen Unit := do
  let v ← nonImmediate v
  instr (.compare 0 (← operand v))
  instr (.jumpIfEqual label)

mutual

def stmt (t : Target) : Stmt → Gen Unit
  | .block b => block t b
  | .decl _ => return
  | .assign _ target source => assign t target source
  | .read _ vars => readVars t vars
  | .write _ exprs => writeExprs t exprs
  | .loop _ cond body => do
    let top ← drawLabel
    let bottom ← drawLabel
    line (.label top)
    let v ← expr t cond
    jumpIfFalse v bottom
    freeAll
    blockOf t body
    instr (.jump top)
    line (.label bottom)
  | .gap g => reject (.stmt g)

def block (t : Target) : Block → Gen Unit
  | .mk _ ss => do
    stmts t ss
    freeAll

/-- The code of a block that may be missing. -/
def blockOf (t : Target) : Option Block → Gen Unit
  | some b => block t b
  | none => reject (.stmt (.emptyOf .block))

def stmts (t : Target) : List Stmt → Gen Unit
  | [] => return
  | s :: ss => do
    stmt t s
    stmts t ss

end

end Gen

end WhileAsm.Lowering
