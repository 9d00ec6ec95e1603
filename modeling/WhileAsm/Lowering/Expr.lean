import WhileAsm.Lowering.Allocator

/-!
# Code for expressions

The code of an expression leaves its value in the place that the generator answers: constants and
variables stay where they are, every operation has its result in a register of its own. Variables
live in memory, so a register that holds a part of an expression belongs to that part alone and may
be overwritten by the operation around it.
-/

namespace WhileAsm.Lowering

open Asm (ArithOp Instr Operand Target)

/-- The instruction of a unary operation on an operand. Truth values are zero and one, so one bit
negates them. -/
def unaryInstr? : UnaryOp → Option (Operand → Instr)
  | .neg => some .negate
  | .not => some (.arith .xor (.imm 1))
  | .other _ => none

/-- The instruction of a binary operation, division apart. -/
def arithOp? : BinaryOp → Option ArithOp
  | .add => some .add
  | .sub => some .sub
  | .mul => some .mul
  | .div => none
  | .other _ => none

namespace Gen

/-- A value in a register: one that is in a register already stays there. -/
def intoRegister (v : Value) : Gen Handle :=
  match v with
  | .reg h => return h
  | _ => load v

/-- Divides: the dividend is forced into its register, and the divisor is no constant. -/
def divide (t : Target) (left right : Value) : Gen Value := do
  let result ← bindTo t.dividendReg
  instr (.move (← operand left) (← operand (.reg result)))
  instr .signExtend
  let divisor ← nonImmediate right
  instr (.divide (← operand divisor))
  return .reg result

/-- The code of an expression. An operator is looked at before its operands, and the left operand
before the right one. -/
def expr (t : Target) : Expr → Gen Value
  | .int _ v => return .imm v
  | .bool _ true => return .imm 1
  | .bool _ false => return .imm 0
  | .var ref => return .cell (← cell (some ref))
  | .unary _ op x =>
    match unaryInstr? op with
    | none => reject (.unaryOp op)
    | some apply => do
      let v ← expr t x
      let result ← intoRegister v
      instr (apply (← operand (.reg result)))
      return .reg result
  | .binary _ .div l r => do
    let left ← expr t l
    let right ← expr t r
    divide t left right
  | .binary _ op l r =>
    match arithOp? op with
    | none => reject (.binaryOp op)
    | some arith => do
      let left ← expr t l
      let right ← expr t r
      let result ← intoRegister left
      instr (.arith arith (← operand right) (← operand (.reg result)))
      return .reg result
  | .gap g => reject (.expr g)

end Gen

end WhileAsm.Lowering
