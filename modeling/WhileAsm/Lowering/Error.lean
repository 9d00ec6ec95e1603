import WhileAsm.Lowering.Registers
import WhileAsm.Tree.Kind

/-!
# Programs without code

Why no code is generated for a tree: a place of it is not of the language, or its expressions need
more registers than there are.
-/

namespace WhileAsm.Lowering

/-- A place of a tree that is not of the language. -/
inductive Unknown where
  | program
  | stmt (g : Gap StmtKind)
  | expr (g : Gap ExprKind)
  | reference
  | unaryOp (op : UnaryOp)
  | binaryOp (op : BinaryOp)
  deriving DecidableEq, Repr, Inhabited

def Unknown.text : Unknown → String
  | .program => "nil program"
  | .stmt g => "statement " ++ stmtGapText g
  | .expr g => "expression " ++ exprGapText g
  | .reference => "unresolved variable reference"
  | .unaryOp op => "unary operator " ++ op.text
  | .binaryOp op => "binary operator " ++ op.text

inductive GenError where
  | unknown (what : Unknown)
  | exhausted (e : Exhausted)
  /-- The target has fewer argument registers than a call takes. -/
  | fewArguments
  deriving DecidableEq, Repr, Inhabited

def GenError.message : GenError → String
  | .unknown what => "unknown node kind: " ++ what.text
  | .exhausted e => e.message
  | .fewArguments => "too few argument registers"

end WhileAsm.Lowering
