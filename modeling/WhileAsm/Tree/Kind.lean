import WhileAsm.Tree.Basic

/-!
# Names of kinds

What the kinds of nodes are called in messages and in structure dumps.
-/

namespace WhileAsm

def ExprKind.text : ExprKind → String
  | .int => "*ast.IntLit"
  | .bool => "*ast.BoolLit"
  | .var => "*ast.VarRef"
  | .unary => "*ast.Unary"
  | .binary => "*ast.Binary"

def StmtKind.text : StmtKind → String
  | .block => "*ast.Block"
  | .decl => "*ast.VarDecl"
  | .assign => "*ast.Assign"
  | .read => "*ast.Read"
  | .write => "*ast.Write"
  | .loop => "*ast.While"

/-- What stands in a gap where an expression should be. -/
def exprGapText : Gap ExprKind → String
  | .empty => "<nil>"
  | .emptyOf k => k.text
  | .foreign => "main.foreignExpr"

/-- What stands in a gap where a statement should be. -/
def stmtGapText : Gap StmtKind → String
  | .empty => "<nil>"
  | .emptyOf k => k.text
  | .foreign => "main.foreignStmt"

end WhileAsm
