import WhileAsm.Text.Quoted
import WhileAsm.Tree.Kind

/-!
# Structure dumps

The complete form of a tree: every node with its kind and all of its fields, positions included, and
at every reference the declaration that it means. Where a node lies in memory is left open, and `PTR`
stands for it.
-/

namespace WhileAsm

/-- A value with the name of its type. -/
inductive Dump where
  | value (type text : String)
  /-- A place for a node that is empty. -/
  | absent (type : String)
  | node (type : String) (fields : List (String × Dump))
  | list (type : String) (items : List Dump)
  deriving Inhabited

namespace Dump

/-- The start of a line, one blank for each level. -/
def indent (level : Nat) : String := String.ofList (List.replicate level ' ')

mutual

/-- The text of a dump, whose first line is already begun. -/
def text (level : Nat) : Dump → String
  | .value type text => "(" ++ type ++ ") " ++ text
  | .absent type => "(" ++ type ++ ")(<nil>)"
  | .node type fields =>
    "(" ++ type ++ ")(PTR)(\x7b\n" ++ fieldsText (level + 1) fields ++ indent level ++ "\x7d)"
  | .list type [] => "(" ++ type ++ ") <nil>"
  | .list type items =>
    "(" ++ type ++ ") (len=" ++ toString items.length ++ ") \x7b\n"
      ++ itemsText (level + 1) items ++ indent level ++ "\x7d"

def fieldsText (level : Nat) : List (String × Dump) → String
  | [] => ""
  | (name, d) :: rest =>
    indent level ++ name ++ ": " ++ text level d ++ (if rest.isEmpty then "\n" else ",\n")
      ++ fieldsText level rest

def itemsText (level : Nat) : List Dump → String
  | [] => ""
  | d :: rest =>
    indent level ++ text level d ++ (if rest.isEmpty then "\n" else ",\n")
      ++ itemsText level rest

end

def ofString (s : String) : Dump :=
  let size := s.utf8ByteSize
  .value "string" ((if size = 0 then "" else "(len=" ++ toString size ++ ") ") ++ Text.quote s)

def ofPosition (p : Position) : Dump := .value "ast.Position" p.text

def ofDecl (d : Decl) : Dump :=
  .node StmtKind.decl.text [
    ("Name", ofString d.name),
    ("Type", .value "ast.Type" d.type.text),
    ("Pos", ofPosition d.pos)]

def ofVarRef (r : VarRef) : Dump :=
  .node ExprKind.var.text [
    ("Name", ofString r.name),
    ("Referent", match r.referent with
      | some d => ofDecl d
      | none => .absent StmtKind.decl.text),
    ("Pos", ofPosition r.pos)]

def ofVarRef? : Option VarRef → Dump
  | some r => ofVarRef r
  | none => .absent ExprKind.var.text

def ofExpr : Expr → Dump
  | .int p v =>
    .node ExprKind.int.text [("Value", .value "int64" (toString v.toInt)), ("Pos", ofPosition p)]
  | .bool p v =>
    .node ExprKind.bool.text [
      ("Value", .value "bool" (if v then "true" else "false")), ("Pos", ofPosition p)]
  | .var r => ofVarRef r
  | .unary p op x =>
    .node ExprKind.unary.text [
      ("Op", .value "ast.UnaryOp" op.text), ("Operand", ofExpr x), ("Pos", ofPosition p)]
  | .binary p op l r =>
    .node ExprKind.binary.text [
      ("Op", .value "ast.BinaryOp" op.text), ("Left", ofExpr l), ("Right", ofExpr r),
      ("Pos", ofPosition p)]
  | .gap (.emptyOf k) => .absent k.text
  | .gap g => .value "ast.Expr" (exprGapText g)

mutual

def ofStmt : Stmt → Dump
  | .block b => ofBlock b
  | .decl d => ofDecl d
  | .assign p target source =>
    .node StmtKind.assign.text [
      ("Target", ofVarRef? target), ("Source", ofExpr source), ("Pos", ofPosition p)]
  | .read p vars =>
    .node StmtKind.read.text [
      ("Vars", .list "[]*ast.VarRef" (vars.map ofVarRef?)), ("Pos", ofPosition p)]
  | .write p exprs =>
    .node StmtKind.write.text [
      ("Exprs", .list "[]ast.Expr" (exprs.map ofExpr)), ("Pos", ofPosition p)]
  | .loop p cond body =>
    .node StmtKind.loop.text [
      ("Cond", ofExpr cond), ("Body", ofBlock? body), ("Pos", ofPosition p)]
  | .gap (.emptyOf k) => .absent k.text
  | .gap g => .value "ast.Stmt" (stmtGapText g)

def ofBlock : Block → Dump
  | .mk p ss =>
    .node StmtKind.block.text [("Stmts", .list "[]ast.Stmt" (ofStmts ss)), ("Pos", ofPosition p)]

def ofBlock? : Option Block → Dump
  | some b => ofBlock b
  | none => .absent StmtKind.block.text

def ofStmts : List Stmt → List Dump
  | [] => []
  | s :: ss => ofStmt s :: ofStmts ss

end

def ofProgram (p : Program) : Dump :=
  .node "*ast.Program" [("Block", ofBlock? p.block), ("Pos", ofPosition p.pos)]

end Dump

/-- The structure dump of a program. -/
def Program.dump (p : Program) : String := (Dump.ofProgram p).text 0 ++ "\n"

end WhileAsm
