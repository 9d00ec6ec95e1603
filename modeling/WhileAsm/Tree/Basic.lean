import WhileAsm.Tree.Path

/-!
# Program trees

A program is a block of declarations and statements over 64-bit variables: assignments, reads,
writes, loops and nested blocks. Every reference to a variable carries the declaration it means.

A tree may also be incomplete. A `Gap` stands where a node should be and is not, a reference may
be unresolved, and an operator may be unknown; printers show such places, and code generation
refuses them.
-/

namespace WhileAsm

/-- A place in a text: line and column, both counted from one. -/
structure Position where
  line : Int
  column : Int
  deriving DecidableEq, Repr, Inhabited

def Position.text (p : Position) : String :=
  toString p.line ++ ":" ++ toString p.column

/-- The declared type of a variable. -/
inductive VarType where
  | int
  | bool
  | unknown
  deriving DecidableEq, Repr, Inhabited

namespace VarType

def ofCode : Int → VarType
  | 0 => .int
  | 1 => .bool
  | _ => .unknown

def text : VarType → String
  | .int => "int"
  | .bool => "bool"
  | .unknown => "unknown"

end VarType

/-- A declared variable. Two declarations are the same variable exactly if they stand at the same
place, whatever they are called. -/
structure Decl where
  place : Path
  name : String
  type : VarType
  pos : Position
  deriving DecidableEq, Repr, Inhabited

/-- A use of a variable, with the declaration it was resolved to. -/
structure VarRef where
  name : String
  referent : Option Decl
  pos : Position
  deriving DecidableEq, Repr, Inhabited

inductive UnaryOp where
  | neg
  | not
  | other (code : Int)
  deriving DecidableEq, Repr, Inhabited

namespace UnaryOp

def ofCode : Int → UnaryOp
  | 0 => .neg
  | 1 => .not
  | n => .other n

def text : UnaryOp → String
  | .neg => "-"
  | .not => "not"
  | .other n => "unop_" ++ toString n

end UnaryOp

inductive BinaryOp where
  | add
  | sub
  | mul
  | div
  | other (code : Int)
  deriving DecidableEq, Repr, Inhabited

namespace BinaryOp

def ofCode : Int → BinaryOp
  | 0 => .add
  | 1 => .sub
  | 2 => .mul
  | 3 => .div
  | n => .other n

def text : BinaryOp → String
  | .add => "+"
  | .sub => "-"
  | .mul => "*"
  | .div => "/"
  | .other n => "binop_" ++ toString n

end BinaryOp

/-- What a place of a tree holds in place of a node: nothing, nothing where one kind of node was
reserved, or something that is not of the language. -/
inductive Gap (κ : Type) where
  | empty
  | emptyOf (kind : κ)
  | foreign
  deriving DecidableEq, Repr, Inhabited

inductive ExprKind where
  | int
  | bool
  | var
  | unary
  | binary
  deriving DecidableEq, Repr, Inhabited

inductive StmtKind where
  | block
  | decl
  | assign
  | read
  | write
  | loop
  deriving DecidableEq, Repr, Inhabited

inductive Expr where
  | int (pos : Position) (value : Int64)
  | bool (pos : Position) (value : Bool)
  | var (ref : VarRef)
  | unary (pos : Position) (op : UnaryOp) (operand : Expr)
  | binary (pos : Position) (op : BinaryOp) (left right : Expr)
  | gap (g : Gap ExprKind)
  deriving Repr, Inhabited

mutual

inductive Stmt where
  | block (b : Block)
  | decl (d : Decl)
  | assign (pos : Position) (target : Option VarRef) (source : Expr)
  | read (pos : Position) (vars : List (Option VarRef))
  | write (pos : Position) (exprs : List Expr)
  | loop (pos : Position) (cond : Expr) (body : Option Block)
  | gap (g : Gap StmtKind)

/-- Declarations and statements that share one scope. -/
inductive Block where
  | mk (pos : Position) (stmts : List Stmt)

end

namespace Block

def pos : Block → Position
  | mk p _ => p

def stmts : Block → List Stmt
  | mk _ ss => ss

end Block

instance : Inhabited Stmt := ⟨.gap .empty⟩

instance : Inhabited Block := ⟨.mk default []⟩

structure Program where
  pos : Position
  block : Option Block
  deriving Inhabited

/-! ## Declarations in tree order -/

mutual

/-- The declarations of a statement, outermost and leftmost first. -/
def Stmt.decls : Stmt → List Decl
  | .block b => b.decls
  | .decl d => [d]
  | .loop _ _ (some b) => b.decls
  | _ => []

def Block.decls : Block → List Decl
  | .mk _ ss => Stmt.declsOf ss

def Stmt.declsOf : List Stmt → List Decl
  | [] => []
  | s :: ss => s.decls ++ Stmt.declsOf ss

end

end WhileAsm
