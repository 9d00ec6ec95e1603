import WhileAsm.Document.Fault
import WhileAsm.Text.Quoted

/-!
# Rejected documents

Why a document is no program, and where. A text may hold no document at all, be malformed, or hold a
document with a node that breaks a rule of the program format.
-/

namespace WhileAsm

/-- The rule of the program format that a node breaks. -/
inductive LoadProblem where
  | expectedBlock
  | expectedList
  | expectedDecl
  | unnamedDecl
  | unknownType (text : String)
  | redeclared (name : String)
  | expectedOneKey
  | unknownKey (key : String) (allowed : List String)
  | unknownStmt
  | unknownExpr
  | expectedAssign
  | incompleteAssign
  | expectedNames
  | expectedExprs
  | expectedLoop
  | incompleteLoop
  | expectedName
  | undeclared (name : String)
  | badInt (text : String)
  | badBool (text : String)
  | expectedUnary
  | incompleteUnary
  | unknownUnaryOp (text : String)
  | expectedBinary
  | incompleteBinary
  | unknownBinaryOp (text : String)
  deriving DecidableEq, Repr, Inhabited

def LoadProblem.text : LoadProblem → String
  | .expectedBlock => "expected a block mapping"
  | .expectedList => "expected a list"
  | .expectedDecl => "expected \x7bname, type\x7d"
  | .unnamedDecl => "declaration needs a name"
  | .unknownType t => "unknown type " ++ Text.quote t
  | .redeclared n => "variable " ++ Text.quote n ++ " already declared in this block"
  | .expectedOneKey => "expected a mapping with exactly one key"
  | .unknownKey k allowed =>
    "unknown key " ++ Text.quote k ++ " (expected one of " ++ ", ".intercalate allowed ++ ")"
  | .unknownStmt => "unknown statement kind"
  | .unknownExpr => "unknown expression kind"
  | .expectedAssign => "expected \x7btarget, source\x7d"
  | .incompleteAssign => "assignment needs a target and a source"
  | .expectedNames => "expected a list of variable names"
  | .expectedExprs => "expected a list of expressions"
  | .expectedLoop => "expected \x7bcondition, body\x7d"
  | .incompleteLoop => "while needs a condition and a body"
  | .expectedName => "expected a variable name"
  | .undeclared n => "undeclared variable " ++ Text.quote n
  | .badInt t => "bad integer literal " ++ Text.quote t
  | .badBool t => "bad boolean literal " ++ Text.quote t
  | .expectedUnary => "expected \x7bop, operand\x7d"
  | .incompleteUnary => "unary expression needs an op and an operand"
  | .unknownUnaryOp t => "unknown unary operator " ++ Text.quote t
  | .expectedBinary => "expected \x7bop, left, right\x7d"
  | .incompleteBinary => "binary expression needs an op, a left and a right"
  | .unknownBinaryOp t => "unknown binary operator " ++ Text.quote t

/-- A node that breaks a rule: its path, the position that is reported, and the rule. -/
structure LoadError where
  path : Path
  pos : Position
  problem : LoadProblem
  deriving DecidableEq, Repr, Inhabited

/-- A report of something at a path and a position. -/
def reportText (pos : Position) (path what : String) : String :=
  "line " ++ toString pos.line ++ ", col " ++ toString pos.column ++ ": " ++ path ++ ": " ++ what

def LoadError.message (e : LoadError) : String := reportText e.pos e.path.text e.problem.text

/-- Why a text gives no program. -/
inductive LoadFailure where
  | malformed (fault : Document.Fault)
  | noDocument
  | rejected (e : LoadError)
  deriving DecidableEq, Repr, Inhabited

def LoadFailure.message : LoadFailure → String
  | .malformed f => "decode program: " ++ f.message
  | .noDocument => "decode program: empty document"
  | .rejected e => e.message

end WhileAsm
