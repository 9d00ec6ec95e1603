import WhileAsm.Tree.Basic

/-!
# Outlines

The readable form of a tree: one line for each statement, indented by depth, and expressions on one
line with every operation in parentheses.
-/

namespace WhileAsm

def Gap.exprText {κ : Type} : Gap κ → String
  | .foreign => "<unknown expr>"
  | _ => "<nil>"

def Gap.stmtText {κ : Type} : Gap κ → String
  | .foreign => "<unknown stmt>"
  | _ => "<nil>"

/-- An expression on one line. Every operation is in parentheses, so the text shows its shape. -/
def Expr.text : Expr → String
  | .int _ v => toString v.toInt
  | .bool _ true => "true"
  | .bool _ false => "false"
  | .var r => r.name
  | .unary _ .not x => "(not " ++ x.text ++ ")"
  | .unary _ op x => "(" ++ op.text ++ x.text ++ ")"
  | .binary _ op l r => "(" ++ l.text ++ " " ++ op.text ++ " " ++ r.text ++ ")"
  | .gap g => g.exprText

def VarRef.textOf : Option VarRef → String
  | some r => r.name
  | none => "<nil>"

/-- One line of an outline, two blanks for each level. -/
def outlineLine (level : Nat) (text : String) : String :=
  String.ofList (List.replicate (2 * level) ' ') ++ text ++ "\n"

mutual

def Stmt.outline (level : Nat) : Stmt → String
  | .block b => b.outline level
  | .decl d => outlineLine level ("VarDecl " ++ d.name ++ ": " ++ d.type.text)
  | .assign _ target source =>
    outlineLine level ("Assign " ++ VarRef.textOf target ++ " := " ++ source.text)
  | .read _ vars => outlineLine level ("Read " ++ ", ".intercalate (vars.map VarRef.textOf))
  | .write _ exprs => outlineLine level ("Write " ++ ", ".intercalate (exprs.map Expr.text))
  | .loop _ cond (some body) =>
    outlineLine level ("While (" ++ cond.text ++ ")") ++ body.outline (level + 1)
  | .loop _ cond none =>
    outlineLine level ("While (" ++ cond.text ++ ")") ++ outlineLine (level + 1) "<nil>"
  | .gap g => outlineLine level g.stmtText

def Block.outline (level : Nat) : Block → String
  | .mk _ ss =>
    outlineLine level ("Block [" ++ toString ss.length ++ " statements]")
      ++ Stmt.outlineAll (level + 1) ss

def Stmt.outlineAll (level : Nat) : List Stmt → String
  | [] => ""
  | s :: ss => s.outline level ++ Stmt.outlineAll level ss

end

/-- The outline of a program; an absent program or block leaves only the heading. -/
def Program.outline (p : Option Program) : String :=
  outlineLine 0 "Program" ++
    match p.bind Program.block with
    | some b => b.outline 1
    | none => ""

end WhileAsm
