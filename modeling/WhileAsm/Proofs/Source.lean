import Mathlib.Data.Stream.Defs
import Mathlib.Logic.Function.Basic
import WhileAsm.Tree.Basic

/-!
# What a program means

A program runs on a store with one 64-bit number for each declaration, all zero at the start, reads
from an endless input and writes to an output. Arithmetic wraps around; a division cuts off the
fraction and faults where its quotient does not exist. A run ends with a state or with a fault, or
it does not end.

Runs are computed up to a limit on the turns of a loop. A program ends (`Program.Ends`) or faults
(`Program.Faults`) if it does so under some limit.
-/

namespace WhileAsm

/-- What a program works on: the number of each declaration, the input that is left, and the output
so far. -/
structure State where
  store : Path → Int64
  input : Stream' Int64
  output : List Int64

namespace State

def start (input : Stream' Int64) : State := ⟨fun _ => 0, input, []⟩

def assign (σ : State) (place : Path) (v : Int64) : State :=
  { σ with store := Function.update σ.store place v }

/-- The next number of the input goes to a declaration. -/
def read (σ : State) (place : Path) : State :=
  { σ.assign place σ.input.head with input := σ.input.tail }

def write (σ : State) (v : Int64) : State := { σ with output := σ.output ++ [v] }

end State

/-! ## Expressions -/

/-- The quotient without its fraction. A zero divisor has none, and neither has the one division
whose quotient is too large. -/
def quotient? (a b : Int64) : Option Int64 :=
  if b = 0 ∨ a = Int64.minValue ∧ b = -1 then none else some (a / b)

def UnaryOp.result? : UnaryOp → Int64 → Option Int64
  | .neg, a => some (-a)
  | .not, a => some (a ^^^ 1)
  | .other _, _ => none

def BinaryOp.result? : BinaryOp → Int64 → Int64 → Option Int64
  | .add, a, b => some (a + b)
  | .sub, a, b => some (a - b)
  | .mul, a, b => some (a * b)
  | .div, a, b => quotient? a b
  | .other _, _, _ => none

/-- The value of an expression. There is none where a division faults, nor where the tree is not of
the language. -/
def Expr.value? (store : Path → Int64) : Expr → Option Int64
  | .int _ v => some v
  | .bool _ b => some (if b then 1 else 0)
  | .var ref => ref.referent.map fun d => store d.place
  | .unary _ op x => (x.value? store).bind op.result?
  | .binary _ op l r =>
    (l.value? store).bind fun a => (r.value? store).bind fun b => op.result? a b
  | .gap _ => none

/-! ## Statements -/

/-- How a run ends. A fault leaves the output so far. -/
inductive Outcome where
  | done (σ : State)
  | fault (output : List Int64)

namespace Outcome

/-- Goes on from where a run ended, unless it faulted or did not end. -/
def andThen : Option Outcome → (State → Option Outcome) → Option Outcome
  | some (.done σ), next => next σ
  | some (.fault out), _ => some (.fault out)
  | none, _ => none

/-- Goes on with a value, or faults where there is none. -/
def withValue (σ : State) : Option Int64 → (Int64 → Option Outcome) → Option Outcome
  | some v, next => next v
  | none, _ => some (.fault σ.output)

end Outcome

def readRun : List (Option VarRef) → State → Option Outcome
  | [], σ => some (.done σ)
  | some ⟨_, some d, _⟩ :: refs, σ => readRun refs (σ.read d.place)
  | _ :: _, _ => none

def writeRun : List Expr → State → Option Outcome
  | [], σ => some (.done σ)
  | e :: es, σ => Outcome.withValue σ (e.value? σ.store) fun v => writeRun es (σ.write v)

/-- A loop that may take `turns - 1` turns: its body runs while the condition is not zero. -/
def loopRun (cond : Expr) (body : State → Option Outcome) : ℕ → State → Option Outcome
  | 0, _ => none
  | turns + 1, σ =>
    Outcome.withValue σ (cond.value? σ.store) fun v =>
      if v = 0 then some (.done σ)
      else Outcome.andThen (body σ) (loopRun cond body turns)

mutual

/-- How a statement ends, if no loop in it takes more turns than the limit allows. What is not of
the language has no end. -/
def Stmt.run (limit : ℕ) : Stmt → State → Option Outcome
  | .block b, σ => b.run limit σ
  | .decl _, σ => some (.done σ)
  | .assign _ (some ⟨_, some d, _⟩) source, σ =>
    Outcome.withValue σ (source.value? σ.store) fun v => some (.done (σ.assign d.place v))
  | .assign _ _ _, _ => none
  | .read _ refs, σ => readRun refs σ
  | .write _ es, σ => writeRun es σ
  | .loop _ cond (some b), σ => loopRun cond (b.run limit) limit σ
  | .loop _ _ none, _ => none
  | .gap _, _ => none

def Block.run (limit : ℕ) : Block → State → Option Outcome
  | .mk _ ss, σ => Stmt.runAll limit ss σ

def Stmt.runAll (limit : ℕ) : List Stmt → State → Option Outcome
  | [], σ => some (.done σ)
  | s :: ss, σ => Outcome.andThen (s.run limit σ) (Stmt.runAll limit ss)

end

/-! ## References -/

/-- The declaration that a reference means, if it is there and resolved. -/
def VarRef.meant (ref : Option VarRef) : List Decl := (ref.bind (·.referent)).toList

/-- The declarations that an expression refers to, from left to right. -/
def Expr.refs : Expr → List Decl
  | .var ref => VarRef.meant (some ref)
  | .unary _ _ x => x.refs
  | .binary _ _ l r => l.refs ++ r.refs
  | _ => []

mutual

/-- The declarations that a statement refers to, in the order in which it uses them: an assignment
computes its value first. -/
def Stmt.refs : Stmt → List Decl
  | .block b => b.refs
  | .assign _ target source => source.refs ++ VarRef.meant target
  | .read _ refs => refs.flatMap VarRef.meant
  | .write _ es => es.flatMap Expr.refs
  | .loop _ cond (some b) => cond.refs ++ b.refs
  | .loop _ cond none => cond.refs
  | _ => []

def Block.refs : Block → List Decl
  | .mk _ ss => Stmt.refsOf ss

def Stmt.refsOf : List Stmt → List Decl
  | [] => []
  | s :: ss => s.refs ++ Stmt.refsOf ss

end

/-! ## Programs -/

namespace Program

def run (limit : ℕ) (p : Program) (input : Stream' Int64) : Option Outcome :=
  p.block.bind fun b => b.run limit (.start input)

/-- The program ends on an input, with an output and a store. -/
def Ends (p : Program) (input : Stream' Int64) (output : List Int64) (store : Path → Int64) :
    Prop :=
  ∃ limit σ, p.run limit input = some (.done σ) ∧ σ.output = output ∧ σ.store = store

def refs (p : Program) : List Decl := (p.block.map Block.refs).getD []

/-- The program faults on an input, after an output. -/
def Faults (p : Program) (input : Stream' Int64) (output : List Int64) : Prop :=
  ∃ limit, p.run limit input = some (.fault output)

end Program

end WhileAsm
