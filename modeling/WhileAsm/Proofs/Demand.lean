import Mathlib.Algebra.GroupWithZero.Nat
import Mathlib.Order.MinMax
import WhileAsm.Lowering.Program

/-!
# How many registers a program takes

A counter says how many registers are in use. An expression raises it by its `need`, a block threads
it through its statements and resets it, and the body of a loop starts at zero; `peak` is the
highest that it gets.

Generation asks for registers one at a time (`Demand`) and comes upon what is not of the language
on its way, in the order of `demands`. Demands are met in turn from a pool of a given size
(`serve`). All of them are met exactly if the tree is well formed and the peak is within the pool
(`serve_program`), and otherwise the first one that is not met says why (`serve_eq_error_iff`).
-/

namespace WhileAsm

open Asm (Target)
open Lowering (GenError Unknown)

/-! ## The counter -/

namespace Expr

def isLiteral : Expr → Bool
  | .int .. | .bool .. => true
  | _ => false

def isVar : Expr → Bool
  | .var _ => true
  | _ => false

/-- A literal or a variable: its value is in no register of its own. -/
def isAtom (e : Expr) : Bool := e.isLiteral || e.isVar

/-- How many registers the code of an expression takes. A division takes one for its result, and one
more if the divisor is a constant. -/
def need : Expr → ℕ
  | .unary _ _ x => x.need + x.isAtom.toNat
  | .binary _ .div l r => l.need + r.need + 1 + r.isLiteral.toNat
  | .binary _ _ l r => l.need + r.need + l.isAtom.toNat
  | _ => 0

end Expr

/-- The counter after a statement that starts at `k`. -/
def Stmt.after (k : ℕ) : Stmt → ℕ
  | .block _ | .loop .. => 0
  | .assign _ _ source => k + source.need + source.isVar.toNat
  | .write _ es => k + (es.map Expr.need).sum
  | .decl _ | .read .. | .gap _ => k

mutual

/-- The highest that the counter gets in a statement that starts at `k`. -/
def Stmt.peak (k : ℕ) : Stmt → ℕ
  | .block b => b.peak k
  | .loop _ cond (some b) => max (k + cond.need + cond.isLiteral.toNat) (b.peak 0)
  | .loop _ cond none => k + cond.need + cond.isLiteral.toNat
  | st => st.after k

def Block.peak (k : ℕ) : Block → ℕ
  | .mk _ ss => Stmt.peakOf k ss

def Stmt.peakOf (k : ℕ) : List Stmt → ℕ
  | [] => k
  | s :: ss => max (s.peak k) (Stmt.peakOf (s.after k) ss)

end

def Program.peak (p : Program) : ℕ := (p.block.map (Block.peak 0)).getD 0

/-! ## Trees of the language -/

def UnaryOp.known : UnaryOp → Bool
  | .other _ => false
  | _ => true

def BinaryOp.known : BinaryOp → Bool
  | .other _ => false
  | _ => true

/-- The reference is there and has a declaration. -/
def VarRef.resolved (ref : Option VarRef) : Bool := (ref.bind (·.referent)).isSome

def Expr.wellFormed : Expr → Bool
  | .int .. | .bool .. => true
  | .var ref => VarRef.resolved (some ref)
  | .unary _ op x => op.known && x.wellFormed
  | .binary _ op l r => op.known && l.wellFormed && r.wellFormed
  | .gap _ => false

mutual

/-- The tree has no gap, no unknown operator and no unresolved reference. -/
def Stmt.wellFormed : Stmt → Bool
  | .block b => b.wellFormed
  | .decl _ => true
  | .assign _ target source => VarRef.resolved target && source.wellFormed
  | .read _ refs => refs.all VarRef.resolved
  | .write _ es => es.all Expr.wellFormed
  | .loop _ cond (some b) => cond.wellFormed && b.wellFormed
  | .loop _ _ none => false
  | .gap _ => false

def Block.wellFormed : Block → Bool
  | .mk _ ss => Stmt.wellFormedAll ss

def Stmt.wellFormedAll : List Stmt → Bool
  | [] => true
  | s :: ss => s.wellFormed && Stmt.wellFormedAll ss

end

def Program.wellFormed (p : Program) : Bool := p.block.any Block.wellFormed

/-! ## Demands -/

/-- What generation asks for. -/
inductive Demand where
  /-- One more register. `leaving` is a register that has to be vacated for it. -/
  | register (leaving : Option String)
  | release
  /-- A place of the tree is not of the language. -/
  | reject (what : Unknown)
  deriving DecidableEq, Repr

namespace Demand

/-- The counter after a demand on `n` registers of which `k` are in use. -/
def meet (n k : ℕ) : Demand → Except GenError ℕ
  | .register leaving => if k < n then .ok (k + 1) else .error (.exhausted ⟨n, leaving⟩)
  | .release => .ok 0
  | .reject what => .error (.unknown what)

/-- Demands one after the other, up to the first that is not met. -/
def serve (n : ℕ) (ds : List Demand) (k : ℕ) : Except GenError ℕ := ds.foldlM (meet n) k

def registerIf (c : Bool) : List Demand := if c then [.register none] else []

def ofRef (ref : Option VarRef) (what : Unknown) : List Demand :=
  if VarRef.resolved ref then [] else [.reject what]

end Demand

open Demand (meet serve registerIf ofRef)

/-- The demands of an expression. An operator is looked at before its operands, and the left operand
comes before the right one. -/
def Expr.demands (t : Target) : Expr → List Demand
  | .int .. | .bool .. => []
  | .var ref => ofRef (some ref) .reference
  | .unary _ (.other c) _ => [.reject (.unaryOp (.other c))]
  | .unary _ _ x => x.demands t ++ registerIf x.isAtom
  | .binary _ (.other c) _ _ => [.reject (.binaryOp (.other c))]
  | .binary _ .div l r => l.demands t ++ (r.demands t ++
      (.register (some t.dividendReg) :: registerIf r.isLiteral))
  | .binary _ _ l r => l.demands t ++ (r.demands t ++ registerIf l.isAtom)
  | .gap g => [.reject (.expr g)]

/-- What an assignment says of a target that it cannot assign to. -/
def VarRef.missing : Option VarRef → Unknown
  | some _ => .reference
  | none => .expr (.emptyOf .var)

mutual

/-- The demands of a statement. An assignment computes its value before it looks at its target. -/
def Stmt.demands (t : Target) : Stmt → List Demand
  | .block b => b.demands t
  | .decl _ => []
  | .assign _ target source =>
    source.demands t ++ (ofRef target (VarRef.missing target) ++ registerIf source.isVar)
  | .read _ refs => refs.flatMap (ofRef · .reference)
  | .write _ es => es.flatMap (Expr.demands t)
  | .loop _ cond (some b) =>
    cond.demands t ++ (registerIf cond.isLiteral ++ (.release :: b.demands t))
  | .loop _ cond none => cond.demands t ++ (registerIf cond.isLiteral ++
      [.release, .reject (.stmt (.emptyOf .block))])
  | .gap g => [.reject (.stmt g)]

def Block.demands (t : Target) : Block → List Demand
  | .mk _ ss => Stmt.demandsOf t ss ++ [.release]

def Stmt.demandsOf (t : Target) : List Stmt → List Demand
  | [] => []
  | s :: ss => s.demands t ++ Stmt.demandsOf t ss

end

def Program.demands (t : Target) : Option Program → List Demand
  | none => [.reject .program]
  | some ⟨_, none⟩ => [.reject (.stmt (.emptyOf .block))]
  | some ⟨_, some b⟩ => b.demands t

/-! ## When all demands are met -/

namespace Demand

variable {n k k' : ℕ} {ds es : List Demand}

theorem serve_nil : serve n [] k = .ok k := rfl

theorem serve_cons (d : Demand) : serve n (d :: ds) k = meet n k d >>= serve n ds := rfl

theorem serve_append : serve n (ds ++ es) k = serve n ds k >>= serve n es := List.foldlM_append

theorem serve_append_ok :
    serve n (ds ++ es) k = .ok k' ↔ ∃ m, serve n ds k = .ok m ∧ serve n es m = .ok k' := by
  rw [serve_append]
  cases serve n ds k with
  | error e => simp [bind, Except.bind]
  | ok m => simp [bind, Except.bind]

theorem serve_reject (what : Unknown) : serve n (.reject what :: ds) k = .error (.unknown what) :=
  rfl

theorem serve_release : serve n (.release :: ds) k = serve n ds 0 := rfl

/-- What is served stops at the first demand that is not met. -/
theorem serve_eq_error_iff {e : GenError} :
    serve n ds k = .error e ↔ ∃ front d back m, ds = front ++ d :: back
      ∧ serve n front k = .ok m ∧ meet n m d = .error e := by
  constructor
  · induction ds generalizing k with
    | nil =>
      intro h
      cases h
    | cons d ds ih =>
      intro h
      rw [serve_cons] at h
      cases hd : meet n k d with
      | error e' =>
        rw [hd] at h
        cases h
        exact ⟨[], d, ds, k, rfl, rfl, hd⟩
      | ok k₁ =>
        rw [hd] at h
        obtain ⟨front, d', back, m, rfl, hfront, hm⟩ := ih h
        refine ⟨d :: front, d', back, m, rfl, ?_, hm⟩
        rw [serve_cons, hd]
        exact hfront
  · rintro ⟨front, d, back, m, rfl, hfront, hd⟩
    rw [serve_append, hfront]
    change meet n m d >>= serve n back = _
    rw [hd]
    rfl

/-- The demands are all met exactly if a condition holds and the counter does not peak above the
size of the pool; the counter is then known. -/
structure Tracks (n : ℕ) (ds : List Demand) (ok : Bool) (peak after : ℕ → ℕ) : Prop where
  after_le : ∀ k, after k ≤ peak k
  serve_iff : ∀ k k', k ≤ n → (serve n ds k = .ok k' ↔ ok ∧ peak k ≤ n ∧ k' = after k)

/-- Demands that take `c` registers and give none back. -/
def Costs (n : ℕ) (ds : List Demand) (ok : Bool) (c : ℕ) : Prop := Tracks n ds ok (· + c) (· + c)

section Tracks

variable {ok ok' : Bool} {p p' a a' : ℕ → ℕ} {c c' : ℕ}

theorem Tracks.append (h : Tracks n ds ok p a) (h' : Tracks n es ok' p' a') :
    Tracks n (ds ++ es) (ok && ok') (fun k => max (p k) (p' (a k))) (fun k => a' (a k)) := by
  refine ⟨fun k => (h'.after_le _).trans (le_max_right _ _), ?_⟩
  intro k k' hk
  rw [serve_append_ok, Bool.and_eq_true, max_le_iff]
  constructor
  · rintro ⟨m, hm, hk'⟩
    obtain ⟨hok, hp, rfl⟩ := (h.serve_iff k m hk).1 hm
    obtain ⟨hok', hp', rfl⟩ := (h'.serve_iff _ k' ((h.after_le k).trans hp)).1 hk'
    exact ⟨⟨hok, hok'⟩, ⟨hp, hp'⟩, rfl⟩
  · rintro ⟨⟨hok, hok'⟩, ⟨hp, hp'⟩, rfl⟩
    exact ⟨a k, (h.serve_iff k _ hk).2 ⟨hok, hp, rfl⟩,
      (h'.serve_iff _ _ ((h.after_le k).trans hp)).2 ⟨hok', hp', rfl⟩⟩

theorem Tracks.congr (h : Tracks n ds ok p a) (hok : ok = ok') (hp : ∀ k, p k = p' k)
    (ha : ∀ k, a k = a' k) : Tracks n ds ok' p' a' := by
  obtain rfl := hok
  obtain rfl := funext hp
  obtain rfl := funext ha
  exact h

theorem tracks_reject (what : Unknown) (h : ∀ k, a k ≤ p k) :
    Tracks n (.reject what :: ds) false p a := by
  refine ⟨h, ?_⟩
  intro k k' _
  rw [serve_reject]
  simp

theorem tracks_release : Tracks n [.release] true (fun _ => 0) (fun _ => 0) := by
  refine ⟨fun _ => le_rfl, ?_⟩
  intro k k' _
  rw [serve_release, serve_nil]
  simp [eq_comm]

theorem costs_nil : Costs n [] true 0 := by
  refine ⟨fun _ => le_rfl, ?_⟩
  intro k k' hk
  rw [serve_nil]
  simp [hk, eq_comm]

theorem costs_reject (what : Unknown) : Costs n [.reject what] false c :=
  tracks_reject what fun _ => le_rfl

theorem costs_register (leaving : Option String) : Costs n [.register leaving] true 1 := by
  refine ⟨fun _ => le_rfl, ?_⟩
  intro k k' _
  rw [serve_cons, meet]
  split_ifs with h
  · have : k + 1 ≤ n := h
    simp [bind, Except.bind, serve_nil, this, eq_comm]
  · have : ¬ k + 1 ≤ n := h
    simp [bind, Except.bind, this]

theorem Costs.append (h : Costs n ds ok c) (h' : Costs n es ok' c') :
    Costs n (ds ++ es) (ok && ok') (c + c') := by
  refine Tracks.congr (Tracks.append h h') rfl ?_ ?_
  · intro k
    omega
  · intro k
    omega

theorem costs_registerIf (b : Bool) : Costs n (registerIf b) true b.toNat := by
  cases b with
  | false => exact costs_nil
  | true => exact costs_register none

theorem costs_ofRef (ref : Option VarRef) (what : Unknown) :
    Costs n (ofRef ref what) (VarRef.resolved ref) 0 := by
  unfold ofRef
  cases VarRef.resolved ref with
  | false => exact costs_reject what
  | true => exact costs_nil

theorem Costs.flatMap {α : Type} {f : α → List Demand} {good : α → Bool} {cost : α → ℕ}
    (h : ∀ x, Costs n (f x) (good x) (cost x)) :
    ∀ xs : List α, Costs n (xs.flatMap f) (xs.all good) (xs.map cost).sum
  | [] => costs_nil
  | x :: xs => (h x).append (flatMap h xs)

end Tracks

end Demand

/-! ## The demands of a tree -/

section Trees

open Demand

variable {n : ℕ} (t : Target)

theorem costs_expr : ∀ e : Expr, Costs n (e.demands t) e.wellFormed e.need
  | .int _ _ => costs_nil
  | .bool _ _ => costs_nil
  | .var ref => costs_ofRef _ _
  | .gap g => costs_reject _
  | .unary _ op x => by
    have hx := (costs_expr x).append (costs_registerIf x.isAtom)
    rw [Bool.and_true] at hx
    cases op with
    | neg | not => exact hx
    | other c => exact costs_reject _
  | .binary _ op l r => by
    have hl := costs_expr l
    have hr := costs_expr r
    have harith := hl.append (hr.append (costs_registerIf l.isAtom))
    rw [Bool.and_true, ← Nat.add_assoc] at harith
    cases op with
    | add | sub | mul => exact harith
    | div =>
      have hdiv := hl.append (hr.append
        ((costs_register (some t.dividendReg)).append (costs_registerIf r.isLiteral)))
      rw [Bool.and_true, Bool.and_true, ← Nat.add_assoc, ← Nat.add_assoc] at hdiv
      exact hdiv
    | other c => exact costs_reject _

def Stmt.afterOf (k : ℕ) (ss : List Stmt) : ℕ := ss.foldl Stmt.after k

mutual

theorem tracks_stmt : ∀ st : Stmt,
    Tracks n (st.demands t) st.wellFormed (Stmt.peak · st) (Stmt.after · st)
  | .block b => tracks_block b
  | .decl d => costs_nil
  | .gap g => costs_reject (c := 0) _
  | .read _ refs => by
    have h := Costs.flatMap (n := n) (fun ref => costs_ofRef ref .reference) refs
    rw [List.map_const', List.sum_replicate_nat, Nat.mul_zero] at h
    exact h
  | .write _ es => Costs.flatMap (costs_expr t) es
  | .assign _ target source => by
    have h := (costs_expr (n := n) t source).append
      ((costs_ofRef target (VarRef.missing target)).append (costs_registerIf source.isVar))
    rw [Bool.and_true, Bool.and_comm, Nat.zero_add] at h
    exact Tracks.congr h rfl (fun k => (Nat.add_assoc _ _ _).symm)
      (fun k => (Nat.add_assoc _ _ _).symm)
  | .loop _ cond none => by
    have hcond := (costs_expr (n := n) t cond).append (costs_registerIf cond.isLiteral)
    have h := Tracks.append hcond (tracks_release.append
      (costs_reject (c := 0) (.stmt (.emptyOf .block))))
    rw [List.append_assoc, Bool.and_false, Bool.and_false] at h
    refine h.congr rfl (fun k => ?_) (fun k => rfl)
    simp [Stmt.peak, Nat.add_assoc]
  | .loop _ cond (some b) => by
    have hcond := (costs_expr (n := n) t cond).append (costs_registerIf cond.isLiteral)
    have h := Tracks.append hcond (tracks_release.append (tracks_block b))
    rw [List.append_assoc, Bool.and_true, Bool.true_and] at h
    refine h.congr rfl (fun k => ?_) (fun k => rfl)
    simp [Stmt.peak, Nat.add_assoc]

theorem tracks_block : ∀ b : Block,
    Tracks n (b.demands t) b.wellFormed (Block.peak · b) (fun _ => 0)
  | .mk _ ss => by
    have h := (tracks_stmts ss).append (tracks_release (n := n))
    exact h.congr (Bool.and_true _) (fun k => Nat.max_zero _) (fun k => rfl)

theorem tracks_stmts : ∀ ss : List Stmt,
    Tracks n (Stmt.demandsOf t ss) (Stmt.wellFormedAll ss) (Stmt.peakOf · ss) (Stmt.afterOf · ss)
  | [] => costs_nil
  | s :: ss => (tracks_stmt s).append (tracks_stmts ss)

end

/-- The demands of a program are met exactly if it is well formed and its peak is within the
pool. -/
theorem serve_program (p : Option Program) :
    (∃ k, serve n (Program.demands t p) 0 = .ok k)
      ↔ ∃ q, p = some q ∧ q.wellFormed ∧ q.peak ≤ n := by
  rcases p with _ | ⟨pos, _ | b⟩
  · simp [Program.demands, serve_reject]
  · simp [Program.demands, serve_reject, Program.wellFormed]
  · simp [Program.demands, (tracks_block t b).serve_iff 0 _ (Nat.zero_le n), Program.wellFormed,
      Program.peak]

end Trees

end WhileAsm
