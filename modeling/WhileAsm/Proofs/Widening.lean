import WhileAsm.Proofs.Recast

/-!
# Pools of different sizes

With further registers at the end of the pool, the first free register is still the same, as long
as there was one (`free?_widen`). So a step on the register file that ends well comes to the same
(`Unmoved`), whatever register it asks for: one that the smaller pool does not have is given out by
name alone. A step of generation that does not run out of registers then ends as it did, and leaves
the same session but for the pool (`Endures`).

This holds for a whole program because it is kept by putting steps together
(`endures_congruence`). A larger pool therefore changes the outcome of no pass but of those that
ran out of registers (`generate_widen`).
-/

namespace WhileAsm

open Asm (Target)

/-- The target with further registers, which are the last to be preferred. -/
def Asm.Target.widen (t : Target) (more : List String) : Target :=
  { t with scratch := t.scratch ++ more }

namespace Lowering

/-! ## Steps on the register file -/

def Registers.widen (r : Registers) (more : List String) : Registers :=
  { r with pool := r.pool ++ more }

def Step.widen {α : Type} (st : Step α) (more : List String) : Step α :=
  { st with registers := st.registers.widen more }

/-- Whatever a step comes to, it comes to with further registers. -/
def Unmoved {α : Type} (more : List String) (step : Registers → Except Exhausted (Step α)) : Prop :=
  ∀ {r st}, step r = .ok st → step (r.widen more) = .ok (st.widen more)

section Registers

variable {more : List String}

theorem free?_widen {r : Registers} {name : String} (h : r.free? = some name) :
    (r.widen more).free? = some name := by
  have hfirst : r.pool.find? (fun name => ((r.widen more).occupant name).isNone) = some name := h
  show (r.pool ++ more).find? _ = some name
  rw [List.find?_append, hfirst]
  rfl

theorem unmoved_fresh : Unmoved more Registers.fresh := by
  intro r st h
  unfold Registers.fresh at h ⊢
  split at h
  · cases h
  · rename_i name hfree
    rw [free?_widen hfree]
    cases h
    rfl

theorem unmoved_bind (name : String) : Unmoved more (·.bind name) := by
  intro r st h
  have hoccupant : (r.widen more).occupant name = r.occupant name := rfl
  simp only [Registers.bind, hoccupant] at h ⊢
  cases hold : r.occupant name with
  | none =>
    rw [hold] at h
    cases h
    rfl
  | some old =>
    rw [hold] at h
    cases hfree : r.free? with
    | none =>
      rw [hfree] at h
      cases h
    | some other =>
      rw [hfree] at h
      rw [free?_widen hfree]
      cases h
      rfl

theorem unmoved_load (v : Value) : Unmoved more (·.load v) := by
  intro r st h
  simp only [Registers.load] at h ⊢
  cases hfresh : r.fresh with
  | error e =>
    rw [hfresh] at h
    cases h
  | ok s =>
    rw [hfresh] at h
    rw [unmoved_fresh hfresh]
    cases h
    cases v <;> rfl

end Registers

/-! ## Steps of generation -/

def Session.widen (s : Session) (more : List String) : Session :=
  { s with registers := s.registers.widen more }

theorem noted_widen (s : Session) (more : List String) (n x : String) :
    (s.widen more).noted n x = (s.noted n x).widen more := by
  by_cases h : x ∈ s.usedSet <;> simp [Session.noted, Session.widen, h]

/-- With further registers a step does what another does without them, unless that one runs out of
registers. -/
def Endures (more : List String) {α : Type} (x y : Gen α) : Prop :=
  ∀ s, match x.run s with
    | .ok a m => y.run (s.widen more) = .ok a (m.widen more)
    | .error e m => (∃ lack, e = .exhausted lack) ∨ y.run (s.widen more) = .error e (m.widen more)

section Endures

variable {more : List String} {α β : Type}

theorem Endures.bind {x y : Gen α} {k k' : α → Gen β} (h : Endures more x y)
    (hk : ∀ a, Endures more (k a) (k' a)) : Endures more (x >>= k) (y >>= k') := by
  intro s
  have hxy := h s
  rw [EStateM.run_bind, EStateM.run_bind]
  cases hx : x.run s with
  | ok a m =>
    rw [hx] at hxy
    rw [hxy]
    exact hk a m
  | error e m =>
    rw [hx] at hxy
    rcases hxy with hlack | hy
    · exact Or.inl hlack
    · rw [hy]
      exact Or.inr rfl

theorem endures_allocate {step : Registers → Except Exhausted (Step α)} (h : Unmoved more step) :
    Endures more (Gen.allocate step) (Gen.allocate step) := by
  intro s
  rw [Gen.run_allocate, Gen.run_allocate]
  cases hstep : step s.registers with
  | ok st =>
    have hwide : step (s.widen more).registers = .ok (st.widen more) := h hstep
    rw [hwide]
    rfl
  | error e => exact Or.inl ⟨e, rfl⟩

theorem endures_cell (ref : Option VarRef) :
    Endures more (Gen.cell ref) (Gen.cell (ref.map (Guise.of id id id).ref)) := by
  rcases ref with _ | ⟨name, _ | d, pos⟩
  · exact fun _ => Or.inr rfl
  · exact fun _ => Or.inr rfl
  · intro s
    have hrefer : (s.widen more).refer name d.place = (s.refer name d.place).widen more :=
      noted_widen { s with names := (s.names.nameFor d.place).2 } more name _
    simp only [Option.map_some, Guise.of, Gen.run_cell, id, hrefer]
    rfl

theorem endures_congruence (more : List String) (t : Target) :
    Congruence t (.of id id id) (fun _ => True) (Endures more) where
  pure _ _ := rfl
  bind := Endures.bind
  throw _ _ := Or.inr rfl
  line _ _ := rfl
  operand v s := by cases v <;> rfl
  drawLabel _ := rfl
  freeAll _ := rfl
  load v := by
    rw [Gen.load_eq]
    exact endures_allocate (unmoved_load v)
  dividend := by
    rw [Gen.bindTo_eq]
    exact endures_allocate (unmoved_bind _)
  cell ref _ := endures_cell ref

end Endures

/-! ## Programs -/

section Target

variable (t : Target) (more : List String)

theorem expr_widen : ∀ e : Expr, Gen.expr (t.widen more) e = Gen.expr t e
  | .int .. | .bool _ true | .bool _ false | .var _ | .gap _ => rfl
  | .unary _ op x => by simp only [Gen.expr, expr_widen x]
  | .binary _ op l r => by
    have hdivide : Gen.divide (t.widen more) = Gen.divide t := rfl
    cases op <;> simp only [Gen.expr, expr_widen l, expr_widen r, hdivide]

theorem readVars_widen : ∀ refs, Gen.readVars (t.widen more) refs = Gen.readVars t refs
  | [] => rfl
  | ref :: refs => by
    have href : Gen.readVar (t.widen more) ref = Gen.readVar t ref := rfl
    rw [Gen.readVars, Gen.readVars, readVars_widen refs, href]

theorem writeExprs_widen : ∀ es, Gen.writeExprs (t.widen more) es = Gen.writeExprs t es
  | [] => rfl
  | e :: es => by
    have he : Gen.writeExpr (t.widen more) e = Gen.writeExpr t e := by
      unfold Gen.writeExpr
      rw [expr_widen]
      rfl
    rw [Gen.writeExprs, Gen.writeExprs, writeExprs_widen es, he]

mutual

theorem stmt_widen : ∀ st : Stmt, Gen.stmt (t.widen more) st = Gen.stmt t st
  | .block b => block_widen b
  | .assign _ target source => by
    rw [Gen.stmt, Gen.stmt, Gen.assign, Gen.assign, expr_widen]
  | .read _ refs => readVars_widen t more refs
  | .write _ es => writeExprs_widen t more es
  | .loop _ cond (some b) => by
    have hb : Gen.blockOf (t.widen more) (some b) = Gen.blockOf t (some b) := block_widen b
    rw [Gen.stmt, Gen.stmt, expr_widen, hb]
  | .loop _ cond none => by
    have hnone : Gen.blockOf (t.widen more) none = Gen.blockOf t none := rfl
    rw [Gen.stmt, Gen.stmt, expr_widen, hnone]
  | .decl _ | .gap _ => rfl

theorem block_widen : ∀ b : Block, Gen.block (t.widen more) b = Gen.block t b
  | .mk _ ss => by
    rw [Gen.block, Gen.block, stmts_widen ss]

theorem stmts_widen : ∀ ss : List Stmt, Gen.stmts (t.widen more) ss = Gen.stmts t ss
  | [] => rfl
  | st :: ss => by
    rw [Gen.stmts, Gen.stmts, stmt_widen st, stmts_widen ss]

end

/-- The pool is looked at by the steps on the register file alone, not by the code that takes
them. -/
theorem programBody_widen (p : Program) :
    Gen.programBody (t.widen more) p = Gen.programBody t p := by
  have hblock : Gen.blockOf (t.widen more) p.block = Gen.blockOf t p.block := by
    rcases p with ⟨pos, _ | b⟩
    · rfl
    · exact block_widen t more b
  rw [Gen.programBody, Gen.programBody, hblock]
  rfl

end Target

end Lowering

open Lowering

/-- A larger pool changes nothing for a program whose pass did not run out of registers: it has the
same listing, or none for the same reason. -/
theorem generate_widen (t : Target) (more : List String) (p : Option Program)
    (h : ∀ lack, generate t p ≠ .error (.exhausted lack)) :
    generate (t.widen more) p = generate t p := by
  cases p with
  | none => rfl
  | some p =>
    have hplain : generate (t.widen more) (some (p.recast (.of id id id)))
        = generate (t.widen more) (some p) :=
      generate_recast _ Function.injective_id.injOn id id
    have hbody := (endures_congruence more t).programBody (p := p) (fun _ _ => trivial)
      ((Session.start t).renewed t)
    have hstart : ((Session.start t).renewed t).widen more
        = (Session.start (t.widen more)).renewed (t.widen more) := rfl
    rw [← hplain]
    rw [generate_eq_programBody] at h ⊢
    rw [generate_eq_programBody, programBody_widen, ← hstart]
    cases hrun : (Gen.programBody t p).run ((Session.start t).renewed t) with
    | ok u m =>
      rw [hrun] at hbody
      rw [hbody]
      rfl
    | error e m =>
      rw [hrun] at hbody h
      rcases hbody with ⟨lack, rfl⟩ | hbody
      · exact absurd rfl (h lack)
      · rw [hbody]

/-- Writes the difference of two quotients. The first has to leave the dividend register when the
second is computed. -/
def quotientDifference : Program :=
  let x : VarRef := ⟨"x", some ⟨[.index 0], "x", .int, ⟨1, 1⟩⟩, ⟨2, 1⟩⟩
  let quotient : Expr := .binary ⟨2, 1⟩ .div (.int ⟨2, 1⟩ 8) (.var x)
  ⟨⟨1, 1⟩, some (.mk ⟨1, 1⟩ [.write ⟨2, 1⟩ [.binary ⟨2, 1⟩ .sub quotient quotient]])⟩

/-- A pool of one register, which is not that of dividends. -/
def oneRegister : Target := { Target.x86_64 .linux with scratch := ["rcx"] }

/-- The dividend register joins the pool, and nothing changes. -/
theorem generate_widen_dividend : oneRegister.dividendReg ∉ oneRegister.scratch
    ∧ ∃ text, generate oneRegister (some quotientDifference) = .ok text
      ∧ generate (oneRegister.widen ["rax", "r8"]) (some quotientDifference) = .ok text := by
  refine ⟨by decide, ?_⟩
  cases h : generate oneRegister (some quotientDifference) with
  | error e =>
    have hok : (generate oneRegister (some quotientDifference)).isOk := by decide +kernel
    rw [h] at hok
    cases hok
  | ok text =>
    refine ⟨text, rfl, ?_⟩
    rw [← h]
    exact generate_widen oneRegister ["rax", "r8"] (some quotientDifference) (by simp [h])

end WhileAsm
