import WhileAsm.Proofs.Demand
import WhileAsm.Proofs.ExprCode

/-!
# Expressions in the midst of others

The code of an expression is generated while other values wait in registers. It may move them, and
it may not lose them: wherever the registers stand when it begins, it leaves the value of the
expression in the place that was answered and each waiting value in the register that is now said to
hold it (`ExprAnswer`). What is asked of the session at the start is only that its table of
registers is consistent and within the pool; every handle in the table is then a known one, because
no register of the pool is without a name (`sound_of_placed`).
-/

namespace WhileAsm.Lowering

open Asm (Cpu Instr Platform Target execAll)

/-- The code `is` of the expression `e` is right in every state of the machine, and its answer `v`
belongs to the expression alone. -/
structure ExprAnswer (P : Platform) (t : Target) (e : Expr) (is : List Instr) (v : Value)
    (s s' : Session) : Prop where
  code : s'.code = s.code ++ is.map .instr
  faults : ∀ c, (∃ c', execAll P t is c = .error (.divideError, c'))
    ↔ e.value? (s'.cells.store c.cells) = none
  computes : ∀ c w, e.value? (s'.cells.store c.cells) = some w →
    ∃ c', execAll P t is c = .ok c' ∧ c'.read (s'.registers.operand v) = w ∧ c'.cells = c.cells
      ∧ ∀ {name h}, s.registers.occupant name = some h →
        c'.regs (s'.registers.place h) = c.regs name
  kept : ∀ {name h}, s.registers.occupant name = some h →
    s'.registers.occupant (s'.registers.place h) = some h
  constant : (∃ w, v = .imm w) ↔ e.isLiteral
  stored : (∃ x, v = .cell x) ↔ e.isVar
  own : ∀ {h}, v = .reg h → s'.registers.occupant (s'.registers.place h) = some h
    ∧ ∀ name, s.registers.occupant name ≠ some h

theorem Registers.sound_of_placed {r : Registers} (hpool : "" ∉ r.pool)
    (h : ∀ {name k}, r.occupant name = some k → r.place k = name ∧ name ∈ r.pool) : r.Sound where
  known := by
    intro name k hk
    obtain ⟨hplace, hname⟩ := h hk
    by_contra hlen
    have hnone : r.places[k.number]? = none := by
      rw [List.getElem?_eq_none_iff]
      omega
    apply hpool
    rw [← hplace, place, hnone] at hname
    exact hname
  placed hk := (h hk).1
  pooled hk := (h hk).2

theorem divide_answers_reg {t : Target} {l r v : Value} {s s' : Session}
    (h : (Gen.divide t l r).run s = .ok v s') : ∃ k, v = .reg k := by
  obtain ⟨st, -, -, -, hv, -⟩ := run_divide_ok h
  exact ⟨st.result, hv⟩

/-- The kind of an expression tells where its value is: every operation has a register. -/
theorem answer_of_expr {t : Target} {e : Expr} {v : Value} {s s' : Session}
    (h : (Gen.expr t e).run s = .ok v s') :
    ((∃ w, v = .imm w) ↔ e.isLiteral) ∧ ((∃ x, v = .cell x) ↔ e.isVar) := by
  have hreg : (∃ k, v = .reg k) → ¬ (∃ w, v = .imm w) ∧ ¬ ∃ x, v = .cell x := by
    rintro ⟨k, rfl⟩
    simp
  cases e with
  | int pos w =>
    cases h
    simp [Expr.isLiteral, Expr.isVar]
  | bool pos b =>
    cases b <;>
    · cases h
      simp [Expr.isLiteral, Expr.isVar]
  | var ref =>
    rw [Gen.expr] at h
    obtain ⟨x, m, -, hret⟩ := Gen.run_bind_ok.1 h
    cases hret
    simp [Expr.isLiteral, Expr.isVar]
  | unary pos op x =>
    rw [Gen.expr] at h
    split at h
    · cases h
    · obtain ⟨_, _, -, h⟩ := Gen.run_bind_ok.1 h
      obtain ⟨k, _, -, h⟩ := Gen.run_bind_ok.1 h
      cases h
      simp [Expr.isLiteral, Expr.isVar]
  | binary pos op l r =>
    have hv : ∃ k, v = .reg k := by
      by_cases hop : op = .div
      · subst hop
        rw [Gen.expr] at h
        obtain ⟨_, _, -, h⟩ := Gen.run_bind_ok.1 h
        obtain ⟨_, _, -, h⟩ := Gen.run_bind_ok.1 h
        exact divide_answers_reg h
      · rw [Gen.expr] at h
        · split at h
          · cases h
          · obtain ⟨_, _, -, h⟩ := Gen.run_bind_ok.1 h
            obtain ⟨_, _, -, h⟩ := Gen.run_bind_ok.1 h
            obtain ⟨k, _, -, h⟩ := Gen.run_bind_ok.1 h
            cases h
            exact ⟨k, rfl⟩
        · exact hop
    simpa [Expr.isLiteral, Expr.isVar] using hreg hv
  | gap g => cases h

/-- In every session whose table of registers is consistent and within the pool, an expression that
is translated has code that faults exactly if the expression has no value, and that otherwise
computes the value and loses nothing. -/
theorem expr_computes_anywhere (P : Platform) (os : Asm.OS) {e : Expr} {v : Value}
    {s s' : Session} (hpool : s.registers.pool = (Target.x86_64 os).scratch)
    (hplaced : ∀ {name h}, s.registers.occupant name = some h →
      s.registers.place h = name ∧ name ∈ s.registers.pool)
    (h : (Gen.expr (.x86_64 os) e).run s = .ok v s') :
    ∃ is, ExprAnswer P (.x86_64 os) e is v s s' := by
  have hsound : s.registers.Sound := by
    refine Registers.sound_of_placed ?_ hplaced
    rw [hpool]
    simp [Target.x86_64]
  obtain ⟨he, hown, is, hem, hyields⟩ :=
    expr_spec (P := P) (Target.conventional_x86_64 os) e hsound hpool h
  have hlive : ∀ {name k}, s.registers.occupant name = some k → s.registers.Live k := by
    intro name k hk
    rw [Registers.Live, hsound.placed hk]
    exact hk
  have hrun := fun c => hyields s'.cells List.prefix_rfl c
  refine ⟨is, hem.code, fun c => ?_, fun c w hw => ?_, fun hk => he.live (hlive hk),
    (answer_of_expr h).1, (answer_of_expr h).2, ?_⟩
  · have hc := hrun c
    cases hval : e.value? (s'.cells.store c.cells) with
    | none =>
      rw [hval] at hc
      obtain ⟨c', hx, -⟩ := hc
      simp [hx]
    | some w =>
      rw [hval] at hc
      obtain ⟨c', hx, -⟩ := hc
      simp [hx]
  · have hc := hrun c
    rw [hw] at hc
    obtain ⟨c', hx, hcarried, hread⟩ := hc
    refine ⟨c', hx, hread, hcarried.cells, fun {name k} hk => ?_⟩
    rw [hcarried.regs (hlive hk), hsound.placed hk]
  · rintro k rfl
    exact ⟨hown.1, fun name hk => hown.2 (hlive hk)⟩

/-! ## A division that makes room for itself -/

/-- Two values wait in the first two registers. -/
def twoWaiting : Session where
  registers := ⟨(Target.x86_64 .linux).scratch, [("rcx", ⟨1⟩), ("rax", ⟨0⟩)], ["rax", "rcx"]⟩

/-- `7 / (a - 2)` -/
def quotientOfDifference : Expr :=
  let a : VarRef := ⟨"a", some ⟨[.index 0], "a", .int, ⟨1, 1⟩⟩, ⟨2, 1⟩⟩
  .binary ⟨2, 1⟩ .div (.int ⟨2, 1⟩ 7) (.binary ⟨2, 1⟩ .sub (.var a) (.int ⟨2, 1⟩ 2))

/-- A processor whose registers hold 10 and 20, and whose cells hold `a`. -/
def cpuWithCells (a : Int64) : Cpu where
  regs r := if r = "rax" then 10 else 20
  cells _ := a
  zero := false
  stack := []
  input := Stream'.const 0
  output := []

/-- A platform on which a routine changes no register and no flag. -/
def idlePlatform : Platform := ⟨fun _ => 0, Cpu.regs, Cpu.zero⟩

/-- The value in the dividend register moves and keeps its contents, and so does the other one. The
same code faults where the difference is zero. -/
theorem expr_computes_anywhere_twoWaiting :
    ∃ v s' is, (Gen.expr (.x86_64 .linux) quotientOfDifference).run twoWaiting = .ok v s'
      ∧ (∃ c', execAll idlePlatform (.x86_64 .linux) is (cpuWithCells 0) = .ok c'
        ∧ c'.read (s'.registers.operand v) = -3 ∧ c'.regs "r9" = 10 ∧ c'.regs "rcx" = 20)
      ∧ ∃ c', execAll idlePlatform (.x86_64 .linux) is (cpuWithCells 2)
        = .error (.divideError, c') := by
  have hplaced : ∀ {name h}, twoWaiting.registers.occupant name = some h →
      twoWaiting.registers.place h = name ∧ name ∈ twoWaiting.registers.pool := by
    intro name h hk
    have hname : name = "rcx" ∧ h = ⟨1⟩ ∨ name = "rax" ∧ h = ⟨0⟩ := by
      by_cases h1 : "rcx" = name
      · subst h1
        exact Or.inl ⟨rfl, (Option.some.inj hk).symm⟩
      · by_cases h2 : "rax" = name
        · subst h2
          exact Or.inr ⟨rfl, (Option.some.inj hk).symm⟩
        · simp [twoWaiting, Registers.occupant, h1, h2] at hk
    rcases hname with ⟨rfl, rfl⟩ | ⟨rfl, rfl⟩ <;>
      exact ⟨rfl, by simp [twoWaiting, Target.x86_64]⟩
  obtain ⟨v, s', hrun, hmoved, hother, hcells⟩ : ∃ v s',
      (Gen.expr (.x86_64 .linux) quotientOfDifference).run twoWaiting = .ok v s'
        ∧ s'.registers.place ⟨0⟩ = "r9" ∧ s'.registers.place ⟨1⟩ = "rcx"
        ∧ s'.cells = [([.index 0], "_v1")] := ⟨_, _, rfl, rfl, rfl, rfl⟩
  obtain ⟨is, hanswer⟩ := expr_computes_anywhere idlePlatform .linux rfl hplaced hrun
  refine ⟨v, s', is, hrun, ?_, (hanswer.faults (cpuWithCells 2)).2 ?_⟩
  · obtain ⟨c', hx, hread, -, hkept⟩ := hanswer.computes (cpuWithCells 0) (-3) (by rw [hcells]; rfl)
    refine ⟨c', hx, hread, ?_, ?_⟩
    · rw [← hmoved]
      exact @hkept "rax" _ rfl
    · rw [← hother]
      exact @hkept "rcx" _ rfl
  · rw [hcells]
    rfl

end WhileAsm.Lowering
