import WhileAsm.Proofs.Generation
import WhileAsm.Proofs.RegisterFile
import WhileAsm.Proofs.Source

/-!
# The code of an expression computes its value

The store of a program is seen in the storage cells (`CellNames.store`). In any session whose
register file is sound, the code of an expression faults if the expression has no value, and
otherwise leaves its value in the place that was answered (`expr_spec`). It keeps the cells, the
stack, the input and the output, and it carries every value that was live before to where the file
says it is now. A register that is answered belongs to the expression alone, so that an operation
may overwrite it.
-/

namespace WhileAsm

namespace Asm

/-! ## Division -/

/-- The sign of the dividend fills the upper half. -/
def Cpu.Extended (c : Cpu) : Prop := c.regs "rdx" = if c.regs "rax" < 0 then -1 else 0

theorem Cpu.extended_signExtend (c : Cpu) : c.signExtend.Extended := by
  have hrax : c.signExtend.regs "rax" = c.regs "rax" := c.regs_setReg_of_ne _ (by decide)
  unfold Extended
  rw [hrax]
  exact c.regs_setReg_self _ _

theorem Cpu.Extended.dividend {c : Cpu} (h : c.Extended) : c.dividend = (c.regs "rax").toInt := by
  have hsign : c.regs "rax" < 0 ↔ (c.regs "rax").toInt < 0 := by
    rw [Int64.lt_iff_toInt_lt, Int64.toInt_zero]
  have hnat : (c.regs "rax").toUInt64.toNat = (c.regs "rax").toBitVec.toNat := rfl
  have hcond : (c.regs "rax").toInt = _ := BitVec.toInt_eq_toNat_cond (c.regs "rax").toBitVec
  have hlt := (c.regs "rax").toBitVec.isLt
  unfold Cpu.dividend
  rw [h, hnat]
  by_cases hneg : c.regs "rax" < 0
  · rw [if_pos hneg, show (-1 : Int64).toInt = -1 from rfl]
    rw [hsign] at hneg
    split_ifs at hcond <;> omega
  · rw [if_neg hneg, Int64.toInt_zero]
    rw [hsign] at hneg
    split_ifs at hcond <;> omega

/-- A division faults where there is no quotient. -/
theorem Cpu.Extended.divideBy_none {P : Platform} {c : Cpu} (hc : c.Extended) {d : Int64}
    (h : quotient? (c.regs "rax") d = none) : c.divideBy P d = .error .divideError := by
  unfold Cpu.divideBy
  rw [hc.dividend]
  apply if_pos
  unfold quotient? at h
  split_ifs at h with hd
  rcases hd with hd | ⟨ha, hb⟩
  · exact Or.inl hd
  · rw [ha, hb]
    exact Or.inr (Or.inr (by decide))

theorem Cpu.Extended.divideBy_some {P : Platform} {c : Cpu} (hc : c.Extended) {d q : Int64}
    (h : quotient? (c.regs "rax") d = some q) :
    ∃ rem flag, c.divideBy P d
      = .ok { (c.setReg "rax" q).setReg "rdx" rem with zero := flag } := by
  unfold quotient? at h
  split_ifs at h with hd
  rw [not_or, not_and_or] at hd
  have hq : (c.regs "rax").toInt.tdiv d.toInt = q.toInt := by
    rw [← Option.some.inj h]
    rcases hd.2 with ha | hb
    · exact (Int64.toInt_div_of_ne_left _ _ ha).symm
    · exact (Int64.toInt_div_of_ne_right _ _ hb).symm
  have hlo := q.le_toInt
  have hhi := q.toInt_lt
  have hrange : ¬ (d = 0 ∨ q.toInt < -2 ^ 63 ∨ 2 ^ 63 ≤ q.toInt) := by
    rintro (h0 | h1 | h2)
    · exact hd.1 h0
    · omega
    · omega
  unfold Cpu.divideBy
  rw [hc.dividend, hq, if_neg hrange, Int64.ofInt_toInt]
  exact ⟨_, _, rfl⟩

/-- The target uses the registers of the machine in their roles, and keeps the one that a division
overwrites out of the pool. -/
structure Target.Conventional (t : Target) : Prop where
  dividend : t.dividendReg = "rax"
  pooled : "rax" ∈ t.scratch
  remainder : "rdx" ∉ t.scratch
  arguments : t.argRegs = ["rdi", "rsi"]
  returned : t.returnReg = "rax"
  routines : t.scanFunc ≠ t.printFunc

theorem Target.conventional_x86_64 (os : OS) : (x86_64 os).Conventional where
  dividend := rfl
  pooled := by simp [x86_64]
  remainder := by simp [x86_64]
  arguments := rfl
  returned := rfl
  routines := by simp [x86_64]

end Asm

namespace Lowering

open Asm (Cpu Instr Platform Target execAll)

/-- The store that is kept in storage cells. A declaration without a cell is zero. -/
def CellNames.store (C : CellNames) (cells : String → Int64) (p : Path) : Int64 :=
  match C.find? p with
  | some x => cells x
  | none => 0

theorem CellNames.store_of_find? {C : CellNames} {cells : String → Int64} {p : Path} {x : String}
    (h : C.find? p = some x) : C.store cells p = cells x := by
  simp [store, h]

/-! ## Code that yields a value -/

/-- From the processor `c`, the code `is` faults with the output `out` if there is no value, and
otherwise ends with a processor that the value is right for. -/
def Yields (P : Platform) (t : Target) (is : List Instr) (c : Cpu) (out : List Int64)
    (Q : Int64 → Cpu → Prop) : Option Int64 → Prop
  | none => ∃ c', execAll P t is c = .error (.divideError, c') ∧ c'.output = out
  | some w => ∃ c', execAll P t is c = .ok c' ∧ Q w c'

section Yields

variable {P : Platform} {t : Target} {is js : List Instr} {c : Cpu} {out : List Int64}
  {Q Q' : Int64 → Cpu → Prop}

/-- Code that goes on with a value, if there is one. -/
theorem Yields.bind {w : Option Int64} {f : Int64 → Option Int64} (h : Yields P t is c out Q w)
    (hnext : ∀ a c', Q a c' → Yields P t js c' out Q' (f a)) :
    Yields P t (is ++ js) c out Q' (w.bind f) := by
  cases w with
  | none =>
    obtain ⟨c', hx, ho⟩ := h
    exact ⟨c', Asm.execAll_append_error hx, ho⟩
  | some a =>
    obtain ⟨c', hx, hQ⟩ := h
    have hn := hnext a c' hQ
    rw [Option.bind_some]
    cases hw : f a with
    | none =>
      rw [hw] at hn
      obtain ⟨c'', hx', ho⟩ := hn
      exact ⟨c'', by rw [Asm.execAll_append_ok hx, hx'], ho⟩
    | some b =>
      rw [hw] at hn
      obtain ⟨c'', hx', hQ'⟩ := hn
      exact ⟨c'', by rw [Asm.execAll_append_ok hx, hx'], hQ'⟩

theorem Yields.mono {w : Option Int64} (h : Yields P t is c out Q w)
    (hQ : ∀ a c', Q a c' → Q' a c') : Yields P t is c out Q' w := by
  cases w with
  | none => exact h
  | some a =>
    obtain ⟨c', hx, hq⟩ := h
    exact ⟨c', hx, hQ a c' hq⟩

/-- Code that cannot fault after code that yields a value. -/
theorem Yields.then {w : Option Int64} (h : Yields P t is c out Q w)
    (hnext : ∀ a c', Q a c' → ∃ c'', execAll P t js c' = .ok c'' ∧ Q' a c'') :
    Yields P t (is ++ js) c out Q' w := by
  have hbind : Yields P t (is ++ js) c out Q' (w.bind some) := h.bind hnext
  rwa [Option.bind_fun_some] at hbind

/-- Code that cannot fault, and what comes after it. -/
theorem Yields.after {w : Option Int64} {d : Cpu} (hx : execAll P t is c = .ok d)
    (h : Yields P t js d out Q w) : Yields P t (is ++ js) c out Q w := by
  cases w with
  | none =>
    obtain ⟨c'', hx', ho⟩ := h
    exact ⟨c'', by rw [Asm.execAll_append_ok hx, hx'], ho⟩
  | some a =>
    obtain ⟨c'', hx', hQ⟩ := h
    exact ⟨c'', by rw [Asm.execAll_append_ok hx, hx'], hQ⟩

end Yields

section Code

variable {P : Platform} {t : Target}

/-- A value of an expression's own goes into a register of its own. -/
theorem intoRegister_spec {s s' : Session} {r : Registers} {v : Value} {k : Handle}
    (he : r.Evolves s.registers) (hv : v.Own r s.registers)
    (h : (Gen.intoRegister v).run s = .ok k s') :
    s.registers.Evolves s'.registers ∧ (Value.reg k).Own r s'.registers
      ∧ ∃ is, Emits s s' is ∧ ∀ c, ∃ c', execAll P t is c = .ok c'
        ∧ Carried s.registers s'.registers c c'
        ∧ c'.regs (s'.registers.place k) = c.read (s.registers.operand v) := by
  unfold Gen.intoRegister at h
  split at h
  · cases h
    exact ⟨.refl he.sound, hv, [], .refl s, fun c => ⟨c, rfl, .refl _ c, rfl⟩⟩
  · obtain ⟨st, hst, rfl, rfl⟩ := Gen.run_load_ok h
    obtain ⟨he', hown, -, hc⟩ := Registers.load_spec (P := P) (t := t) he.sound hv.live hst
    refine ⟨he', ⟨hown.1, fun hl => hown.2 (he.live hl)⟩, st.instrs, .commit s st, fun c => ?_⟩
    obtain ⟨c', hx, hcar, hv', -⟩ := hc c
    exact ⟨c', hx, hcar, hv'⟩

/-- The code from one register file to another has left a value in `v`. -/
def Answered (r r' : Registers) (c : Cpu) (v : Value) (w : Int64) (c' : Cpu) : Prop :=
  Carried r r' c c' ∧ c'.read (r'.operand v) = w

/-- What it means that the generator answers `v` for the expression `e`. -/
def Translated (P : Platform) (t : Target) (e : Expr) (v : Value) (s s' : Session) : Prop :=
  s.registers.Evolves s'.registers ∧ v.Own s.registers s'.registers
    ∧ ∃ is, Emits s s' is ∧ ∀ C : CellNames, s'.cells <+: C → ∀ c,
      Yields P t is c c.output (Answered s.registers s'.registers c v)
        (e.value? (C.store c.cells))

/-- Constants are answered as they are. -/
theorem translated_of_imm {e : Expr} {w : Int64} (hw : ∀ store, e.value? store = some w)
    {s : Session} (hs : s.registers.Sound) : Translated P t e (.imm w) s s := by
  refine ⟨.refl hs, trivial, [], .refl s, fun C _ c => ?_⟩
  rw [hw]
  exact ⟨c, rfl, .refl _ c, rfl⟩

theorem translated_var {ref : VarRef} {x : String} {s s' : Session} (hs : s.registers.Sound)
    (h : (Gen.cell (some ref)).run s = .ok x s') : Translated P t (.var ref) (.cell x) s s' := by
  obtain ⟨n, d, pos, href, hfind, hcells, hcode, hlabels, hregs⟩ := Gen.run_cell_ok h
  cases href
  refine ⟨by rw [hregs]; exact .refl hs, trivial, [], ⟨hlabels, hcells, by simpa using hcode⟩, ?_⟩
  intro C hC c
  refine ⟨c, rfl, by rw [hregs]; exact .refl _ c, ?_⟩
  exact (CellNames.store_of_find? (CellNames.find?_of_prefix hC hfind)).symm

theorem exec_unaryInstr {op : UnaryOp} {f : Asm.Operand → Instr} (h : unaryInstr? op = some f)
    (c : Cpu) (x : String) : ∃ w flag, op.result? (c.regs x) = some w
      ∧ (f (.reg x)).exec P t c = .ok ({ c with zero := flag }.setReg x w) := by
  cases op with
  | neg =>
    cases h
    exact ⟨_, _, rfl, rfl⟩
  | not =>
    cases h
    exact ⟨_, _, rfl, Asm.exec_arith_reg _ _ _ _ _ _⟩
  | other n => cases h

theorem translated_unary {pos : Position} {op : UnaryOp} {x : Expr} {f : Asm.Operand → Instr}
    (hop : unaryInstr? op = some f) {s s₁ s₂ : Session} {v : Value} {k : Handle}
    (hx : Translated P t x v s s₁) (hk : (Gen.intoRegister v).run s₁ = .ok k s₂) :
    Translated P t (.unary pos op x) (.reg k) s
      (s₂.push (.instr (f (s₂.registers.operand (.reg k))))) := by
  obtain ⟨he, hown, is, hem, hd⟩ := hx
  obtain ⟨he', hown', js, hem', hd'⟩ := intoRegister_spec (P := P) (t := t) he hown hk
  refine ⟨he.trans he', hown', _, hem.trans (hem'.trans (.push s₂ _)), fun C hC c => ?_⟩
  refine (hd C (hem'.cells.trans hC) c).bind fun a c₁ ⟨hc₁, ha⟩ => ?_
  obtain ⟨c₂, hx₂, hc₂, hv₂⟩ := hd' c₁
  refine Yields.after hx₂ ?_
  obtain ⟨w, flag, hw, hexec⟩ :=
    exec_unaryInstr (P := P) (t := t) hop c₂ (s₂.registers.place k)
  rw [hv₂, ha] at hw
  rw [hw]
  refine ⟨{ c₂ with zero := flag }.setReg (s₂.registers.place k) w, ?_, ?_, ?_⟩
  · simp only [Asm.execAll, Registers.operand, hexec]
  · exact ((hc₁.trans he hc₂).setFlag flag).setOwn (he.trans he') hown' w
  · exact Cpu.regs_setReg_self _ _ w

theorem result?_of_arithOp? {op : BinaryOp} {arith : Asm.ArithOp} (h : arithOp? op = some arith)
    (a b : Int64) : op.result? a b = some (arith.apply a b) := by
  cases op <;> cases h <;> rfl

/-- The operands of an operation, one after the other: the first keeps its value while the second
is computed. -/
theorem yields_operands {l r : Expr} {s s₁ s₂ : Session} {v₁ v₂ : Value} {is₁ is₂ js : List Instr}
    {C : CellNames} {c : Cpu} {op : BinaryOp} {pos : Position} {Q : Int64 → Cpu → Prop}
    (hown : v₁.Own s.registers s₁.registers) (he : s.registers.Evolves s₁.registers)
    (hl : Yields P t is₁ c c.output (Answered s.registers s₁.registers c v₁)
      (l.value? (C.store c.cells)))
    (hr : ∀ c, Yields P t is₂ c c.output (Answered s₁.registers s₂.registers c v₂)
      (r.value? (C.store c.cells)))
    (hnext : ∀ a b c', Carried s.registers s₂.registers c c' →
      c'.read (s₂.registers.operand v₁) = a → c'.read (s₂.registers.operand v₂) = b →
      Yields P t js c' c.output Q (op.result? a b)) :
    Yields P t (is₁ ++ (is₂ ++ js)) c c.output Q
      ((Expr.binary pos op l r).value? (C.store c.cells)) := by
  refine hl.bind fun a c₁ ⟨hc₁, ha⟩ => ?_
  have hr₁ := hr c₁
  rw [hc₁.cells, hc₁.output] at hr₁
  refine hr₁.bind fun b c₂ ⟨hc₂, hb⟩ => ?_
  exact hnext a b c₂ (hc₁.trans he hc₂) ((hc₂.read_operand hown.live).trans ha) hb

theorem translated_arith {pos : Position} {op : BinaryOp} {arith : Asm.ArithOp} {l r : Expr}
    (hop : arithOp? op = some arith) {s s₁ s₂ s₃ : Session} {v₁ v₂ : Value} {k : Handle}
    (hl : Translated P t l v₁ s s₁) (hr : Translated P t r v₂ s₁ s₂)
    (hk : (Gen.intoRegister v₁).run s₂ = .ok k s₃) :
    Translated P t (.binary pos op l r) (.reg k) s
      (s₃.push (.instr
        (.arith arith (s₃.registers.operand v₂) (s₃.registers.operand (.reg k))))) := by
  obtain ⟨he₁, hown₁, is₁, hem₁, hd₁⟩ := hl
  obtain ⟨he₂, hown₂, is₂, hem₂, hd₂⟩ := hr
  obtain ⟨he₃, hown₃, is₃, hem₃, hd₃⟩ :=
    intoRegister_spec (P := P) (t := t) (he₁.trans he₂) (hown₁.evolves he₂) hk
  refine ⟨(he₁.trans he₂).trans he₃, hown₃, _,
    hem₁.trans (hem₂.trans (hem₃.trans (.push s₃ _))), fun C hC c => ?_⟩
  have hC₂ : s₂.cells <+: C := hem₃.cells.trans hC
  refine yields_operands hown₁ he₁ (hd₁ C (hem₂.cells.trans hC₂) c) (hd₂ C hC₂)
    fun a b c₂ hc₂ ha hb => ?_
  obtain ⟨c₃, hx₃, hc₃, hv₃⟩ := hd₃ c₂
  refine Yields.after hx₃ ?_
  have hb₃ : c₃.read (s₃.registers.operand v₂) = b :=
    (hc₃.read_operand hown₂.live).trans hb
  have ha₃ : c₃.regs (s₃.registers.place k) = a := hv₃.trans ha
  rw [result?_of_arithOp? hop]
  refine ⟨{ c₃ with zero := arith.flag P c₃ (arith.apply a b) }.setReg (s₃.registers.place k)
    (arith.apply a b), ?_, ?_, ?_⟩
  · simp only [Asm.execAll]
    rw [show s₃.registers.operand (.reg k) = .reg (s₃.registers.place k) from rfl,
      Asm.exec_arith_reg, ha₃, hb₃]
  · exact ((hc₂.trans (he₁.trans he₂) hc₃).setFlag _).setOwn ((he₁.trans he₂).trans he₃) hown₃ _
  · exact Cpu.regs_setReg_self _ _ _

/-- The steps of a division. -/
theorem run_divide_ok {l r v : Value} {s s' : Session}
    (h : (Gen.divide t l r).run s = .ok v s') :
    ∃ st st', s.registers.bind t.dividendReg = .ok st
      ∧ st.registers.nonImmediate r = .ok st' ∧ v = .reg st.result
      ∧ s'.registers = st'.registers ∧ Emits s s' (st.instrs
        ++ ([.move (st.registers.operand l) (st.registers.operand (.reg st.result)), .signExtend]
          ++ (st'.instrs ++ [.divide (st'.registers.operand st'.result)]))) := by
  unfold Gen.divide at h
  obtain ⟨_, m, hbind, h⟩ := Gen.run_bind_ok.1 h
  obtain ⟨st, hst, rfl, rfl⟩ := Gen.run_bindTo_ok hbind
  simp only [Gen.run_operand_bind, Gen.run_instr_bind] at h
  obtain ⟨_, _, hdiv, hret⟩ := Gen.run_bind_ok.1 h
  obtain ⟨st', hst', rfl, rfl⟩ := Gen.run_nonImmediate_ok hdiv
  cases hret
  refine ⟨st, st', hst, hst', rfl, rfl, ?_⟩
  exact (Emits.commit s st).trans (((Emits.push _ _).trans (.push _ _)).trans
    ((Emits.commit _ st').trans (.push _ _)))

theorem exec_divide_none {c : Cpu} {d : Asm.Operand} (hd : d.isImm = false) (hc : c.Extended)
    (h : quotient? (c.regs "rax") (c.read d) = none) :
    (Instr.divide d).exec P t c = .error .divideError := by
  simp only [Instr.exec, hd, Bool.false_eq_true, if_false]
  exact hc.divideBy_none h

theorem exec_divide_some {c : Cpu} {d : Asm.Operand} {q : Int64} (hd : d.isImm = false)
    (hc : c.Extended) (h : quotient? (c.regs "rax") (c.read d) = some q) :
    ∃ rem flag, (Instr.divide d).exec P t c
      = .ok { (c.setReg "rax" q).setReg "rdx" rem with zero := flag } := by
  simp only [Instr.exec, hd, Bool.false_eq_true, if_false]
  exact hc.divideBy_some h

/-- A division yields the quotient of its operands. Their values are kept, and so is every other. -/
theorem divide_spec (ht : t.Conventional) {l r v : Value} {s s' : Session}
    (hs : s.registers.Sound) (hpool : s.registers.pool = t.scratch) (hl : l.Live s.registers)
    (hr : r.Live s.registers) (h : (Gen.divide t l r).run s = .ok v s') :
    s.registers.Evolves s'.registers ∧ v.Own s.registers s'.registers
      ∧ ∃ is, Emits s s' is ∧ ∀ c, Yields P t is c c.output (Answered s.registers s'.registers c v)
        (quotient? (c.read (s.registers.operand l)) (c.read (s.registers.operand r))) := by
  obtain ⟨st, st', hst, hst', rfl, hregs, hem⟩ := run_divide_ok h
  rw [ht.dividend] at hst
  obtain ⟨heb, hownb, hplace, hxb⟩ := Registers.bind_spec (P := P) (t := t) hs
    (hpool ▸ ht.pooled) hst
  obtain ⟨hen, -, hsteady, himm, hxn⟩ :=
    Registers.nonImmediate_spec (P := P) (t := t) heb.sound (hr.evolves heb) hst'
  have hpoolb : st.registers.pool = t.scratch := heb.pool.trans hpool
  -- The result is in the dividend register from now on, and no value is where the remainder goes.
  have hrax : st'.registers.place st.result = "rax" := (hsteady _ hownb.1).trans hplace
  have hrdx : ∀ {r' : Registers} {k}, r'.Sound → r'.pool = t.scratch → r'.Live k →
      r'.place k ≠ "rdx" := by
    intro r' k hs hp hk he
    exact ht.remainder (hp ▸ he ▸ hs.pooled hk)
  have hown : (Value.reg st.result).Own s.registers st'.registers := ⟨hen.live hownb.1, hownb.2⟩
  rw [hregs]
  refine ⟨heb.trans hen, hown, _, hem, fun c => ?_⟩
  obtain ⟨c₁, hx₁, hc₁⟩ := hxb c
  refine Yields.after hx₁ ?_
  generalize ha : c.read (s.registers.operand l) = a
  have hv₁ : c₁.read (st.registers.operand l) = a := (hc₁.read_operand hl).trans ha
  have hc₂ : Carried s.registers st.registers c (c₁.setReg "rax" a).signExtend := by
    refine (hplace ▸ hc₁.setOwn heb hownb a).setReg ?_ _
    exact fun hk => hrdx heb.sound hpoolb (heb.live hk)
  have hrax₂ : (c₁.setReg "rax" a).signExtend.regs "rax" = a :=
    (Cpu.regs_setReg_of_ne _ _ (by decide)).trans (c₁.regs_setReg_self _ _)
  refine Yields.after (d := (c₁.setReg "rax" a).signExtend) ?_ ?_
  · simp only [Asm.execAll, Registers.operand.eq_3, hplace, Asm.exec_move_reg, hv₁]
    rfl
  obtain ⟨c₃, hx₃, hc₃, hv₃, hout₃⟩ := hxn (c₁.setReg "rax" a).signExtend
  refine Yields.after hx₃ ?_
  have hdivisor : c₃.read (st'.registers.operand st'.result) = c.read (s.registers.operand r) :=
    hv₃.trans (hc₂.read_operand hr)
  have hrax₃ : c₃.regs "rax" = a := by
    have := hc₃.regs hownb.1
    rwa [hrax, hplace, hrax₂] at this
  have hext : c₃.Extended := by
    have h₂ := Cpu.extended_signExtend (c₁.setReg "rax" a)
    unfold Cpu.Extended at h₂ ⊢
    rw [hout₃ "rdx" (hpoolb ▸ ht.remainder), h₂, hrax₂, hrax₃]
  have hc : Carried s.registers st'.registers c c₃ := hc₂.trans heb hc₃
  rw [← hrax₃, ← hdivisor]
  cases hq : quotient? (c₃.regs "rax") (c₃.read (st'.registers.operand st'.result)) with
  | none =>
    refine ⟨c₃, ?_, hc.output⟩
    simp only [Asm.execAll, exec_divide_none himm hext hq]
  | some q =>
    obtain ⟨rem, flag, hx⟩ := exec_divide_some (P := P) (t := t) himm hext hq
    refine ⟨{ (c₃.setReg "rax" q).setReg "rdx" rem with zero := flag }, ?_, ?_, ?_⟩
    · simp only [Asm.execAll, hx]
    · refine ((hrax ▸ hc.setOwn (heb.trans hen) hown q).setReg ?_ rem).setFlag flag
      exact fun hk => hrdx hen.sound (hen.pool.trans hpoolb) (hen.live (heb.live hk))
    · change ((c₃.setReg "rax" q).setReg "rdx" rem).regs (st'.registers.place st.result) = q
      rw [hrax, Cpu.regs_setReg_of_ne _ _ (by decide), Cpu.regs_setReg_self]

theorem translated_divide (ht : t.Conventional) {pos : Position} {l r : Expr}
    {s s₁ s₂ s₃ : Session} {v₁ v₂ v : Value} (hpool : s.registers.pool = t.scratch)
    (hl : Translated P t l v₁ s s₁) (hr : Translated P t r v₂ s₁ s₂)
    (h : (Gen.divide t v₁ v₂).run s₂ = .ok v s₃) :
    Translated P t (.binary pos .div l r) v s s₃ := by
  obtain ⟨he₁, hown₁, is₁, hem₁, hd₁⟩ := hl
  obtain ⟨he₂, hown₂, is₂, hem₂, hd₂⟩ := hr
  have he₁₂ := he₁.trans he₂
  obtain ⟨he₃, hown₃, is₃, hem₃, hd₃⟩ := divide_spec (P := P) ht he₁₂.sound
    (he₁₂.pool.trans hpool) (hown₁.live.evolves he₂) hown₂.live h
  refine ⟨he₁₂.trans he₃, hown₃.before he₁₂, _, hem₁.trans (hem₂.trans hem₃), fun C hC c => ?_⟩
  have hC₂ : s₂.cells <+: C := hem₃.cells.trans hC
  refine yields_operands hown₁ he₁ (hd₁ C (hem₂.cells.trans hC₂) c) (hd₂ C hC₂)
    fun a b c₂ hc₂ ha hb => ?_
  have hd := hd₃ c₂
  rw [ha, hb, hc₂.output] at hd
  exact hd.mono fun w c₃ ⟨hc₃, hw⟩ => ⟨hc₂.trans he₁₂ hc₃, hw⟩

/-- The code of an expression computes its value in any session with a sound register file. -/
theorem expr_spec (ht : t.Conventional) : ∀ (e : Expr) {s s' : Session} {v : Value},
    s.registers.Sound → s.registers.pool = t.scratch → (Gen.expr t e).run s = .ok v s' →
      Translated P t e v s s'
  | .int pos w, s, s', v, hs, _, h => by
    cases h
    exact translated_of_imm (fun _ => rfl) hs
  | .bool pos true, s, s', v, hs, _, h => by
    cases h
    exact translated_of_imm (fun _ => rfl) hs
  | .bool pos false, s, s', v, hs, _, h => by
    cases h
    exact translated_of_imm (fun _ => rfl) hs
  | .var ref, s, s', v, hs, _, h => by
    rw [Gen.expr] at h
    obtain ⟨x, s₁, hcell, hret⟩ := Gen.run_bind_ok.1 h
    cases hret
    exact translated_var hs hcell
  | .unary pos op x, s, s', v, hs, hpool, h => by
    rw [Gen.expr] at h
    split at h
    · cases h
    · rename_i f hop
      obtain ⟨v₁, s₁, hx, h⟩ := Gen.run_bind_ok.1 h
      obtain ⟨k, s₂, hk, h⟩ := Gen.run_bind_ok.1 h
      cases h
      exact translated_unary hop (expr_spec ht x hs hpool hx) hk
  | .binary pos op l r, s, s', v, hs, hpool, h => by
    by_cases hop : op = .div
    · subst hop
      rw [Gen.expr] at h
      obtain ⟨v₁, s₁, hl, h⟩ := Gen.run_bind_ok.1 h
      obtain ⟨v₂, s₂, hr, h⟩ := Gen.run_bind_ok.1 h
      have hl' := expr_spec ht l hs hpool hl
      have hr' := expr_spec ht r hl'.1.sound (hl'.1.pool.trans hpool) hr
      exact translated_divide ht hpool hl' hr' h
    · rw [Gen.expr] at h
      · split at h
        · cases h
        · rename_i arith harith
          obtain ⟨v₁, s₁, hl, h⟩ := Gen.run_bind_ok.1 h
          obtain ⟨v₂, s₂, hr, h⟩ := Gen.run_bind_ok.1 h
          obtain ⟨k, s₃, hk, h⟩ := Gen.run_bind_ok.1 h
          cases h
          have hl' := expr_spec ht l hs hpool hl
          have hr' := expr_spec ht r hl'.1.sound (hl'.1.pool.trans hpool) hr
          exact translated_arith harith hl' hr' hk
      · exact hop
  | .gap g, s, s', v, _, _, h => by cases h

end Code

end Lowering

end WhileAsm
