import WhileAsm.Proofs.Immediates
import WhileAsm.Proofs.LoopCode

/-!
# Numbers that are read and written

A cell is a word of 64 bits, and both formats are those of a number of 32 bits. A routine with such
a format stores to the lower half of the cell that it is given, or writes the lower half of its
argument (`Cpu.scanHalf`, `Cpu.printHalf`). All other instructions work on words.

Every call of a listing belongs to a variable that is read or to an expression that is written, in
the order of the program (`Threads`). What is read is put together with the upper half that the cell
had before, and of what is written the upper half is lost (`transfers_halves`). So a number is read
as it is only if the upper half of the cell happens to be its sign, and a value is written as it is
only if it is a number of 32 bits.
-/

namespace WhileAsm

namespace Asm

/-! ## Halves of a word -/

/-- The word with the upper half of `old` and the lower half `v`. -/
def withLow (old : Int64) (v : Int32) : Int64 :=
  .ofBitVec (old.toBitVec.extractLsb' 32 32 ++ v.toBitVec)

/-- The lower half of a word, as a number of its own. -/
def lowHalf (w : Int64) : Int64 := w.toInt32.toInt64

theorem toInt_upperHalf (x : BitVec 64) : (x.extractLsb' 32 32).toInt = x.toInt / 2 ^ 32 := by
  have hlt := x.isLt
  have hnat : (x.extractLsb' 32 32).toNat = x.toNat / 2 ^ 32 := by
    rw [BitVec.extractLsb'_toNat, Nat.shiftRight_eq_div_pow]
    omega
  rw [BitVec.toInt_eq_toNat_cond, BitVec.toInt_eq_toNat_cond, hnat]
  split_ifs <;> omega

theorem toInt_withLow (old : Int64) (v : Int32) :
    (withLow old v).toInt = 2 ^ 32 * (old.toInt / 2 ^ 32) + v.toBitVec.toNat := by
  have happend := BitVec.toInt_append (x := old.toBitVec.extractLsb' 32 32) (y := v.toBitVec)
  rw [toInt_upperHalf] at happend
  exact happend

/-- The upper half of `old` is the sign of `v`. -/
def SignAbove (old : Int64) (v : Int32) : Prop :=
  (0 ≤ v.toInt ∧ 0 ≤ old.toInt ∧ old.toInt < 2 ^ 32)
    ∨ (v.toInt < 0 ∧ -2 ^ 32 ≤ old.toInt ∧ old.toInt < 0)

theorem withLow_eq_iff {old : Int64} {v : Int32} :
    withLow old v = v.toInt64 ↔ SignAbove old v := by
  have hlt := v.toBitVec.isLt
  have hv : v.toInt = _ := BitVec.toInt_eq_toNat_cond v.toBitVec
  unfold SignAbove
  rw [← Int64.toInt_inj, Int32.toInt_toInt64, toInt_withLow]
  split_ifs at hv <;> omega

theorem lowHalf_eq_iff {w : Int64} : lowHalf w = w ↔ FitsShort w := by
  have hmod := Int.bmod_def w.toInt (2 ^ 32)
  unfold lowHalf FitsShort
  rw [← Int64.toInt_inj, Int32.toInt_toInt64, Int64.toInt_toInt32]
  split_ifs at hmod <;> omega

/-! ## Routines that transfer halves -/

/-- Puts the next number of the input into the lower half of the cell whose address is in the second
argument. -/
def Cpu.scanHalf (P : Platform) (c : Cpu) : Cpu :=
  { c.returned P with
    cells := fun x =>
      if P.address x = c.regs "rsi" then withLow (c.cells x) c.input.head.toInt32 else c.cells x
    input := c.input.tail }

def Cpu.printHalf (P : Platform) (c : Cpu) : Cpu :=
  { c.returned P with output := c.output ++ [lowHalf (c.regs "rsi")] }

def Cpu.callHalf (P : Platform) (t : Target) (c : Cpu) (function : String) : Except Trap Cpu :=
  if function = t.scanFunc ∧ c.CalledWith P t.readFormat then .ok (c.scanHalf P)
  else if function = t.printFunc ∧ c.CalledWith P t.writeFormat then .ok (c.printHalf P)
  else .error .illegal

def Instr.execHalf (P : Platform) (t : Target) (c : Cpu) : Instr → Except Trap Cpu
  | .call f => c.callHalf P t f
  | i => i.exec P t c

def execAllHalf (P : Platform) (t : Target) : List Instr → Cpu → Except (Trap × Cpu) Cpu
  | [], c => .ok c
  | i :: is, c =>
    match i.execHalf P t c with
    | .ok c => execAllHalf P t is c
    | .error e => .error (e, c)

section Halves

variable {P : Platform} {t : Target} {is js : List Instr} {c c' : Cpu}

theorem execHalf_of_routine {i : Instr} (h : i.routine? = none) :
    i.execHalf P t c = i.exec P t c := by
  cases i with
  | call f => cases h
  | _ => rfl

theorem execAllHalf_cons_ok {i : Instr} (h : i.execHalf P t c = .ok c') :
    execAllHalf P t (i :: is) c = execAllHalf P t is c' := by
  simp only [execAllHalf, h]

/-- Code that calls no routine does the same on both machines. -/
theorem execAllHalf_append (hq : ∀ i ∈ is, i.routine? = none) :
    execAllHalf P t (is ++ js) c = (execAll P t is c).bind (execAllHalf P t js) := by
  induction is generalizing c with
  | nil => rfl
  | cons i is ih =>
    rw [List.forall_mem_cons] at hq
    simp only [execAll, List.cons_append, execAllHalf, execHalf_of_routine hq.1]
    cases i.exec P t c with
    | ok d => exact ih hq.2
    | error e => rfl

end Halves

end Asm

/-! ## Transfers of a program -/

inductive Transfer where
  | read (d : Decl)
  | write (e : Expr)

mutual

/-- The transfers of a statement, in the order in which they are written down. -/
def Stmt.transfers : Stmt → List Transfer
  | .block b => b.transfers
  | .read _ refs => (refs.flatMap VarRef.meant).map .read
  | .write _ es => es.map .write
  | .loop _ _ (some b) => b.transfers
  | _ => []

def Block.transfers : Block → List Transfer
  | .mk _ ss => Stmt.transfersOf ss

def Stmt.transfersOf : List Stmt → List Transfer
  | [] => []
  | s :: ss => s.transfers ++ Stmt.transfersOf ss

end

def Program.transfers (p : Program) : List Transfer := (p.block.map Block.transfers).getD []

namespace Lowering

open Asm (Cpu FitsShort Instr Line Platform SignAbove Target execAllHalf lowHalf withLow)

/-- What the code `is` of a transfer does, from any processor. A number that is read replaces the
lower half of the variable. Of a value that is written, the lower half is written; the code faults
where there is no value. -/
def Conveys (P : Platform) (t : Target) (C : CellNames) (is : List Instr) : Transfer → Prop
  | .read d => ∀ (c : Cpu) (v : Int32), c.input.head = v.toInt64 →
    ∃ c', execAllHalf P t is c = .ok c' ∧ c'.input = c.input.tail ∧ c'.output = c.output
      ∧ c'.stack = c.stack
      ∧ C.store c'.cells
        = Function.update (C.store c.cells) d.place (withLow (C.store c.cells d.place) v)
      ∧ (C.store c'.cells d.place = v.toInt64 ↔ SignAbove (C.store c.cells d.place) v)
  | .write e => ∀ c : Cpu, match e.value? (C.store c.cells) with
    | none => ∃ c', execAllHalf P t is c = .error (.divideError, c') ∧ c'.output = c.output
    | some w => ∃ c', execAllHalf P t is c = .ok c' ∧ c'.cells = c.cells ∧ c'.input = c.input
      ∧ c'.stack = c.stack ∧ c'.output = c.output ++ [lowHalf w] ∧ (lowHalf w = w ↔ FitsShort w)

def Quiet (ls : List Line) : Prop := ∀ l ∈ ls, l.routine? = none

/-- Lines in which the code of some transfers stands one after the other, and no routine is called
in between. -/
inductive Threads (D : List Instr → Transfer → Prop) : List Transfer → List Line → Prop where
  | nil {ls} : Quiet ls → Threads D [] ls
  | cons {tr trs gap is ls} : Quiet gap → D is tr → Threads D trs ls →
    Threads D (tr :: trs) (gap ++ (is.map .instr ++ ls))

section Threads

variable {D : List Instr → Transfer → Prop} {trs trs' : List Transfer} {ls ls' : List Line}

theorem Quiet.append (h : Quiet ls) (h' : Quiet ls') : Quiet (ls ++ ls') := by
  intro l hl
  rcases List.mem_append.1 hl with hl | hl
  · exact h l hl
  · exact h' l hl

theorem Threads.quiet_append (hq : Quiet ls) (h : Threads D trs ls') :
    Threads D trs (ls ++ ls') := by
  cases h with
  | nil hq' => exact .nil (hq.append hq')
  | cons hgap hD hrest =>
    rw [← List.append_assoc]
    exact .cons (hq.append hgap) hD hrest

theorem Threads.append (h : Threads D trs ls) (h' : Threads D trs' ls') :
    Threads D (trs ++ trs') (ls ++ ls') := by
  induction h with
  | nil hq => exact h'.quiet_append hq
  | cons hgap hD _ ih =>
    rw [List.append_assoc, List.append_assoc]
    exact .cons hgap hD ih

theorem Threads.single {is : List Instr} {tr : Transfer} (h : D is tr) :
    Threads D [tr] (is.map .instr) := by
  have hnil : Quiet [] := fun _ h => absurd h List.not_mem_nil
  simpa using Threads.cons hnil h (.nil hnil)

end Threads

/-! ## Generation -/

structure Carries (P : Platform) (t : Target) (trs : List Transfer) (s s' : Session) : Prop where
  cells : s.cells <+: s'.cells
  code : ∃ ls, s'.code = s.code ++ ls ∧ ∀ C : CellNames, s'.cells <+: C →
    C.Apart P.address → Threads (Conveys P t C) trs ls

section Carries

variable {P : Platform} {t : Target} {trs trs' : List Transfer} {s s' s'' : Session}

theorem Carries.trans (h : Carries P t trs s s') (h' : Carries P t trs' s' s'') :
    Carries P t (trs ++ trs') s s'' := by
  obtain ⟨ls, hls, hthreads⟩ := h.code
  obtain ⟨ms, hms, hthreads'⟩ := h'.code
  refine ⟨h.cells.trans h'.cells, ls ++ ms, by rw [hms, hls, List.append_assoc], ?_⟩
  intro C hC hP
  exact (hthreads C (h'.cells.trans hC) hP).append (hthreads' C hC hP)

theorem Carries.quiet {ls : List Line} (hcells : s.cells <+: s'.cells)
    (hcode : s'.code = s.code ++ ls) (hq : Quiet ls) : Carries P t [] s s' :=
  ⟨hcells, ls, hcode, fun _ _ _ => .nil hq⟩

theorem Carries.refl (s : Session) : Carries P t [] s s :=
  .quiet List.prefix_rfl (List.append_nil _).symm (by simp [Quiet])

theorem Carries.push {l : Line} (hl : l.routine? = none) : Carries P t [] s (s.push l) :=
  .quiet List.prefix_rfl (Session.code_push s l) fun _ h => List.mem_singleton.1 h ▸ hl

theorem Carries.freeAll (h : Carries P t trs s s') :
    Carries P t trs s (s'.commit s'.registers.freeAll) := by
  obtain ⟨ls, hls, hthreads⟩ := h.code
  exact ⟨h.cells, ls, by simpa [Registers.freeAll] using hls, hthreads⟩

theorem Computation.routine? {i : Instr} (h : Computation t i) : i.routine? = none := by
  cases h <;> rfl

theorem quiet_of_computing (h : Grown t (Computing t) s s') :
    ∃ ls, s'.code = s.code ++ ls ∧ Quiet ls := by
  obtain ⟨ps, hps, hcomp⟩ := h.code
  refine ⟨_, hps, fun l hl => ?_⟩
  obtain ⟨p, hp, hl⟩ := List.mem_flatten.1 hl
  obtain ⟨i, rfl, hi⟩ := hcomp p hp
  rw [List.mem_singleton.1 hl]
  exact hi.routine?

theorem Carries.computing (hcells : s.cells <+: s'.cells) (h : Grown t (Computing t) s s') :
    Carries P t [] s s' := by
  obtain ⟨ls, hls, hq⟩ := quiet_of_computing h
  exact .quiet hcells hls hq

theorem execAllHalf_call {f format : String} {c c' : Cpu} {v : Int64}
    (h : (atCall P c v format).callHalf P t f = .ok c') :
    execAllHalf P t [.loadAddress format "rdi", .clear "rax", .call f] (c.setReg "rsi" v)
      = .ok c' := by
  have hclear :
      (Instr.clear "rax").execHalf P t ((c.setReg "rsi" v).setReg "rdi" (P.address format))
        = .ok (atCall P c v format) := rfl
  have hcall : (Instr.call f).execHalf P t (atCall P c v format) = .ok c' := h
  rw [Asm.execAllHalf_cons_ok rfl, Asm.execAllHalf_cons_ok hclear, Asm.execAllHalf_cons_ok hcall]
  rfl

theorem callHalf_scan (c : Cpu) (v : Int64) :
    (atCall P c v t.readFormat).callHalf P t t.scanFunc
      = .ok ((atCall P c v t.readFormat).scanHalf P) :=
  if_pos ⟨rfl, calledWith_atCall c v _⟩

theorem callHalf_print (ht : t.Conventional) (c : Cpu) (v : Int64) :
    (atCall P c v t.writeFormat).callHalf P t t.printFunc
      = .ok ((atCall P c v t.writeFormat).printHalf P) := by
  unfold Cpu.callHalf
  rw [if_neg fun h => ht.routines h.1.symm, if_pos ⟨rfl, calledWith_atCall c v _⟩]

theorem store_scanHalf {C : CellNames} (hP : C.Apart P.address) {p : Path}
    {x : String} (hx : C.find? p = some x) {c : Cpu} {v : Int32} (hv : c.input.head = v.toInt64)
    (format : String) :
    C.store ((atCall P c (P.address x) format).scanHalf P).cells
      = Function.update (C.store c.cells) p (withLow (C.store c.cells p) v) := by
  have hcells : ((atCall P c (P.address x) format).scanHalf P).cells
      = fun y => if P.address y = P.address x then withLow (c.cells y) v else c.cells y := by
    unfold Cpu.scanHalf
    rw [argument_atCall]
    change (fun y => if P.address y = P.address x then withLow (c.cells y) c.input.head.toInt32
      else c.cells y) = _
    rw [hv, Int32.toInt32_toInt64]
  rw [hcells, CellNames.store_scan hP hx, CellNames.store_of_find? hx]

theorem carries_readVar (ht : t.Conventional) {ref : Option VarRef}
    (h : (Gen.readVar t ref).run s = .ok () s') :
    Carries P t ((VarRef.meant ref).map .read) s s' := by
  obtain ⟨n, d, pos, x, rfl, hfind, -, hem⟩ := run_readVar_ok ht h
  refine ⟨hem.cells, _, hem.code, fun C hC hP => .single fun c v hv => ?_⟩
  have hstore := store_scanHalf hP (CellNames.find?_of_prefix hC hfind) hv t.readFormat
  refine ⟨(atCall P c (P.address x) t.readFormat).scanHalf P, ?_, rfl, rfl, rfl, hstore, ?_⟩
  · exact execAllHalf_call (callHalf_scan c _)
  · rw [hstore, Function.update_self, Asm.withLow_eq_iff]

theorem carries_writeExpr (ht : t.Conventional) {e : Expr} (hs : s.Ready t)
    (hp : s.Pooled t) (h : (Gen.writeExpr t e).run s = .ok () s') :
    Carries P t [.write e] s s' := by
  obtain ⟨v, s₁, hv, -, hcells, hem⟩ := run_writeExpr_ok ht h
  obtain ⟨he, hown, is, hem₁, hd⟩ := expr_spec (P := P) ht e hs.sound hs.pool hv
  have hquiet : ∀ i ∈ is, i.routine? = none := by
    obtain ⟨ls, hls, hq⟩ := quiet_of_computing ((ends_expr ht e hp).ok hv).1
    obtain rfl := List.append_cancel_left (hls.symm.trans hem₁.code)
    exact fun i hi => hq (.instr i) (List.mem_map_of_mem hi)
  have hem' := hem₁.trans hem
  refine ⟨hem'.cells, _, hem'.code, fun C hC hP => .single fun c => ?_⟩
  -- Up to the value, the code runs as it does on a machine that transfers words.
  have hy := hd C (hcells ▸ hC) c
  cases hw : e.value? (C.store c.cells) with
  | none =>
    rw [hw] at hy
    obtain ⟨c', hx, hout⟩ := hy
    exact ⟨c', by rw [Asm.execAllHalf_append hquiet, hx]; rfl, hout⟩
  | some w =>
    rw [hw] at hy
    obtain ⟨c₁, hx, hc₁, ha⟩ := hy
    refine ⟨(atCall P c₁ w t.writeFormat).printHalf P, ?_, hc₁.cells, hc₁.input, hc₁.stack, ?_,
      Asm.lowHalf_eq_iff⟩
    · have hmove : (Instr.move (s₁.registers.operand v) (.reg "rsi")).execHalf P t c₁
          = .ok (c₁.setReg "rsi" w) := by
        rw [Asm.execHalf_of_routine rfl, Asm.exec_move_reg, ha]
      rw [Asm.execAllHalf_append hquiet, hx, Except.bind, Asm.execAllHalf_cons_ok hmove]
      exact execAllHalf_call (callHalf_print ht c₁ _)
    · change c₁.output ++ [lowHalf ((atCall P c₁ w t.writeFormat).regs "rsi")] = _
      rw [argument_atCall, hc₁.output]

theorem carries_readVars (ht : t.Conventional) : ∀ (refs : List (Option VarRef)) {s s' : Session},
    (Gen.readVars t refs).run s = .ok () s' →
      Carries P t ((refs.flatMap VarRef.meant).map .read) s s'
  | [], s, s', h => by
    cases h
    exact .refl s
  | ref :: refs, s, s', h => by
    rw [Gen.readVars] at h
    obtain ⟨_, s₁, href, hrefs⟩ := Gen.run_bind_ok.1 h
    rw [List.flatMap_cons, List.map_append]
    exact (carries_readVar ht href).trans (carries_readVars ht refs hrefs)

theorem carries_writeExprs (ht : t.Conventional) : ∀ (es : List Expr) {s s' : Session},
    s.Ready t → s.Pooled t → (Gen.writeExprs t es).run s = .ok () s' →
      Carries P t (es.map .write) s s'
  | [], s, s', _, _, h => by
    cases h
    exact .refl s
  | e :: es, s, s', hs, hp, h => by
    rw [Gen.writeExprs] at h
    obtain ⟨_, s₁, he, hes⟩ := Gen.run_bind_ok.1 h
    have hready := (writeExpr_spec (P := P) ht hs he).ready
    have hpooled := ((ends_writeExpr ht hp e).ok he).1.pooled
    exact (carries_writeExpr ht hs hp he).trans (carries_writeExprs ht es hready hpooled hes)

/-- What is around the body of a loop calls no routine. -/
theorem carries_loop (ht : t.Conventional) {cond : Expr} {s₁ s₂ : Session} {v : Value}
    {st : Step Value} (hs : s.Ready t) (hp : s.Pooled t)
    (hv : (Gen.expr t cond).run s.loopHead = .ok v s₁)
    (hst : s₁.registers.nonImmediate v = .ok st)
    (hbody : (s₁.loopBody st (labelAt (s.labels + 1))).Ready t →
      (s₁.loopBody st (labelAt (s.labels + 1))).Pooled t →
        Carries P t trs (s₁.loopBody st (labelAt (s.labels + 1))) s₂) :
    Carries P t trs s (s₂.loopEnd (labelAt s.labels) (labelAt (s.labels + 1))) := by
  obtain ⟨hgrown, hknown⟩ := Ends.ok (ends_expr ht cond (s := s.loopHead) hp) hv
  obtain ⟨hgrants, -⟩ := grants_nonImmediate hgrown.pooled.registers hknown hst
  have hhead : Carries P t [] s s.loopHead :=
    .quiet List.prefix_rfl (Session.code_push _ _) (by simp [Quiet, Line.routine?])
  have hcond : Carries P t [] s.loopHead s₁ := .computing (straight_expr cond hv).1.cells hgrown
  have hemits := Emits.loopBody s₁ st (labelAt (s.labels + 1))
  have htest : Carries P t [] s₁ (s₁.loopBody st (labelAt (s.labels + 1))) := by
    refine .quiet hemits.cells hemits.code fun l hl => ?_
    obtain ⟨i, hi, rfl⟩ := List.mem_map.1 hl
    simp only [List.mem_append, List.mem_singleton] at hi
    rcases hi with (hi | rfl) | rfl
    · exact (hgrants.instrs i hi).routine?
    · rfl
    · rfl
  have hend : Carries P t [] s₂ (s₂.loopEnd (labelAt s.labels) (labelAt (s.labels + 1))) :=
    (Carries.push rfl).trans (.push rfl)
  have hready := (loopBody_spec P ht hs hv hst).1
  have hpooled : (s₁.loopBody st (labelAt (s.labels + 1))).Pooled t :=
    ⟨⟨hgrants.pooled.pool, hgrants.pooled.places⟩, hgrown.pooled.named, hgrown.pooled.used⟩
  have hall := hhead.trans (hcond.trans (htest.trans
    ((hbody hready hpooled).trans hend)))
  simpa using hall

mutual

theorem carries_stmt (ht : t.Conventional) : ∀ (st : Stmt) {s s' : Session}, s.Ready t →
    s.Pooled t → (Gen.stmt t st).run s = .ok () s' → Carries P t st.transfers s s'
  | .block b, s, s', hs, hp, h => by
    rw [Gen.stmt] at h
    rw [Stmt.transfers]
    exact carries_block ht b hs hp h
  | .decl d, s, s', _, _, h => by
    cases h
    exact .refl s
  | .assign pos target source, s, s', _, hp, h => by
    rw [Gen.stmt] at h
    exact .computing (straight_assign h).cells ((ends_assign ht hp target source).ok h).1
  | .read pos refs, s, s', _, _, h => by
    rw [Gen.stmt] at h
    rw [Stmt.transfers]
    exact carries_readVars ht refs h
  | .write pos es, s, s', hs, hp, h => by
    rw [Gen.stmt] at h
    rw [Stmt.transfers]
    exact carries_writeExprs ht es hs hp h
  | .loop pos cond none, s, s', _, _, h => by
    obtain ⟨v, s₁, st, s₂, hv, hst, hb, rfl⟩ := run_loop_ok h
    cases hb
  | .loop pos cond (some b), s, s', hs, hp, h => by
    obtain ⟨v, s₁, st, s₂, hv, hst, hb, rfl⟩ := run_loop_ok h
    rw [Gen.blockOf] at hb
    rw [Stmt.transfers]
    exact carries_loop ht hs hp hv hst fun hs hp => carries_block ht b hs hp hb
  | .gap g, s, s', _, _, h => by cases h

theorem carries_block (ht : t.Conventional) : ∀ (b : Block) {s s' : Session}, s.Ready t →
    s.Pooled t → (Gen.block t b).run s = .ok () s' → Carries P t b.transfers s s'
  | .mk pos ss, s, s', hs, hp, h => by
    rw [Gen.block] at h
    obtain ⟨_, s₁, hss, h⟩ := Gen.run_bind_ok.1 h
    cases h
    rw [Block.transfers]
    exact (carries_stmts ht ss hs hp hss).freeAll

theorem carries_stmts (ht : t.Conventional) : ∀ (ss : List Stmt) {s s' : Session}, s.Ready t →
    s.Pooled t → (Gen.stmts t ss).run s = .ok () s' →
      Carries P t (Stmt.transfersOf ss) s s'
  | [], s, s', _, _, h => by
    cases h
    rw [Stmt.transfersOf]
    exact .refl s
  | st :: ss, s, s', hs, hp, h => by
    rw [Gen.stmts] at h
    obtain ⟨_, s₁, hst, hss⟩ := Gen.run_bind_ok.1 h
    rw [Stmt.transfersOf]
    have hready := (stmt_spec (P := P) ht st hs hst).ready
    have hpooled := ((ends_stmt ht st hp).ok hst).1.pooled
    exact (carries_stmt ht st hs hp hst).trans (carries_stmts ht ss hready hpooled hss)

end

end Carries

theorem eq_ok_of_toOption {ε α : Type} {x : Except ε α} {a : α} (h : x.toOption = some a) :
    x = .ok a := by
  cases x with
  | ok b => exact congrArg _ (Option.some.inj h)
  | error e => cases h

theorem generate_of_generated {t : Target} {p : Option Program} {s : Session}
    (h : generated t p = .ok s) : ∃ text, generate t p = .ok text := by
  unfold generated at h
  unfold generate
  cases hrun : (Gen.program t p).run (.start t) with
  | ok text s' => exact ⟨text, rfl⟩
  | error e s' =>
    rw [hrun] at h
    cases h

/-- The calls of a listing are those of the transfers of its program, one after the other. A number
that is read replaces the lower half of its variable, so that the variable has the number exactly if
the upper half was its sign; and of a value the lower half is written, which is the value exactly if
it is a number of 32 bits. -/
theorem transfers_halves {os : Asm.OS} {p : Program} {text : String}
    (h : generate (.x86_64 os) (some p) = .ok text) :
    ∃ s, generated (.x86_64 os) (some p) = .ok s ∧ text = Asm.listingText s.code
      ∧ Asm.readListing text = some s.code
      ∧ ∀ P : Platform, Set.InjOn P.address {x | .cell x ∈ s.code} →
        Threads (Conveys P (.x86_64 os) s.cells) p.transfers s.code := by
  obtain ⟨b, s₁, s, hblock, hrun, hgen, htext, hcode, hcells⟩ := generate_ok h
  refine ⟨s, hgen, htext, read_generate h hgen, fun P hP => ?_⟩
  have hready := ready_entered (entryPoint_ne_labelAt os)
  have hpooled : (Session.entered (.x86_64 os)).Pooled (.x86_64 os) := pooled_start _
  obtain ⟨ls, hls, hthreads⟩ :=
    (carries_block (P := P) (Asm.Target.conventional_x86_64 os) b hready hpooled hrun).code
  have hapart : s.cells.Apart P.address := by
    rw [hcells]
    refine ⟨(refines_entered hrun).cells_distinct, hP.mono fun x hx => ?_⟩
    rw [hcode]
    exact mem_listing_cell hrun hx
  have hbody := hthreads s.cells (hcells ▸ List.prefix_rfl) hapart
  have hfront : Quiet (prologue (.x86_64 os)) := by
    simp [Quiet, prologue, Line.routine?, Instr.routine?]
  have hback : Quiet (epilogue (.x86_64 os) s₁.used) := by
    simp [Quiet, epilogue, Gen.dataLines, Line.routine?, Instr.routine?, or_imp, forall_and]
  have htransfers : p.transfers = b.transfers ++ [] := by simp [Program.transfers, hblock]
  rw [hcode, hls, htransfers]
  exact (hbody.quiet_append hfront).append (.nil hback)

theorem transfers_halves_countdown :
    ∃ text s, generate (.x86_64 .linux) (some countdown) = .ok text
      ∧ generated (.x86_64 .linux) (some countdown) = .ok s
      ∧ Asm.readListing text = some s.code
      ∧ Set.InjOn splitPlatform.address {x | .cell x ∈ s.code}
      ∧ countdown.transfers.length = 2
      ∧ Threads (Conveys splitPlatform (.x86_64 .linux) s.cells) countdown.transfers s.code := by
  have hok : (generate (.x86_64 .linux) (some countdown)).isOk := by decide +kernel
  cases hgen : generate (.x86_64 .linux) (some countdown) with
  | error e =>
    rw [hgen] at hok
    cases hok
  | ok text =>
    obtain ⟨s, hs, -, hread, hthreads⟩ := transfers_halves hgen
    have hinj := injOn_countdown hs
    exact ⟨text, s, rfl, hs, hread, hinj, rfl, hthreads splitPlatform hinj⟩

/-- Reads `x`, and writes a number that has more than 32 bits. -/
def wideTransfers : String :=
  "declarations:\n- name: x\n  type: int\nstatements:\n- read:\n  - x\n" ++
    "- write:\n  - int: 4294967296\n"

def widePlace : Path := [.key "declarations", .index 0]

def wideCode : List Instr :=
  [.moveAddress "_v1" "rsi", .loadAddress "READ" "rdi", .clear "rax", .call "scanf",
    .move (.imm 4294967296) (.reg "rsi"), .loadAddress "WRITE" "rdi", .clear "rax",
    .call "_printf"]

/-- A document that loads. If it is given the number -1, its program ends with that number in `x`,
and its code leaves another one there; and the number that it writes is not the one that its program
writes. -/
theorem transfers_lose_halves :
    ∃ p text s, load wideTransfers.toUTF8 = .ok p
      ∧ generate (.x86_64 .linux) (some p) = .ok text
      ∧ generated (.x86_64 .linux) (some p) = .ok s ∧ text = Asm.listingText s.code
      ∧ Asm.readListing text = some s.code
      ∧ s.code = prologue (.x86_64 .linux)
        ++ (wideCode.map .instr ++ epilogue (.x86_64 .linux) s.cells.names)
      ∧ (∃ store, p.Ends (Stream'.const (-1)) [4294967296] store ∧ store widePlace = -1)
      ∧ ∃ c, execAllHalf splitPlatform (.x86_64 .linux) wideCode
          (.start (fun _ => 0) false (Stream'.const (-1))) = .ok c
        ∧ c.output = [0] ∧ s.cells.store c.cells widePlace = 4294967295 := by
  have hprogram : (load wideTransfers.toUTF8).toOption.map (fun p =>
      (p.run 0 (Stream'.const (-1))).map fun
        | .done σ => (σ.output, σ.store widePlace)
        | .fault out => (out, 0))
      = some (some ([4294967296], -1)) := by
    decide +kernel
  have hsession : ((load wideTransfers.toUTF8).toOption.bind fun p =>
      (generated (.x86_64 .linux) (some p)).toOption.map fun s =>
        (s.code, s.cells.names, s.cells.find? widePlace))
      = some (prologue (.x86_64 .linux)
        ++ (wideCode.map .instr ++ epilogue (.x86_64 .linux) ["_v1"]), ["_v1"], some "_v1") := by
    decide +kernel
  have hcode : (execAllHalf splitPlatform (.x86_64 .linux) wideCode
      (.start (fun _ => 0) false (Stream'.const (-1)))).toOption.map
        (fun c => (c.output, c.cells "_v1"))
      = some ([0], 4294967295) := by
    decide +kernel
  obtain ⟨p, hp, hrun⟩ := Option.map_eq_some_iff.1 hprogram
  rw [hp] at hsession
  obtain ⟨s, hs, hfacts⟩ := Option.map_eq_some_iff.1 hsession
  obtain ⟨hlines, hcells⟩ := Prod.mk.inj hfacts
  obtain ⟨hnames, hfind⟩ := Prod.mk.inj hcells
  obtain ⟨c, hc, hresult⟩ := Option.map_eq_some_iff.1 hcode
  obtain ⟨houtput, hstored⟩ := Prod.mk.inj hresult
  have hs : generated (.x86_64 .linux) (some p) = .ok s := eq_ok_of_toOption hs
  obtain ⟨text, htext⟩ := generate_of_generated hs
  obtain ⟨-, -, s', -, -, hs', hlisting, -⟩ := generate_ok htext
  cases hs.symm.trans hs'
  refine ⟨p, text, s, eq_ok_of_toOption hp, htext, hs, hlisting, read_generate htext hs,
    hnames ▸ hlines, ?_, c, eq_ok_of_toOption hc, houtput,
    (CellNames.store_of_find? hfind).trans hstored⟩
  obtain ⟨o, ho, hends⟩ := Option.map_eq_some_iff.1 hrun
  cases o with
  | done σ =>
    obtain ⟨hout, hstore⟩ := Prod.mk.inj hends
    exact ⟨σ.store, ⟨0, σ, ho, hout, rfl⟩, hstore⟩
  | fault out => exact absurd (Prod.mk.inj hends).2 (by decide)

end Lowering

end WhileAsm
