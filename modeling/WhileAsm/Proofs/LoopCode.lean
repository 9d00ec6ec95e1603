import WhileAsm.Proofs.Layout
import WhileAsm.Proofs.Naming
import WhileAsm.Proofs.StmtCode

/-!
# The code of loops and what is between them

The code of an expression or of a statement without loops neither jumps nor defines a label; it
names the cells of variables and the formats, and calls the two routines (`Plain`). Generation goes
on by such code (`Straight`) until it comes to a loop, for which it draws two labels. So the labels
and jumps of the code of a block are those of its loops, laid out as the loops are in the tree
(`written_block`).
-/

namespace WhileAsm

namespace Asm

/-! ## Symbols -/

def Operand.symbols : Operand → List String
  | .mem x => [x]
  | _ => []

/-- The symbols that an instruction uses, but for the routine that it calls. -/
def Instr.symbols : Instr → List String
  | .move s t => s.symbols ++ t.symbols
  | .moveAddress x _ => [x]
  | .loadAddress x _ => [x]
  | .arith _ s t => s.symbols ++ t.symbols
  | .negate o => o.symbols
  | .divide o => o.symbols
  | .compare _ o => o.symbols
  | .jumpIfEqual x => [x]
  | .jump x => [x]
  | _ => []

def Line.symbols : Line → List String
  | .global x => [x]
  | .instr i => i.symbols
  | _ => []

/-- The routine that an instruction calls. -/
def Instr.routine? : Instr → Option String
  | .call f => some f
  | _ => none

def Line.routine? : Line → Option String
  | .instr i => i.routine?
  | _ => none

/-- The only symbol of a jump is the label that it goes to. -/
theorem target?_of_isControl {i : Instr} (h : (Line.instr i).isControl) {x : String}
    (hx : x ∈ i.symbols) : i.target? = some x := by
  cases i with
  | jumpIfEqual y => exact congrArg some (List.mem_singleton.1 hx).symm
  | jump y => exact congrArg some (List.mem_singleton.1 hx).symm
  | _ => cases h

theorem isControl_of_routine? {l : Line} {f : String} (h : l.routine? = some f) :
    l.isControl = false := by
  cases l with
  | instr i =>
    cases i with
    | call g => rfl
    | _ => cases h
  | _ => cases h

end Asm

namespace Lowering

open Asm (Instr Line Operand Target)

/-! ## Code without loops -/

/-- An instruction that does not jump, uses no symbols but cells and formats, and calls no routine
but those of the target. -/
structure Plain (t : Target) (c : CellNames) (i : Instr) : Prop where
  target : i.target? = none
  symbols : ∀ x ∈ i.symbols, x ∈ c.names ∨ x = t.readFormat ∨ x = t.writeFormat
  calls : ∀ f, i.routine? = some f → f = t.scanFunc ∨ f = t.printFunc

/-- A value that is in no cell, or in one of these. -/
def Value.Named (c : CellNames) : Value → Prop
  | .cell x => x ∈ c.names
  | _ => True

def Straight (t : Target) (s s' : Session) : Prop :=
  ∃ is, Emits s s' is ∧ ∀ i ∈ is, Plain t s'.cells i

section Straight

variable {t : Target} {c c' : CellNames} {i : Instr} {v w : Value} {s s' s'' : Session}
  {r : Registers}

theorem Plain.mono (h : Plain t c i) (hc : c <+: c') : Plain t c' i :=
  ⟨h.target, fun x hx => (h.symbols x hx).imp_left fun hx => (CellNames.names_prefix hc).subset hx,
    h.calls⟩

theorem Value.Named.mono (h : v.Named c) (hc : c <+: c') : v.Named c' := by
  cases v with
  | cell x => exact (CellNames.names_prefix hc).subset h
  | _ => trivial

theorem Value.Named.symbols (h : v.Named c) (r : Registers) :
    ∀ x ∈ (r.operand v).symbols, x ∈ c.names := by
  intro x hx
  cases v with
  | cell y =>
    obtain rfl := List.mem_singleton.1 hx
    exact h
  | imm _ => cases hx
  | reg _ => cases hx

/-- An instruction whose only symbols are those of its operands. -/
theorem Plain.ofCells (htarget : i.target? = none) (hroutine : i.routine? = none)
    (h : ∀ x ∈ i.symbols, x ∈ c.names) : Plain t c i where
  target := htarget
  symbols x hx := Or.inl (h x hx)
  calls f hf := by
    rw [hroutine] at hf
    cases hf

theorem Plain.move (hv : v.Named c) (hw : w.Named c) :
    Plain t c (.move (r.operand v) (r.operand w)) :=
  .ofCells rfl rfl fun x hx => (List.mem_append.1 hx).elim (hv.symbols r x) (hw.symbols r x)

theorem Plain.arith (op : Asm.ArithOp) (hv : v.Named c) (hw : w.Named c) :
    Plain t c (.arith op (r.operand v) (r.operand w)) :=
  .ofCells rfl rfl fun x hx => (List.mem_append.1 hx).elim (hv.symbols r x) (hw.symbols r x)

theorem Straight.refl (t : Target) (s : Session) : Straight t s s := ⟨[], .refl s, by simp⟩

theorem Straight.cells (h : Straight t s s') : s.cells <+: s'.cells := by
  obtain ⟨is, hem, -⟩ := h
  exact hem.cells

theorem Straight.trans (h : Straight t s s') (h' : Straight t s' s'') : Straight t s s'' := by
  have hcells := h'.cells
  obtain ⟨is, hem, his⟩ := h
  obtain ⟨js, hem', hjs⟩ := h'
  refine ⟨is ++ js, hem.trans hem', fun i hi => ?_⟩
  rcases List.mem_append.1 hi with hi | hi
  · exact (his i hi).mono hcells
  · exact hjs i hi

theorem Straight.push (h : Straight t s s') (hi : Plain t s'.cells i) :
    Straight t s (s'.push (.instr i)) :=
  h.trans ⟨[i], .push s' i, fun _ hj => List.mem_singleton.1 hj ▸ hi⟩

theorem Straight.commit {α : Type} (h : Straight t s s') {st : Step α}
    (hst : ∀ i ∈ st.instrs, Plain t s'.cells i) : Straight t s (s'.commit st) :=
  h.trans ⟨st.instrs, .commit s' st, hst⟩

theorem plain_load {st : Step Handle} (hv : v.Named c) (h : r.load v = .ok st) :
    ∀ i ∈ st.instrs, Plain t c i := by
  obtain ⟨f, -, rfl⟩ := Registers.map_eq_ok (x := r.fresh) h
  intro i hi
  obtain rfl := List.mem_singleton.1 hi
  exact .move hv trivial

theorem plain_bind {name : String} {st : Step Handle} (h : r.bind name = .ok st) :
    ∀ i ∈ st.instrs, Plain t c i := by
  unfold Registers.bind at h
  split at h
  · cases h
    simp
  · split at h
    · cases h
    · cases h
      intro i hi
      obtain rfl := List.mem_singleton.1 hi
      exact .ofCells rfl rfl (by simp [Instr.symbols, Operand.symbols])

theorem plain_nonImmediate {st : Step Value} (hv : v.Named c) (h : r.nonImmediate v = .ok st) :
    (∀ i ∈ st.instrs, Plain t c i) ∧ st.result.Named c := by
  cases v with
  | imm x =>
    obtain ⟨f, hl, rfl⟩ := Registers.map_eq_ok (x := r.load (.imm x)) h
    exact ⟨plain_load hv hl, trivial⟩
  | cell x =>
    cases h
    exact ⟨by simp, hv⟩
  | reg k =>
    cases h
    exact ⟨by simp, hv⟩

theorem straight_cell {ref : Option VarRef} {x : String} (h : (Gen.cell ref).run s = .ok x s') :
    Straight t s s' ∧ x ∈ s'.cells.names := by
  obtain ⟨n, d, pos, -, hfind, hcells, hcode, hlabels, -⟩ := Gen.run_cell_ok h
  exact ⟨⟨[], ⟨hlabels, hcells, by simpa using hcode⟩, by simp⟩, CellNames.mem_names_of_find? hfind⟩

theorem straight_intoRegister {k : Handle} (hv : v.Named s.cells)
    (h : (Gen.intoRegister v).run s = .ok k s') : Straight t s s' := by
  unfold Gen.intoRegister at h
  split at h
  · cases h
    exact .refl t s
  · obtain ⟨st, hst, rfl, rfl⟩ := Gen.run_load_ok h
    exact (Straight.refl t s).commit (plain_load hv hst)

theorem straight_divide {l r : Value} (hl : l.Named s.cells) (hr : r.Named s.cells)
    (h : (Gen.divide t l r).run s = .ok v s') : Straight t s s' ∧ v.Named s'.cells := by
  obtain ⟨st, st', hst, hst', rfl, -, hem⟩ := run_divide_ok h
  obtain ⟨hplain', hresult⟩ := plain_nonImmediate (t := t) (hr.mono hem.cells) hst'
  refine ⟨⟨_, hem, fun i hi => ?_⟩, trivial⟩
  simp only [List.mem_append, List.mem_cons, List.not_mem_nil, or_false] at hi
  rcases hi with hi | (rfl | rfl) | hi | rfl
  · exact plain_bind hst i hi
  · exact .move (hl.mono hem.cells) trivial
  · exact .ofCells rfl rfl (by simp [Instr.symbols])
  · exact hplain' i hi
  · exact .ofCells rfl rfl (hresult.symbols _)

theorem plain_unaryInstr {op : UnaryOp} {f : Operand → Instr} (h : unaryInstr? op = some f)
    (x : String) : Plain t c (f (.reg x)) := by
  cases op with
  | neg =>
    cases h
    exact .ofCells rfl rfl (by simp [Instr.symbols, Operand.symbols])
  | not =>
    cases h
    exact .ofCells rfl rfl (by simp [Instr.symbols, Operand.symbols])
  | other _ => cases h

/-- The code of an expression is plain, and its value is in no cell but one that has a name. -/
theorem straight_expr : ∀ (e : Expr) {s s' : Session} {v : Value},
    (Gen.expr t e).run s = .ok v s' → Straight t s s' ∧ v.Named s'.cells
  | .int pos w, s, s', v, h => by
    cases h
    exact ⟨.refl t s, trivial⟩
  | .bool pos true, s, s', v, h => by
    cases h
    exact ⟨.refl t s, trivial⟩
  | .bool pos false, s, s', v, h => by
    cases h
    exact ⟨.refl t s, trivial⟩
  | .var ref, s, s', v, h => by
    rw [Gen.expr] at h
    obtain ⟨x, s₁, hcell, hret⟩ := Gen.run_bind_ok.1 h
    cases hret
    exact straight_cell hcell
  | .unary pos op x, s, s', v, h => by
    rw [Gen.expr] at h
    split at h
    · cases h
    · rename_i f hop
      obtain ⟨v₁, s₁, hx, h⟩ := Gen.run_bind_ok.1 h
      obtain ⟨k, s₂, hk, h⟩ := Gen.run_bind_ok.1 h
      cases h
      obtain ⟨hs₁, hv₁⟩ := straight_expr x hx
      have hs₂ := hs₁.trans (straight_intoRegister hv₁ hk)
      exact ⟨hs₂.push (plain_unaryInstr hop _), trivial⟩
  | .binary pos op l r, s, s', v, h => by
    by_cases hop : op = .div
    · subst hop
      rw [Gen.expr] at h
      obtain ⟨v₁, s₁, hl, h⟩ := Gen.run_bind_ok.1 h
      obtain ⟨v₂, s₂, hr, h⟩ := Gen.run_bind_ok.1 h
      obtain ⟨hs₁, hv₁⟩ := straight_expr l hl
      obtain ⟨hs₂, hv₂⟩ := straight_expr r hr
      obtain ⟨hs₃, hv⟩ := straight_divide (hv₁.mono hs₂.cells) hv₂ h
      exact ⟨(hs₁.trans hs₂).trans hs₃, hv⟩
    · rw [Gen.expr] at h
      · split at h
        · cases h
        · rename_i arith harith
          obtain ⟨v₁, s₁, hl, h⟩ := Gen.run_bind_ok.1 h
          obtain ⟨v₂, s₂, hr, h⟩ := Gen.run_bind_ok.1 h
          obtain ⟨k, s₃, hk, h⟩ := Gen.run_bind_ok.1 h
          cases h
          obtain ⟨hs₁, hv₁⟩ := straight_expr l hl
          obtain ⟨hs₂, hv₂⟩ := straight_expr r hr
          have hs₃ : Straight t s₂ s₃ := straight_intoRegister (hv₁.mono hs₂.cells) hk
          refine ⟨((hs₁.trans hs₂).trans hs₃).push ?_, trivial⟩
          exact .arith arith (hv₂.mono hs₃.cells) trivial
      · exact hop
  | .gap g, s, s', v, h => by cases h

theorem straight_stage (hv : v.Named s.cells) (h : (Gen.stage v).run s = .ok w s') :
    Straight t s s' ∧ w.Named s'.cells := by
  unfold Gen.stage at h
  split at h
  · obtain ⟨k, s₁, hk, hret⟩ := Gen.run_bind_ok.1 h
    cases hret
    obtain ⟨st, hst, rfl, rfl⟩ := Gen.run_load_ok hk
    exact ⟨(Straight.refl t s).commit (plain_load hv hst), trivial⟩
  · cases h
    exact ⟨.refl t s, hv⟩

theorem straight_assign {target : Option VarRef} {source : Expr}
    (h : (Gen.assign t target source).run s = .ok () s') : Straight t s s' := by
  unfold Gen.assign at h
  obtain ⟨v, s₁, hv, h⟩ := Gen.run_bind_ok.1 h
  obtain ⟨x, s₂, hx, h⟩ := Gen.run_bind_ok.1 h
  obtain ⟨w, s₃, hw, h⟩ := Gen.run_bind_ok.1 h
  cases h
  obtain ⟨hs₁, hv₁⟩ := straight_expr source hv
  obtain ⟨hs₂, hx⟩ : Straight t s₁ s₂ ∧ x ∈ s₂.cells.names := by
    cases target with
    | none => cases hx
    | some ref => exact straight_cell hx
  obtain ⟨hs₃, hw₃⟩ := straight_stage (t := t) (hv₁.mono hs₂.cells) hw
  refine ((hs₁.trans hs₂).trans hs₃).push (.ofCells rfl rfl fun y hy => ?_)
  rcases List.mem_append.1 hy with hy | hy
  · exact hw₃.symbols _ y hy
  · obtain rfl := List.mem_singleton.1 hy
    exact (CellNames.names_prefix hs₃.cells).subset hx

theorem straight_libraryCall {formatReg format f : String}
    (hformat : format = t.readFormat ∨ format = t.writeFormat)
    (hf : f = t.scanFunc ∨ f = t.printFunc)
    (h : (Gen.libraryCall t formatReg format f).run s = .ok () s') : Straight t s s' := by
  cases h
  refine Straight.push (Straight.push (Straight.push (.refl t s) ?_) ?_) ?_
  · refine ⟨rfl, fun x hx => ?_, by simp [Instr.routine?]⟩
    obtain rfl := List.mem_singleton.1 hx
    exact Or.inr hformat
  · exact .ofCells rfl rfl (by simp [Instr.symbols])
  · refine ⟨rfl, by simp [Instr.symbols], fun g hg => ?_⟩
    cases hg
    exact hf

theorem straight_readVar {ref : Option VarRef} (h : (Gen.readVar t ref).run s = .ok () s') :
    Straight t s s' := by
  unfold Gen.readVar at h
  obtain ⟨x, s₁, hx, h⟩ := Gen.run_bind_ok.1 h
  obtain ⟨hs₁, hx⟩ := straight_cell (t := t) hx
  split at h
  · rw [Gen.run_instr_bind] at h
    refine (Straight.push hs₁ ?_).trans (straight_libraryCall (Or.inl rfl) (Or.inl rfl) h)
    refine .ofCells rfl rfl fun y hy => ?_
    obtain rfl := List.mem_singleton.1 hy
    exact hx
  · cases h

theorem straight_writeExpr {e : Expr} (h : (Gen.writeExpr t e).run s = .ok () s') :
    Straight t s s' := by
  unfold Gen.writeExpr at h
  obtain ⟨v, s₁, hv, h⟩ := Gen.run_bind_ok.1 h
  obtain ⟨hs₁, hv⟩ := straight_expr e hv
  split at h
  · rw [Gen.run_operand_bind, Gen.run_instr_bind] at h
    refine (Straight.push hs₁ ?_).trans (straight_libraryCall (Or.inr rfl) (Or.inr rfl) h)
    refine .ofCells rfl rfl fun y hy => ?_
    exact hv.symbols _ y (by simpa [Instr.symbols, Operand.symbols] using hy)
  · cases h

theorem straight_readVars : ∀ (refs : List (Option VarRef)) {s s' : Session},
    (Gen.readVars t refs).run s = .ok () s' → Straight t s s'
  | [], s, s', h => by
    cases h
    exact .refl t s
  | ref :: refs, s, s', h => by
    rw [Gen.readVars] at h
    obtain ⟨_, s₁, href, hrefs⟩ := Gen.run_bind_ok.1 h
    exact (straight_readVar href).trans (straight_readVars refs hrefs)

theorem straight_writeExprs : ∀ (es : List Expr) {s s' : Session},
    (Gen.writeExprs t es).run s = .ok () s' → Straight t s s'
  | [], s, s', h => by
    cases h
    exact .refl t s
  | e :: es, s, s', h => by
    rw [Gen.writeExprs] at h
    obtain ⟨_, s₁, he, hes⟩ := Gen.run_bind_ok.1 h
    exact (straight_writeExpr he).trans (straight_writeExprs es hes)

end Straight

/-! ## Code with loops -/

/-- Lines that are plain instructions, but for labels and jumps. -/
def PlainBetween (t : Target) (c : CellNames) (ls : List Line) : Prop :=
  ∀ l ∈ ls, l.isControl = false → ∃ i, l = .instr i ∧ Plain t c i

/-- From one session to the next, the code of the loops with the addresses `as` was written. -/
structure Written (t : Target) (as : List (List ℕ)) (s s' : Session) : Prop where
  labels : s'.labels = s.labels + 2 * as.length
  cells : s.cells <+: s'.cells
  code : ∃ ls ps, s'.code = s.code ++ ls ∧ Laid s.code.length s.labels as ls ps
    ∧ PlainBetween t s'.cells ls

section Written

variable {t : Target} {as as' : List (List ℕ)} {s s' s'' : Session}

theorem Straight.written (h : Straight t s s') : Written t [] s s' := by
  obtain ⟨is, hem, his⟩ := h
  refine ⟨hem.labels, hem.cells, _, [], hem.code, .instrs fun i hi => (his i hi).target, ?_⟩
  intro l hl _
  obtain ⟨i, hi, rfl⟩ := List.mem_map.1 hl
  exact ⟨i, rfl, his i hi⟩

theorem Written.append (h : Written t as s s') (h' : Written t as' s' s'')
    (hsep : ∀ a ∈ as, ∀ a' ∈ as', ¬ a <+: a' ∧ ¬ a' <+: a) : Written t (as ++ as') s s'' := by
  obtain ⟨ls, ps, hls, hlaid, hplain⟩ := h.code
  obtain ⟨ms, qs, hms, hlaid', hplain'⟩ := h'.code
  rw [hls, List.length_append, h.labels] at hlaid'
  refine ⟨?_, h.cells.trans h'.cells, ls ++ ms, ps ++ qs, ?_, hlaid.append hlaid' hsep, ?_⟩
  · rw [h'.labels, h.labels, List.length_append]
    omega
  · rw [hms, hls, List.append_assoc]
  · intro l hl hcontrol
    rcases List.mem_append.1 hl with hl | hl
    · obtain ⟨i, rfl, hi⟩ := hplain l hl hcontrol
      exact ⟨i, rfl, hi.mono h'.cells⟩
    · exact hplain' l hl hcontrol

theorem Written.under (h : Written t as s s') (i : ℕ) : Written t (as.map (i :: ·)) s s' := by
  obtain ⟨ls, ps, hls, hlaid, hplain⟩ := h.code
  exact ⟨by rw [List.length_map, h.labels], h.cells, ls, _, hls, hlaid.under i, hplain⟩

theorem straight_test {cond : Expr} {v : Value} {s₁ : Session} {st : Step Value} (bottom : String)
    (hv : (Gen.expr t cond).run s = .ok v s₁) (hst : s₁.registers.nonImmediate v = .ok st) :
    ∃ test, Emits s (s₁.loopBody st bottom) (test ++ [.jumpIfEqual bottom])
      ∧ ∀ i ∈ test, Plain t (s₁.loopBody st bottom).cells i := by
  obtain ⟨⟨is, hem, his⟩, hnamed⟩ := straight_expr cond hv
  obtain ⟨hinstrs, hresult⟩ := plain_nonImmediate (t := t) hnamed hst
  have hemb := hem.trans (Emits.loopBody s₁ st bottom)
  rw [← List.append_assoc] at hemb
  refine ⟨_, hemb, fun i hi => ?_⟩
  simp only [List.mem_append, List.mem_cons, List.not_mem_nil, or_false] at hi
  rcases hi with hi | hi | rfl
  · exact his i hi
  · exact hinstrs i hi
  · exact .ofCells rfl rfl (hresult.symbols _)

/-- The code of a loop, from that of its test and of its body. -/
theorem Written.loop {b s₂ : Session} {test : List Instr}
    (hem : Emits s.loopHead b (test ++ [.jumpIfEqual (labelAt (s.labels + 1))]))
    (htest : ∀ i ∈ test, Plain t b.cells i) (hnil : [] ∉ as) (hbody : Written t as b s₂) :
    Written t ([] :: as) s (s₂.loopEnd (labelAt s.labels) (labelAt (s.labels + 1))) := by
  obtain ⟨ls, ps, hls, hlaid, hplain⟩ := hbody.code
  have hlabels : b.labels = s.labels + 2 := hem.labels
  have hlength : b.code.length = s.code.length + 1 + test.length + 1 := by
    rw [hem.code, List.length_append, List.length_map, List.length_append, length_loopHead]
    rfl
  rw [hlabels, hlength] at hlaid
  -- The body is laid out after the label, the test and the jump out, with two labels more drawn.
  refine ⟨?_, hem.cells.trans hbody.cells, _, _, ?_,
    hlaid.loop (fun i hi => (htest i hi).target) hnil, fun l hl hcontrol => ?_⟩
  · have hend : s₂.labels = s.labels + 2 + 2 * as.length := hlabels ▸ hbody.labels
    rw [List.length_cons]
    change s₂.labels = _
    omega
  · rw [Session.loopEnd, Session.code_push, Session.code_push, hls, hem.code, Session.loopHead,
      Session.code_push]
    simp [Session.code]
  · simp only [List.mem_append, List.mem_cons, List.not_mem_nil, or_false] at hl
    rcases hl with rfl | hl | rfl | hl | rfl | rfl
    · cases hcontrol
    · obtain ⟨i, hi, rfl⟩ := List.mem_map.1 hl
      exact ⟨i, rfl, (htest i hi).mono hbody.cells⟩
    · cases hcontrol
    · exact hplain l hl hcontrol
    · cases hcontrol
    · cases hcontrol

theorem Written.freeAll (h : Written t as s s') :
    Written t as s (s'.commit s'.registers.freeAll) := by
  have hcode : (s'.commit s'.registers.freeAll).code = s'.code := by
    simp [Registers.freeAll]
  refine ⟨h.labels, h.cells, ?_⟩
  rw [hcode]
  exact h.code

mutual

/-- The code of a statement is that of its loops, and plain between them. -/
theorem written_stmt : ∀ (st : Stmt) {s s' : Session}, (Gen.stmt t st).run s = .ok () s' →
    Written t st.loops s s'
  | .block b, s, s', h => by
    rw [Gen.stmt] at h
    rw [Stmt.loops]
    exact written_block b h
  | .decl d, s, s', h => by
    cases h
    exact (Straight.refl t s).written
  | .assign pos target source, s, s', h => by
    rw [Gen.stmt] at h
    exact (straight_assign h).written
  | .read pos refs, s, s', h => by
    rw [Gen.stmt] at h
    exact (straight_readVars refs h).written
  | .write pos es, s, s', h => by
    rw [Gen.stmt] at h
    exact (straight_writeExprs es h).written
  | .loop pos cond none, s, s', h => by
    obtain ⟨v, s₁, st, s₂, hv, hst, hb, rfl⟩ := run_loop_ok h
    cases hb
  | .loop pos cond (some b), s, s', h => by
    obtain ⟨v, s₁, st, s₂, hv, hst, hb, rfl⟩ := run_loop_ok h
    obtain ⟨test, hem, htest⟩ := straight_test (labelAt (s.labels + 1)) hv hst
    rw [Gen.blockOf] at hb
    rw [Stmt.loops]
    exact .loop hem htest b.nil_notMem_loops (written_block b hb)
  | .gap g, s, s', h => by cases h

theorem written_block : ∀ (b : Block) {s s' : Session}, (Gen.block t b).run s = .ok () s' →
    Written t b.loops s s'
  | .mk pos ss, s, s', h => by
    rw [Gen.block] at h
    obtain ⟨_, s₁, hss, h⟩ := Gen.run_bind_ok.1 h
    cases h
    rw [Block.loops]
    exact (written_stmts 0 ss hss).freeAll

theorem written_stmts : ∀ (i : ℕ) (ss : List Stmt) {s s' : Session},
    (Gen.stmts t ss).run s = .ok () s' → Written t (Stmt.loopsFrom i ss) s s'
  | i, [], s, s', h => by
    cases h
    exact (Straight.refl t s).written
  | i, st :: ss, s, s', h => by
    rw [Gen.stmts] at h
    obtain ⟨_, s₁, hst, hss⟩ := Gen.run_bind_ok.1 h
    rw [Stmt.loopsFrom]
    refine ((written_stmt st hst).under i).append (written_stmts (i + 1) ss hss) ?_
    -- The addresses in different statements differ in the first index.
    intro a ha a' ha'
    obtain ⟨a, -, rfl⟩ := List.mem_map.1 ha
    obtain ⟨k, -, a', -, -, rfl⟩ := Stmt.mem_loopsFrom.1 ha'
    simp only [List.cons_prefix_cons]
    omega

end

end Written

end Lowering

end WhileAsm
