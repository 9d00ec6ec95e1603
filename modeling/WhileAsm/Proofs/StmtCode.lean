import WhileAsm.Proofs.ExprCode

/-!
# The code of a statement runs as the statement does

A processor is seen as the state of a program (`CellNames.view`): the cells hold the store. From the
first line of the code of a statement, a machine whose listing holds the code follows the run of the
statement from that state (`Follows`). It comes to the line after the code if the run ends, it
faults with the same output if the run faults, and it takes at least as many steps as the limit says
if the run does not end under a limit on the turns of loops. The last part is what makes a machine
that stops speak for a run that ends.

`Compiled` is this property of the code between two sessions. Code that is generated in sequence
runs in sequence (`Compiled.andThen`), and each kind of statement is compiled (`stmt_spec`).
-/

namespace WhileAsm.Lowering

open Asm (AtFault Config Cpu Holds Instr Line Platform Target after execAll labelIndex step)

/-- The state of a program in a processor. -/
def CellNames.view (C : CellNames) (c : Cpu) : State := ⟨C.store c.cells, c.input, c.output⟩

theorem Carried.view_eq {r r' : Registers} {c c' : Cpu} (h : Carried r r' c c') (C : CellNames) :
    C.view c' = C.view c := by
  simp only [CellNames.view, h.cells, h.input, h.output]

/-! ## Machines that follow a run -/

/-- The machine does from `m` on what an outcome says, and comes to the line `stop`. Without an
outcome, it takes at least `bound` steps. -/
def Follows (P : Platform) (t : Target) (code : List Line) (C : CellNames) (bound : ℕ) (m : Config)
    (stop : ℕ) : Option Outcome → Prop
  | some (.done σ) =>
    ∃ k c, after P t code k m = some ⟨stop, c⟩ ∧ C.view c = σ ∧ c.stack = m.cpu.stack
  | some (.fault out) =>
    ∃ k m', after P t code k m = some m' ∧ AtFault P t code m' ∧ m'.cpu.output = out
  | none => ∃ k m', bound ≤ k ∧ after P t code k m = some m'

section Follows

variable {P : Platform} {t : Target} {code : List Line} {C : CellNames} {bound : ℕ} {m : Config}
  {mid stop : ℕ} {o : Option Outcome}

theorem Follows.here {n : ℕ} {c : Cpu} {σ : State} (h : C.view c = σ) :
    Follows P t code C bound ⟨n, c⟩ n (some (.done σ)) :=
  ⟨0, c, rfl, h, rfl⟩

/-- Steps before a run count towards the bound. -/
theorem Follows.after {k : ℕ} {m' : Config} (hk : Asm.after P t code k m = some m')
    (hstack : m'.cpu.stack = m.cpu.stack) (h : Follows P t code C bound m' stop o) :
    Follows P t code C (k + bound) m stop o := by
  rcases o with _ | σ | out
  · obtain ⟨j, m'', hj, hx⟩ := h
    exact ⟨k + j, m'', Nat.add_le_add_left hj k, Asm.after_trans hk hx⟩
  · obtain ⟨j, c, hx, hv, hs⟩ := h
    exact ⟨k + j, c, Asm.after_trans hk hx, hv, hs.trans hstack⟩
  · obtain ⟨j, m'', hx, hf, ho⟩ := h
    exact ⟨k + j, m'', Asm.after_trans hk hx, hf, ho⟩

theorem Follows.mono {bound' : ℕ} (h : Follows P t code C bound m stop o) (hb : bound' ≤ bound) :
    Follows P t code C bound' m stop o := by
  rcases o with _ | σ | out
  · obtain ⟨j, m', hj, hx⟩ := h
    exact ⟨j, m', hb.trans hj, hx⟩
  · exact h
  · exact h

theorem Follows.andThen {next : State → Option Outcome} (h : Follows P t code C bound m mid o)
    (hnext : ∀ c, c.stack = m.cpu.stack →
      Follows P t code C bound ⟨mid, c⟩ stop (next (C.view c))) :
    Follows P t code C bound m stop (Outcome.andThen o next) := by
  rcases o with _ | σ | out
  · exact h
  · obtain ⟨k, c, hx, rfl, hs⟩ := h
    exact ((hnext c hs).after hx hs).mono (Nat.le_add_left _ _)
  · exact h

theorem Follows.withValue {n : ℕ} {is : List Instr} {c : Cpu} {Q : Int64 → Cpu → Prop}
    {w : Option Int64} {next : Int64 → Option Outcome} (hl : Holds code n (is.map .instr))
    (hy : Yields P t is c c.output Q w) (hstack : ∀ a c', Q a c' → c'.stack = c.stack)
    (hnext : ∀ a c', Q a c' → Follows P t code C bound ⟨n + is.length, c'⟩ stop (next a)) :
    Follows P t code C bound ⟨n, c⟩ stop (Outcome.withValue (C.view c) w next) := by
  cases w with
  | none =>
    obtain ⟨c', hx, ho⟩ := hy
    obtain ⟨k, hk, hf⟩ := Asm.after_of_execAll_error hl hx
    exact ⟨k, _, hk, hf, ho⟩
  | some a =>
    obtain ⟨c', hx, hQ⟩ := hy
    have hk := Asm.after_of_execAll hl hx
    exact ((hnext a c' hQ).after hk (hstack a c' hQ)).mono (Nat.le_add_left _ _)

theorem Follows.exec {n : ℕ} {is : List Instr} {c c' : Cpu} (hl : Holds code n (is.map .instr))
    (hx : execAll P t is c = .ok c') (hstack : c'.stack = c.stack)
    (h : Follows P t code C bound ⟨n + is.length, c'⟩ stop o) :
    Follows P t code C bound ⟨n, c⟩ stop o :=
  (h.after (Asm.after_of_execAll hl hx) hstack).mono (Nat.le_add_left _ _)

end Follows

/-! ## Labels -/

section Labels

variable {code front : List Line} {s s' : Session}

/-- A label is found at its first definition. -/
theorem labelIndex_of_prefix {l : String} (h : front ++ [.label l] <+: code)
    (hn : .label l ∉ front) : labelIndex code l = some front.length := by
  obtain ⟨rest, rfl⟩ := h
  have hnone : front.findIdx? (· == Line.label l) = none := by
    rw [List.findIdx?_eq_none_iff]
    intro x hx
    have hne : x ≠ .label l := fun he => hn (he ▸ hx)
    simpa using hne
  unfold labelIndex
  rw [List.append_assoc, List.findIdx?_append, hnone]
  simp [List.findIdx?_cons]

/-- A label outside the range that a session has drawn stays undefined. -/
theorem Extends.undefined {j : ℕ} (h : Extends s s') (hj : j < s.labels ∨ s'.labels ≤ j)
    (hn : .label (labelAt j) ∉ s.code) : .label (labelAt j) ∉ s'.code := by
  obtain ⟨ls, hls, hlabels⟩ := h.code
  rw [hls]
  intro hmem
  rcases List.mem_append.1 hmem with hmem | hmem
  · exact hn hmem
  · obtain ⟨i, h1, h2, he⟩ := hlabels _ hmem
    obtain rfl := labelAt_injective he
    omega

/-- A new line that defines a label drawn since. -/
theorem Extends.pushLabel {j : ℕ} (h : Extends s s') (hj : s.labels ≤ j) (hj' : j < s'.labels) :
    Extends s (s'.push (.label (labelAt j))) := by
  obtain ⟨ls, hls, hlabels⟩ := h.code
  refine ⟨h.labels, h.cells, ls ++ [.label (labelAt j)], ?_, ?_⟩
  · rw [Session.code_push, hls, List.append_assoc]
  · intro name hname
    rcases List.mem_append.1 hname with hn | hn
    · exact hlabels name hn
    · rw [List.mem_singleton, Asm.Line.label.injEq] at hn
      exact ⟨j, hj, hj', hn⟩

end Labels

/-! ## Compiled code -/

/-- A session in which code may be generated: its register file is sound, and no label that is yet
to be drawn is defined. -/
structure Session.Ready (t : Target) (s : Session) : Prop where
  sound : s.registers.Sound
  pool : s.registers.pool = t.scratch
  fresh : ∀ j, s.labels ≤ j → .label (labelAt j) ∉ s.code

theorem Session.Ready.grow {t : Target} {s s' : Session} (h : s.Ready t)
    (hx : Extends s s') (hs : s'.registers.Sound) (hp : s'.registers.pool = s.registers.pool) :
    s'.Ready t :=
  ⟨hs, hp.trans h.pool, fun j hj =>
    hx.undefined (Or.inr hj) (h.fresh j (hx.labels.trans hj))⟩

/-- Each declaration has a cell of its own, and each cell an address of its own. -/
structure CellNames.Apart (address : String → Int64) (C : CellNames) : Prop where
  distinct : C.Distinct
  addresses : Set.InjOn address {x | x ∈ C.names}

/-- The lines from one session to the next are the code of a run. -/
structure Compiled (P : Platform) (t : Target) (run : ℕ → State → Option Outcome)
    (s s' : Session) : Prop where
  ready : s'.Ready t
  grows : Extends s s'
  follows : ∀ {code : List Line} {C : CellNames}, s'.code <+: code → s'.cells <+: C →
    C.Apart P.address → ∀ limit c,
      Follows P t code C limit ⟨s.code.length, c⟩ s'.code.length (run limit (C.view c))

theorem Compiled.nil {P : Platform} {t : Target} {s : Session} (h : s.Ready t) :
    Compiled P t (fun _ σ => some (.done σ)) s s :=
  ⟨h, .refl s, fun _ _ _ _ _ => .here rfl⟩

theorem Compiled.andThen {P : Platform} {t : Target} {run next : ℕ → State → Option Outcome}
    {s s' s'' : Session} (h : Compiled P t run s s') (h' : Compiled P t next s' s'') :
    Compiled P t (fun n σ => Outcome.andThen (run n σ) (next n)) s s'' where
  ready := h'.ready
  grows := h.grows.trans h'.grows
  follows hcode hC hP limit c :=
    (h.follows (h'.grows.code_prefix.trans hcode) (h'.grows.cells.trans hC) hP limit c).andThen
      fun c' _ => h'.follows hcode hC hP limit c'

/-! ## Cells that change -/

theorem CellNames.store_update {C : CellNames} (hC : C.Distinct) {p : Path} {x : String}
    (h : C.find? p = some x) (cells : String → Int64) (v : Int64) :
    C.store (Function.update cells x v) = Function.update (C.store cells) p v := by
  funext q
  by_cases hq : q = p
  · subst hq
    rw [store_of_find? h, Function.update_self, Function.update_self]
  · rw [Function.update_of_ne hq]
    unfold store
    split
    · rename_i y hy
      refine Function.update_of_ne ?_ _ _
      rintro rfl
      exact hq (hC hy h)
    · rfl

/-- What is stored at the address of a cell changes that cell alone. -/
theorem CellNames.store_scan {C : CellNames} {address : String → Int64}
    (hC : C.Apart address) {p : Path} {x : String} (h : C.find? p = some x)
    (cells new : String → Int64) :
    C.store (fun y => if address y = address x then new y else cells y)
      = Function.update (C.store cells) p (new x) := by
  rw [← store_update hC.distinct h]
  funext q
  unfold store
  split
  · rename_i y hy
    by_cases hyx : y = x
    · subst hyx
      rw [Function.update_self]
      exact if_pos rfl
    · rw [Function.update_of_ne hyx]
      refine if_neg fun he => hyx ?_
      exact hC.addresses (mem_names_of_find? hy) (mem_names_of_find? h) he
  · rfl

theorem CellNames.view_setCell {C : CellNames} (hC : C.Distinct) {p : Path} {x : String}
    (h : C.find? p = some x) (c : Cpu) (v : Int64) :
    C.view (c.setCell x v) = (C.view c).assign p v := by
  unfold view Cpu.setCell State.assign
  rw [store_update hC h]

theorem CellNames.view_scan {C : CellNames} {P : Platform} (hC : C.Apart P.address) {p : Path}
    {x : String} (h : C.find? p = some x) {c : Cpu} (hc : c.regs "rsi" = P.address x) :
    C.view (c.scan P) = (C.view c).read p := by
  unfold view Cpu.scan State.read State.assign
  rw [hc]
  simp only [store_scan hC h c.cells fun _ => c.input.head]
  rfl

theorem CellNames.view_print {C : CellNames} {P : Platform} (c : Cpu) :
    C.view (c.print P) = (C.view c).write (c.regs "rsi") := rfl

/-! ## Statements without loops -/

section Straight

variable {P : Platform} {t : Target} {s s' : Session} {is : List Instr}

theorem Compiled.ofYields {e : Expr} {g : Int64 → State → State} (hs : s.Ready t)
    (hem : Emits s s' is) (he : s'.registers.Sound) (hp : s'.registers.pool = s.registers.pool)
    (hy : ∀ C : CellNames, s'.cells <+: C → C.Apart P.address → ∀ c, Yields P t is c c.output
      (fun w c' => c'.stack = c.stack ∧ C.view c' = g w (C.view c)) (e.value? (C.store c.cells))) :
    Compiled P t (fun _ σ => Outcome.withValue σ (e.value? σ.store) fun v =>
      some (.done (g v σ))) s s' where
  ready := hs.grow hem.toExtends he hp
  grows := hem.toExtends
  follows {code C} hcode hC hP limit c := by
    rw [hem.code] at hcode ⊢
    rw [List.length_append, List.length_map]
    refine Follows.withValue (Asm.holds_of_prefix hcode) (hy C hC hP c) (fun a c' h => h.1) ?_
    exact fun a c' h => .here h.2

theorem Compiled.ofInstrs {f : State → State} (hs : s.Ready t) (hem : Emits s s' is)
    (he : s'.registers.Sound) (hp : s'.registers.pool = s.registers.pool)
    (hx : ∀ C : CellNames, s'.cells <+: C → C.Apart P.address → ∀ c,
      ∃ c', execAll P t is c = .ok c' ∧ c'.stack = c.stack ∧ C.view c' = f (C.view c)) :
    Compiled P t (fun _ σ => some (.done (f σ))) s s' where
  ready := hs.grow hem.toExtends he hp
  grows := hem.toExtends
  follows {code C} hcode hC hP limit c := by
    rw [hem.code] at hcode ⊢
    rw [List.length_append, List.length_map]
    obtain ⟨c', hx, hstack, hview⟩ := hx C hC hP c
    exact Follows.exec (Asm.holds_of_prefix hcode) hx hstack (.here hview)

/-- A value that can be moved to memory, the same as before. -/
theorem stage_spec {v w : Value} (hs : s.registers.Sound) (hv : v.Live s.registers)
    (h : (Gen.stage v).run s = .ok w s') :
    s.registers.Evolves s'.registers ∧ (s'.registers.operand w).isMem = false
      ∧ s'.cells = s.cells ∧ ∃ is, Emits s s' is ∧ ∀ c, ∃ c', execAll P t is c = .ok c'
        ∧ Carried s.registers s'.registers c c'
        ∧ c'.read (s'.registers.operand w) = c.read (s.registers.operand v) := by
  cases v with
  | cell x =>
    obtain ⟨k, m, hk, h⟩ := Gen.run_bind_ok.1 h
    cases h
    obtain ⟨st, hst, rfl, rfl⟩ := Gen.run_load_ok hk
    obtain ⟨he, -, -, hc⟩ := Registers.load_spec (P := P) (t := t) hs hv hst
    refine ⟨he, rfl, rfl, st.instrs, .commit s st, fun c => ?_⟩
    obtain ⟨c', hx, hcar, hv', -⟩ := hc c
    exact ⟨c', hx, hcar, hv'⟩
  | imm w =>
    cases h
    exact ⟨.refl hs, rfl, rfl, [], .refl s, fun c => ⟨c, rfl, .refl _ c, rfl⟩⟩
  | reg k =>
    cases h
    exact ⟨.refl hs, rfl, rfl, [], .refl s, fun c => ⟨c, rfl, .refl _ c, rfl⟩⟩

theorem assign_spec (ht : t.Conventional) {target : Option VarRef} {source : Expr}
    (hs : s.Ready t) (h : (Gen.assign t target source).run s = .ok () s') :
    ∃ n d pos, target = some ⟨n, some d, pos⟩
      ∧ Compiled P t (fun _ σ => Outcome.withValue σ (source.value? σ.store) fun v =>
        some (.done (σ.assign d.place v))) s s' := by
  unfold Gen.assign at h
  obtain ⟨v, s₁, hv, h⟩ := Gen.run_bind_ok.1 h
  obtain ⟨x, s₂, hx, h⟩ := Gen.run_bind_ok.1 h
  obtain ⟨w, s₃, hw, h⟩ := Gen.run_bind_ok.1 h
  cases h
  cases target with
  | none => cases hx
  | some ref =>
    obtain ⟨n, d, pos, href, hfind, hcells, hcode, hlabels, hregs⟩ := Gen.run_cell_ok hx
    refine ⟨n, d, pos, href, ?_⟩
    obtain ⟨he₁, hown, is, hem₁, hd⟩ := expr_spec (P := P) ht source hs.sound hs.pool hv
    obtain ⟨he₃, hmem, hcells₃, js, hem₃, hstage⟩ :=
      stage_spec (P := P) (t := t) (hregs ▸ he₁.sound) (hregs ▸ hown.live) hw
    rw [hregs] at he₃ hstage
    have hem₂ : Emits s₁ s₂ [] := ⟨hlabels, hcells, by simpa using hcode⟩
    refine .ofYields (g := fun v σ => σ.assign d.place v) hs
      (hem₁.trans (hem₂.trans (hem₃.trans (.push s₃ _)))) he₃.sound (he₃.pool.trans he₁.pool) ?_
    intro C hC hP c
    have hC₂ : s₂.cells <+: C := hcells₃ ▸ hC
    refine (hd C (hcells.trans hC₂) c).then fun a c₁ ⟨hc₁, ha⟩ => ?_
    obtain ⟨c₃, hx₃, hc₃, hv₃⟩ := hstage c₁
    refine ⟨c₃.setCell x a, ?_, ?_⟩
    · rw [List.nil_append, Asm.execAll_append_ok hx₃]
      simp only [execAll, Instr.exec, hmem, hv₃, ha, Bool.false_and, Bool.false_eq_true, if_false,
        Cpu.write]
    · refine ⟨hc₃.stack.trans hc₁.stack, ?_⟩
      rw [CellNames.view_setCell hP.distinct (CellNames.find?_of_prefix hC₂ hfind), hc₃.view_eq,
        hc₁.view_eq]

/-- The processor before a call with a format, and with the value or address `v`. -/
def atCall (P : Platform) (c : Cpu) (v : Int64) (format : String) : Cpu :=
  { ((c.setReg "rsi" v).setReg "rdi" (P.address format)).setReg "rax" 0 with zero := true }

theorem regs_atCall (c : Cpu) (v : Int64) (format : String) : (atCall P c v format).regs
    = (((c.setReg "rsi" v).setReg "rdi" (P.address format)).setReg "rax" 0).regs := rfl

theorem calledWith_atCall (c : Cpu) (v : Int64) (format : String) :
    (atCall P c v format).CalledWith P format := by
  unfold Cpu.CalledWith
  rw [regs_atCall, Cpu.regs_setReg_of_ne _ _ (by decide)]
  exact ⟨Cpu.regs_setReg_self _ _ _, Cpu.regs_setReg_self _ _ _⟩

theorem argument_atCall (c : Cpu) (v : Int64) (format : String) :
    (atCall P c v format).regs "rsi" = v := by
  rw [regs_atCall, Cpu.regs_setReg_of_ne _ _ (by decide), Cpu.regs_setReg_of_ne _ _ (by decide),
    Cpu.regs_setReg_self]

/-- The code of a call whose second argument is in place. -/
theorem execAll_call {f format : String} {c c' : Cpu} {v : Int64}
    (h : (atCall P c v format).call P t f = .ok c') :
    execAll P t [.loadAddress format "rdi", .clear "rax", .call f] (c.setReg "rsi" v)
      = .ok c' := by
  have hclear : (Instr.clear "rax").exec P t ((c.setReg "rsi" v).setReg "rdi" (P.address format))
      = .ok (atCall P c v format) := rfl
  have hcall : (Instr.call f).exec P t (atCall P c v format) = .ok c' := h
  rw [Asm.execAll_cons_ok rfl, Asm.execAll_cons_ok hclear, Asm.execAll_cons_ok hcall]
  rfl

theorem call_scan (c : Cpu) (v : Int64) :
    (atCall P c v t.readFormat).call P t t.scanFunc
      = .ok ((atCall P c v t.readFormat).scan P) :=
  if_pos ⟨rfl, calledWith_atCall c v _⟩

theorem call_print (ht : t.Conventional) (c : Cpu) (v : Int64) :
    (atCall P c v t.writeFormat).call P t t.printFunc
      = .ok ((atCall P c v t.writeFormat).print P) := by
  unfold Cpu.call
  rw [if_neg fun h => ht.routines h.1.symm, if_pos ⟨rfl, calledWith_atCall c v _⟩]

/-- The code of a call that reads into a variable. -/
theorem run_readVar_ok (ht : t.Conventional) {ref : Option VarRef}
    (h : (Gen.readVar t ref).run s = .ok () s') :
    ∃ n d pos x, ref = some ⟨n, some d, pos⟩ ∧ s'.cells.find? d.place = some x
      ∧ s'.registers = s.registers ∧ Emits s s' [.moveAddress x "rsi",
        .loadAddress t.readFormat "rdi", .clear "rax", .call t.scanFunc] := by
  unfold Gen.readVar at h
  obtain ⟨x, s₁, hx, h⟩ := Gen.run_bind_ok.1 h
  obtain ⟨n, d, pos, href, hfind, hcells, hcode, hlabels, hregs⟩ := Gen.run_cell_ok hx
  simp only [ht.arguments, Gen.libraryCall, ht.returned, Gen.run_instr_bind, Gen.run_instr] at h
  cases h
  have hem₁ : Emits s s₁ [] := ⟨hlabels, hcells, by simpa using hcode⟩
  refine ⟨n, d, pos, x, href, hfind, hregs, hem₁.trans ?_⟩
  exact (Emits.push s₁ _).trans ((Emits.push _ _).trans ((Emits.push _ _).trans (.push _ _)))

theorem readVar_spec (ht : t.Conventional) {ref : Option VarRef} (hs : s.Ready t)
    (h : (Gen.readVar t ref).run s = .ok () s') :
    ∃ n d pos, ref = some ⟨n, some d, pos⟩
      ∧ Compiled P t (fun _ σ => some (.done (σ.read d.place))) s s' := by
  obtain ⟨n, d, pos, x, href, hfind, hregs, hem⟩ := run_readVar_ok ht h
  refine ⟨n, d, pos, href, ?_⟩
  refine .ofInstrs hs hem (hregs ▸ hs.sound) (congrArg _ hregs) fun C hC hP c => ?_
  refine ⟨(atCall P c (P.address x) t.readFormat).scan P, ?_, rfl, ?_⟩
  · rw [Asm.execAll_cons_ok rfl]
    exact execAll_call (call_scan c _)
  · exact CellNames.view_scan hP (CellNames.find?_of_prefix hC hfind) (argument_atCall c _ _)

/-- The code of a call that writes a value, after the code of its expression. -/
theorem run_writeExpr_ok (ht : t.Conventional) {e : Expr}
    (h : (Gen.writeExpr t e).run s = .ok () s') :
    ∃ v s₁, (Gen.expr t e).run s = .ok v s₁ ∧ s'.registers = s₁.registers ∧ s'.cells = s₁.cells
      ∧ Emits s₁ s' [.move (s₁.registers.operand v) (.reg "rsi"),
        .loadAddress t.writeFormat "rdi", .clear "rax", .call t.printFunc] := by
  unfold Gen.writeExpr at h
  obtain ⟨v, s₁, hv, h⟩ := Gen.run_bind_ok.1 h
  simp only [ht.arguments, Gen.libraryCall, ht.returned, Gen.run_operand_bind, Gen.run_instr_bind,
    Gen.run_instr] at h
  cases h
  refine ⟨v, s₁, hv, rfl, rfl, ?_⟩
  exact (Emits.push s₁ _).trans ((Emits.push _ _).trans ((Emits.push _ _).trans (.push _ _)))

theorem writeExpr_spec (ht : t.Conventional) {e : Expr} (hs : s.Ready t)
    (h : (Gen.writeExpr t e).run s = .ok () s') :
    Compiled P t (fun _ σ => Outcome.withValue σ (e.value? σ.store) fun v =>
      some (.done (σ.write v))) s s' := by
  obtain ⟨v, s₁, hv, hregs, hcells, hem⟩ := run_writeExpr_ok ht h
  obtain ⟨he, hown, is, hem₁, hd⟩ := expr_spec (P := P) ht e hs.sound hs.pool hv
  refine .ofYields (g := fun v σ => σ.write v) hs (hem₁.trans hem) (hregs ▸ he.sound)
    (hregs ▸ he.pool) ?_
  intro C hC _ c
  refine (hd C (hcells ▸ hC) c).then fun a c₁ ⟨hc₁, ha⟩ => ?_
  refine ⟨(atCall P c₁ a t.writeFormat).print P, ?_, hc₁.stack, ?_⟩
  · rw [Asm.execAll_cons_ok (Asm.exec_move_reg _ _ _ _ _), ha]
    exact execAll_call (call_print ht c₁ _)
  · rw [CellNames.view_print, argument_atCall, ← hc₁.view_eq]
    rfl

end Straight

/-! ## Loops -/

section Loop

variable {P : Platform} {t : Target} {code : List Line} {C : CellNames}

/-- Lines with the shape of a loop: a label at line `n`, the test, a jump out, the body, which ends
at line `e`, a jump back, and a label. The test yields the condition and leaves its flag. -/
structure LoopAt (P : Platform) (t : Target) (code : List Line) (C : CellNames) (cond : Expr)
    (n : ℕ) (is : List Instr) (e : ℕ) (top bottom : String) : Prop where
  topAt : labelIndex code top = some n
  enter : code[n]? = some (.label top)
  test : Holds code (n + 1) (is.map .instr)
  leave : code[n + 1 + is.length]? = some (.instr (.jumpIfEqual bottom))
  back : code[e]? = some (.instr (.jump top))
  bottomAt : labelIndex code bottom = some (e + 1)
  exit : code[e + 1]? = some (.label bottom)
  yields : ∀ c, Yields P t is c c.output
    (fun w c' => c'.stack = c.stack ∧ C.view c' = C.view c ∧ c'.zero = (w == 0))
    (cond.value? (C.store c.cells))

/-- The machine follows a loop for as many turns as the limit allows. The induction is on the turns
that are left: each takes a step at least. -/
theorem LoopAt.follows {cond : Expr} {n e : ℕ} {is : List Instr} {top bottom : String}
    (h : LoopAt P t code C cond n is e top bottom) {limit : ℕ} {body : State → Option Outcome}
    (hbody : ∀ c, Follows P t code C limit ⟨n + 1 + is.length + 1, c⟩ e (body (C.view c))) :
    ∀ turns ≤ limit, ∀ c,
      Follows P t code C turns ⟨n, c⟩ (e + 2) (loopRun cond body turns (C.view c))
  | 0, _, c => ⟨0, _, Nat.le_refl 0, rfl⟩
  | turns + 1, hle, c => by
    have henter : step P t code ⟨n, c⟩ = some ⟨n + 1, c⟩ := by simp [step, h.enter]
    rw [Nat.add_comm turns 1]
    refine Follows.after (Asm.after_one henter) rfl ?_
    rw [Nat.add_comm 1 turns]
    refine Follows.withValue h.test (h.yields c) (fun a c' hc' => hc'.1) fun a c' hc' => ?_
    obtain ⟨-, hview, hzero⟩ := hc'
    rw [← hview]
    by_cases ha : a = 0
    · rw [if_pos ha]
      have hleave : step P t code ⟨n + 1 + is.length, c'⟩ = some ⟨e + 1, c'⟩ := by
        simp [step, h.leave, hzero, ha, Config.goto, h.bottomAt]
      have hexit : step P t code ⟨e + 1, c'⟩ = some ⟨e + 2, c'⟩ := by simp [step, h.exit]
      have h2 := Asm.after_trans (Asm.after_one hleave) (Asm.after_one hexit)
      have hend : Follows P t code C turns ⟨e + 2, c'⟩ (e + 2) (some (.done (C.view c'))) :=
        .here rfl
      exact (hend.after h2 rfl).mono (Nat.le_add_left _ _)
    · rw [if_neg ha]
      have hstay : step P t code ⟨n + 1 + is.length, c'⟩ = some ⟨n + 1 + is.length + 1, c'⟩ := by
        simp [step, h.leave, hzero, ha]
      refine (Follows.after (Asm.after_one hstay) rfl ?_).mono (Nat.le_add_left _ 1)
      refine ((hbody c').mono (by omega)).andThen fun c'' hstack => ?_
      have hback : step P t code ⟨e, c''⟩ = some ⟨n, c''⟩ := by
        simp [step, h.back, Config.goto, h.topAt]
      refine (Follows.after (Asm.after_one hback) rfl ?_).mono (Nat.le_add_left _ 1)
      exact LoopAt.follows h hbody turns (by omega) c''

/-- The session at the body of a loop, after the test of the value that `st` answers. -/
def Session.loopBody (s : Session) (st : Step Value) (bottom : String) : Session :=
  let tested := ((s.commit st).push (.instr (.compare 0 (st.registers.operand st.result)))).push
    (.instr (.jumpIfEqual bottom))
  tested.commit tested.registers.freeAll

/-- The session after a loop. -/
def Session.loopEnd (s : Session) (top bottom : String) : Session :=
  (s.push (.instr (.jump top))).push (.label bottom)

theorem run_loop_ok {pos : Position} {cond : Expr} {body : Option Block} {s s' : Session}
    (h : (Gen.stmt t (.loop pos cond body)).run s = .ok () s') :
    ∃ v s₁ st s₂, (Gen.expr t cond).run s.loopHead = .ok v s₁
      ∧ s₁.registers.nonImmediate v = .ok st
      ∧ (Gen.blockOf t body).run (s₁.loopBody st (labelAt (s.labels + 1))) = .ok () s₂
      ∧ s' = s₂.loopEnd (labelAt s.labels) (labelAt (s.labels + 1)) := by
  rw [Gen.stmt] at h
  simp only [Gen.run_drawLabel_bind, Gen.run_line_bind] at h
  obtain ⟨v, s₁, hv, h⟩ := Gen.run_bind_ok.1 h
  obtain ⟨_, s₂, hj, h⟩ := Gen.run_bind_ok.1 h
  unfold Gen.jumpIfFalse at hj
  obtain ⟨w, s₃, hw, hj⟩ := Gen.run_bind_ok.1 hj
  obtain ⟨st, hst, rfl, rfl⟩ := Gen.run_nonImmediate_ok hw
  cases hj
  rw [Gen.run_freeAll_bind] at h
  obtain ⟨_, s₄, hb, h⟩ := Gen.run_bind_ok.1 h
  cases h
  exact ⟨v, s₁, st, s₄, hv, hst, hb, rfl⟩

theorem Extends.loopHead (s : Session) : Extends s s.loopHead := by
  refine ⟨Nat.le_add_right _ 2, List.prefix_rfl, [.label (labelAt s.labels)],
    Session.code_push _ _, fun name hname => ⟨s.labels, Nat.le_refl _, ?_, ?_⟩⟩
  · exact Nat.lt_add_of_pos_right (by decide)
  · rw [List.mem_singleton, Asm.Line.label.injEq] at hname
    exact hname

theorem Emits.loopBody (s : Session) (st : Step Value) (bottom : String) :
    Emits s (s.loopBody st bottom)
      ((st.instrs ++ [.compare 0 (st.registers.operand st.result)]) ++ [.jumpIfEqual bottom]) :=
  ⟨rfl, List.prefix_rfl, by simp [Session.loopBody, Registers.freeAll]⟩

theorem length_loopHead (s : Session) : s.loopHead.code.length = s.code.length + 1 := by
  simp [Session.loopHead, Session.code, Session.push]

theorem undefined_bottom {s : Session} (hs : s.Ready t) :
    .label (labelAt (s.labels + 1)) ∉ s.loopHead.code := by
  intro h
  rw [Session.loopHead, Session.code_push] at h
  rcases List.mem_append.1 h with h | h
  · exact hs.fresh (s.labels + 1) (Nat.le_succ _) h
  · rw [List.mem_singleton, Asm.Line.label.injEq] at h
    have := labelAt_injective h
    omega

theorem yields_test {cond : Expr} {s s₁ : Session} {v : Value} {is : List Instr} {st : Step Value}
    (he : s.registers.Evolves s₁.registers) (hv : v.Live s₁.registers)
    (hst : s₁.registers.nonImmediate v = .ok st) {c : Cpu}
    (hd : Yields P t is c c.output (Answered s.registers s₁.registers c v)
      (cond.value? (C.store c.cells))) :
    Yields P t (is ++ (st.instrs ++ [.compare 0 (st.registers.operand st.result)])) c c.output
      (fun w c' => c'.stack = c.stack ∧ C.view c' = C.view c ∧ c'.zero = (w == 0))
      (cond.value? (C.store c.cells)) := by
  obtain ⟨-, -, -, himm, hx⟩ := Registers.nonImmediate_spec (P := P) (t := t) he.sound hv hst
  refine hd.then fun a c₁ ⟨hc₁, ha⟩ => ?_
  obtain ⟨c₂, hx₂, hc₂, hv₂, -⟩ := hx c₁
  refine ⟨{ c₂ with zero := c₂.read (st.registers.operand st.result) == 0 }, ?_, ?_, ?_, ?_⟩
  · rw [Asm.execAll_append_ok hx₂]
    simp only [execAll, Instr.exec, himm, Bool.false_eq_true, if_false]
  · exact hc₂.stack.trans hc₁.stack
  · exact (hc₂.view_eq C).trans (hc₁.view_eq C)
  · rw [← ha, ← hv₂]

theorem loopAt_of_code {cond : Expr} {s b s₂ : Session} {test : List Instr} (hs : s.Ready t)
    (hb : Emits s.loopHead b (test ++ [.jumpIfEqual (labelAt (s.labels + 1))]))
    (hgrow : Extends b s₂)
    (hcode : (s₂.loopEnd (labelAt s.labels) (labelAt (s.labels + 1))).code <+: code)
    (hy : ∀ c, Yields P t test c c.output
      (fun w c' => c'.stack = c.stack ∧ C.view c' = C.view c ∧ c'.zero = (w == 0))
      (cond.value? (C.store c.cells))) :
    LoopAt P t code C cond s.code.length test s₂.code.length (labelAt s.labels)
      (labelAt (s.labels + 1)) := by
  -- From the last line of the loop to the first.
  rw [Session.loopEnd, Session.code_push] at hcode
  have hback : s₂.code ++ [.instr (.jump (labelAt s.labels))] <+: code := by
    rw [← Session.code_push]
    exact (List.prefix_append _ _).trans hcode
  have hleave : (s.loopHead.code ++ test.map .instr)
      ++ [.instr (.jumpIfEqual (labelAt (s.labels + 1)))] <+: code := by
    have hbcode := hgrow.code_prefix.trans ((List.prefix_append _ _).trans hback)
    rwa [hb.code, List.map_append, ← List.append_assoc] at hbcode
  have htest := (List.prefix_append _ _).trans hleave
  have henter : s.code ++ [.label (labelAt s.labels)] <+: code :=
    (List.prefix_append _ _).trans (Session.code_push _ _ ▸ htest)
  have hundef : .label (labelAt (s.labels + 1)) ∉
      (s₂.push (.instr (.jump (labelAt s.labels)))).code :=
    ((hb.toExtends.trans hgrow).trans (Emits.push s₂ _).toExtends).undefined
      (Or.inl (Nat.lt_succ_self _)) (undefined_bottom hs)
  have htestAt := Asm.holds_of_prefix htest
  have hleaveAt := (Asm.holds_of_prefix hleave).head
  rw [length_loopHead] at htestAt
  rw [List.length_append, List.length_map, length_loopHead] at hleaveAt
  have hend : (s₂.push (.instr (.jump (labelAt s.labels)))).code.length = s₂.code.length + 1 := by
    simp
  exact {
    topAt := labelIndex_of_prefix henter (hs.fresh _ (Nat.le_refl _))
    enter := (Asm.holds_of_prefix henter).head
    test := htestAt
    leave := hleaveAt
    back := (Asm.holds_of_prefix hback).head
    bottomAt := hend ▸ labelIndex_of_prefix hcode hundef
    exit := hend ▸ (Asm.holds_of_prefix hcode).head
    yields := hy }

theorem ready_loopHead {s : Session} (hs : s.Ready t) : s.loopHead.Ready t :=
  hs.grow (.loopHead s) hs.sound rfl

/-- The test of a loop yields its condition on any platform, and the body starts with an empty
register file. -/
theorem loopBody_spec (P : Platform) (ht : t.Conventional) {cond : Expr} {s s₁ : Session}
    {v : Value} {st : Step Value} (hs : s.Ready t)
    (hv : (Gen.expr t cond).run s.loopHead = .ok v s₁)
    (hst : s₁.registers.nonImmediate v = .ok st) :
    (s₁.loopBody st (labelAt (s.labels + 1))).Ready t
      ∧ ∃ test, Emits s.loopHead (s₁.loopBody st (labelAt (s.labels + 1)))
          (test ++ [.jumpIfEqual (labelAt (s.labels + 1))])
        ∧ ∀ C : CellNames, s₁.cells <+: C → ∀ c, Yields P t test c c.output
          (fun w c' => c'.stack = c.stack ∧ C.view c' = C.view c ∧ c'.zero = (w == 0))
          (cond.value? (C.store c.cells)) := by
  have hhead := ready_loopHead hs
  obtain ⟨he, hown, is, hem, hd⟩ := expr_spec (P := P) ht cond hhead.sound hhead.pool hv
  obtain ⟨hen, -⟩ := Registers.nonImmediate_spec (P := P) (t := t) he.sound hown.live hst
  have hemb := hem.trans (Emits.loopBody s₁ st (labelAt (s.labels + 1)))
  rw [← List.append_assoc] at hemb
  refine ⟨hhead.grow hemb.toExtends (Registers.sound_freeAll _) (hen.pool.trans he.pool), _, hemb,
    fun C hC c => ?_⟩
  exact yields_test he hown.live hst (hd C hC c)

/-- A loop is compiled if its body is. -/
theorem compiled_loop (ht : t.Conventional) {cond : Expr} {body : ℕ → State → Option Outcome}
    {s s₁ s₂ : Session} {v : Value} {st : Step Value} (hs : s.Ready t)
    (hv : (Gen.expr t cond).run s.loopHead = .ok v s₁)
    (hst : s₁.registers.nonImmediate v = .ok st)
    (hbody : (s₁.loopBody st (labelAt (s.labels + 1))).Ready t →
      Compiled P t body (s₁.loopBody st (labelAt (s.labels + 1))) s₂) :
    Compiled P t (fun n => loopRun cond (body n) n) s
      (s₂.loopEnd (labelAt s.labels) (labelAt (s.labels + 1))) := by
  obtain ⟨hready, test, hemb, hyields⟩ := loopBody_spec P ht hs hv hst
  have hc := hbody hready
  have hgrow := (Extends.loopHead s).trans (hemb.toExtends.trans hc.grows)
  have hlabels : s.labels + 2 ≤ s₂.labels := (hemb.toExtends.trans hc.grows).labels
  have hgrows : Extends s (s₂.loopEnd (labelAt s.labels) (labelAt (s.labels + 1))) :=
    (hgrow.trans (Emits.push s₂ _).toExtends).pushLabel (Nat.le_succ _) hlabels
  refine ⟨hs.grow hgrows hc.ready.sound (hc.ready.pool.trans hs.pool.symm), hgrows, ?_⟩
  intro code C hcode hC hP limit c
  have hcode₂ : s₂.code <+: code := by
    have hend := hcode
    rw [Session.loopEnd, Session.code_push, Session.code_push, List.append_assoc] at hend
    exact (List.prefix_append _ _).trans hend
  have hC₁ : s₁.cells <+: C := hc.grows.cells.trans hC
  have hloop := loopAt_of_code hs hemb hc.grows hcode (hyields C hC₁)
  have hstop : (s₂.loopEnd (labelAt s.labels) (labelAt (s.labels + 1))).code.length
      = s₂.code.length + 2 := by
    simp [Session.loopEnd]
  have hstart : (s₁.loopBody st (labelAt (s.labels + 1))).code.length
      = s.code.length + 1 + test.length + 1 := by
    rw [hemb.code, List.length_append, List.length_map, length_loopHead, List.length_append]
    rfl
  rw [hstop]
  exact hloop.follows (fun c => hstart ▸ hc.follows hcode₂ hC hP limit c) limit (Nat.le_refl _) c

end Loop

/-! ## All statements -/

section Stmts

variable {P : Platform} {t : Target}

theorem Compiled.congr {run run' : ℕ → State → Option Outcome} {s s' : Session}
    (h : Compiled P t run s s') (hrun : ∀ n σ, run n σ = run' n σ) : Compiled P t run' s s' := by
  have heq : run = run' := funext fun n => funext fun σ => hrun n σ
  exact heq ▸ h

theorem readVars_spec (ht : t.Conventional) : ∀ (refs : List (Option VarRef)) {s s' : Session},
    s.Ready t → (Gen.readVars t refs).run s = .ok () s' →
      Compiled P t (fun _ => readRun refs) s s'
  | [], s, s', hs, h => by
    cases h
    exact .nil hs
  | ref :: refs, s, s', hs, h => by
    rw [Gen.readVars] at h
    obtain ⟨_, s₁, href, hrefs⟩ := Gen.run_bind_ok.1 h
    obtain ⟨n, d, pos, rfl, hc⟩ := readVar_spec (P := P) ht hs href
    exact (hc.andThen (readVars_spec ht refs hc.ready hrefs)).congr fun n σ => rfl

theorem writeExprs_spec (ht : t.Conventional) : ∀ (es : List Expr) {s s' : Session},
    s.Ready t → (Gen.writeExprs t es).run s = .ok () s' →
      Compiled P t (fun _ => writeRun es) s s'
  | [], s, s', hs, h => by
    cases h
    exact .nil hs
  | e :: es, s, s', hs, h => by
    rw [Gen.writeExprs] at h
    obtain ⟨_, s₁, he, h⟩ := Gen.run_bind_ok.1 h
    have hc := writeExpr_spec (P := P) ht hs he
    refine (hc.andThen (writeExprs_spec ht es hc.ready h)).congr fun n σ => ?_
    rw [writeRun]
    cases e.value? σ.store <;> rfl

/-- Giving registers back takes no code. -/
theorem Compiled.freeAll {run : ℕ → State → Option Outcome} {s s' : Session}
    (h : Compiled P t run s s') : Compiled P t run s (s'.commit s'.registers.freeAll) := by
  have hem : Emits s' (s'.commit s'.registers.freeAll) [] := .commit s' _
  have hcode : (s'.commit s'.registers.freeAll).code = s'.code := by simp [hem.code]
  refine ⟨h.ready.grow hem.toExtends (Registers.sound_freeAll _) rfl,
    h.grows.trans hem.toExtends, ?_⟩
  rw [hcode]
  exact h.follows

mutual

/-- The code of a statement runs as the statement does. -/
theorem stmt_spec (ht : t.Conventional) : ∀ (st : Stmt) {s s' : Session}, s.Ready t →
    (Gen.stmt t st).run s = .ok () s' → Compiled P t (fun n => st.run n) s s'
  | .block b, s, s', hs, h => by
    rw [Gen.stmt] at h
    exact (block_spec ht b hs h).congr fun n σ => by rw [Stmt.run]
  | .decl d, s, s', hs, h => by
    cases h
    exact (Compiled.nil hs).congr fun n σ => by rw [Stmt.run]
  | .assign pos target source, s, s', hs, h => by
    rw [Gen.stmt] at h
    obtain ⟨n, d, pos, rfl, hc⟩ := assign_spec (P := P) ht hs h
    exact hc.congr fun n σ => by rw [Stmt.run]
  | .read pos refs, s, s', hs, h => by
    rw [Gen.stmt] at h
    exact (readVars_spec ht refs hs h).congr fun n σ => by rw [Stmt.run]
  | .write pos es, s, s', hs, h => by
    rw [Gen.stmt] at h
    exact (writeExprs_spec ht es hs h).congr fun n σ => by rw [Stmt.run]
  | .loop pos cond none, s, s', hs, h => by
    obtain ⟨v, s₁, st, s₂, hv, hst, hb, rfl⟩ := run_loop_ok h
    cases hb
  | .loop pos cond (some b), s, s', hs, h => by
    obtain ⟨v, s₁, st, s₂, hv, hst, hb, rfl⟩ := run_loop_ok h
    rw [Gen.blockOf] at hb
    refine (compiled_loop ht hs hv hst fun hbs => block_spec ht b hbs hb).congr fun n σ => ?_
    rw [Stmt.run]
  | .gap g, s, s', _, h => by cases h

theorem block_spec (ht : t.Conventional) : ∀ (b : Block) {s s' : Session}, s.Ready t →
    (Gen.block t b).run s = .ok () s' → Compiled P t (fun n => b.run n) s s'
  | .mk pos ss, s, s', hs, h => by
    rw [Gen.block] at h
    obtain ⟨_, s₁, hss, h⟩ := Gen.run_bind_ok.1 h
    cases h
    exact (stmts_spec ht ss hs hss).freeAll.congr fun n σ => by rw [Block.run]

theorem stmts_spec (ht : t.Conventional) : ∀ (ss : List Stmt) {s s' : Session}, s.Ready t →
    (Gen.stmts t ss).run s = .ok () s' → Compiled P t (fun n => Stmt.runAll n ss) s s'
  | [], s, s', hs, h => by
    cases h
    exact (Compiled.nil hs).congr fun n σ => by rw [Stmt.runAll]
  | st :: ss, s, s', hs, h => by
    rw [Gen.stmts] at h
    obtain ⟨_, s₁, hst, h⟩ := Gen.run_bind_ok.1 h
    have hc := stmt_spec ht st hs hst
    exact (hc.andThen (stmts_spec ht ss hc.ready h)).congr fun n σ => by rw [Stmt.runAll]

end

end Stmts

end WhileAsm.Lowering
