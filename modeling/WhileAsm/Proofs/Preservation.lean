import WhileAsm.Proofs.Naming
import WhileAsm.Proofs.StmtCode

/-!
# A listing does what its program does

The listing of a program is run from its entry label. It returns exactly if the program ends, with
the same output and with each number of the store in the cell of its declaration, and it faults
exactly if the program faults, after the same output (`listing_refines`). The machine follows the
program under every limit on the turns of its loops (`obeys_program`); a machine that stops has
taken a number of steps, and a run under a higher limit must have ended.
-/

namespace WhileAsm.Lowering

open Asm (AtFault AtReturn Config Cpu FaultsAt Holds Instr Line Platform Returns Stops Target after
  labelIndex step)

/-! ## The listing of a program -/

/-- The session in which the listing of a program was generated. -/
def generated (t : Target) (p : Option Program) : Except GenError Session :=
  match (Gen.program t p).run (.start t) with
  | .ok _ s => .ok s
  | .error e _ => .error e

/-- The lines before the code of a program. -/
def prologue (t : Target) : List Line :=
  [.global t.entryPoint, .textSection, .label t.entryPoint, .instr (.push t.basePointer)]

/-- The session at the block of a program. -/
def Session.entered (t : Target) : Session :=
  { registers := .ofPool t.scratch
    lines := (prologue t).toArray
    events := #[.generating] }

/-- The lines after the code of a program. -/
def epilogue (t : Target) (used : List String) : List Line :=
  [.instr (.pop t.basePointer), .instr .ret] ++ Gen.dataLines t used

/-- A text is the listing of a session, and the code in it is that of the program's block. -/
theorem generate_ok {t : Target} {p : Program} {text : String}
    (h : generate t (some p) = .ok text) :
    ∃ b s₁ s, p.block = some b ∧ (Gen.block t b).run (.entered t) = .ok () s₁
      ∧ generated t (some p) = .ok s ∧ text = Asm.listingText s.code
      ∧ s.code = s₁.code ++ epilogue t s₁.used ∧ s.cells = s₁.cells := by
  unfold generate at h
  split at h
  · rename_i text' s hrun
    cases h
    have hgen : generated t (some p) = .ok s := by
      unfold generated
      rw [hrun]
    simp only [Gen.program] at hrun
    obtain ⟨_, _, hrestart, hrun⟩ := Gen.run_bind_ok.1 hrun
    cases hrestart
    obtain ⟨_, _, hreport, hrun⟩ := Gen.run_bind_ok.1 hrun
    cases hreport
    obtain ⟨_, s₂, hbody, hrun⟩ := Gen.run_bind_ok.1 hrun
    simp only [Gen.programBody, Gen.run_line_bind, Gen.run_instr_bind] at hbody
    obtain ⟨_, s₁, hblock, hbody⟩ := Gen.run_bind_ok.1 hbody
    cases hbody
    cases hb : p.block with
    | none =>
      rw [hb] at hblock
      cases hblock
    | some b =>
      rw [hb, Gen.blockOf] at hblock
      cases hrun
      refine ⟨b, s₁, _, rfl, hblock, hgen, rfl, ?_, rfl⟩
      simp [Session.code, epilogue]
  · cases h

/-- The cells at the end of a program's block are those of the declarations it refers to. -/
theorem refines_entered {t : Target} {b : Block} {s₁ : Session}
    (hb : (Gen.block t b).run (.entered t) = .ok () s₁) :
    s₁.Refines (Cells.nameAll [] b.refs) :=
  refines_block (s := .entered t) b (Session.Refines.start t) hb

/-! ## Runs of the listing -/

section Runs

variable {P : Platform} {t : Target}

theorem ready_entered (hentry : ∀ j, t.entryPoint ≠ labelAt j) : (Session.entered t).Ready t where
  sound := Registers.sound_ofPool _
  pool := rfl
  fresh j _ h := by
    have hmem : Line.label (labelAt j) ∈ prologue t := h
    simp only [prologue, List.mem_cons, reduceCtorEq, Asm.Line.label.injEq, List.not_mem_nil,
      or_false, false_or] at hmem
    exact hentry j hmem.symm

theorem CellNames.view_start (C : CellNames) (regs : String → Int64) (zero : Bool)
    (input : Stream' Int64) : C.view (.start regs zero input) = .start input := by
  have hstore : C.store (fun _ => 0) = fun _ => 0 := by
    funext p
    unfold store
    split <;> rfl
  unfold view
  rw [show (Cpu.start regs zero input).cells = fun _ => 0 from rfl, hstore]
  rfl

/-- The machine at the end of the code of a block returns, and the stack is empty again. -/
theorem after_epilogue {code : List Line} {n : ℕ} {c : Cpu} {v : Int64} {rest : List Line}
    (hcode : Holds code n ([.instr (.pop t.basePointer), .instr .ret] ++ rest))
    (hstack : c.stack = [v]) :
    ∃ c', after P t code 1 ⟨n, c⟩ = some ⟨n + 1, c'⟩ ∧ AtReturn code ⟨n + 1, c'⟩
      ∧ c'.cells = c.cells ∧ c'.output = c.output := by
  have hpop : (Instr.pop t.basePointer).exec P t c
      = .ok { c.setReg t.basePointer v with stack := [] } := by
    simp only [Instr.exec, hstack]
  refine ⟨{ c.setReg t.basePointer v with stack := [] }, ?_, ⟨hcode.tail.head, rfl⟩, rfl, rfl⟩
  exact Asm.after_one (Asm.step_of_exec (m := ⟨n, c⟩) hcode.head hpop)

/-- The machine, entered with the processor `c`, does what an outcome says. Without an outcome it
takes at least `bound` steps. -/
def Obeys (P : Platform) (t : Target) (code : List Line) (C : CellNames) (c : Cpu) (bound : ℕ) :
    Option Outcome → Prop
  | some (.done σ) =>
    ∃ c', Returns P t code c c' ∧ c'.output = σ.output ∧ C.store c'.cells = σ.store
  | some (.fault out) => ∃ c', FaultsAt P t code c c' ∧ c'.output = out
  | none => ∃ start k m, labelIndex code t.entryPoint = some start ∧ bound ≤ k
    ∧ after P t code k ⟨start, c⟩ = some m

/-- A listing obeys the runs of its program under every limit. -/
theorem obeys_program (ht : t.Conventional) (hentry : ∀ j, t.entryPoint ≠ labelAt j) {b : Block}
    {s₁ : Session} (hb : (Gen.block t b).run (.entered t) = .ok () s₁)
    (hP : s₁.cells.Apart P.address) (regs : String → Int64) (zero : Bool)
    (input : Stream' Int64) (limit : ℕ) :
    Obeys P t (s₁.code ++ epilogue t s₁.used) s₁.cells (.start regs zero input) limit
      (b.run limit (.start input)) := by
  have hc := block_spec (P := P) ht b (ready_entered hentry) hb
  generalize hcode : s₁.code ++ epilogue t s₁.used = code
  have hpre : s₁.code <+: code := ⟨_, hcode⟩
  have hprologue : prologue t <+: code := hc.grows.code_prefix.trans hpre
  have hfront : [.global t.entryPoint, .textSection] ++ [.label t.entryPoint] <+: code :=
    List.IsPrefix.trans ⟨[.instr (.push t.basePointer)], rfl⟩ hprologue
  have hindex : labelIndex code t.entryPoint = some 2 := labelIndex_of_prefix hfront (by simp)
  have hholds : Holds code 0 (prologue t) := hprologue
  -- The label and the saving of the base pointer lead to the code of the block.
  generalize hc₀ : Cpu.start regs zero input = c₀
  have hstack₀ : c₀.stack = [] := by rw [← hc₀]; rfl
  have hlabel : step P t code ⟨2, c₀⟩ = some ⟨3, c₀⟩ := by
    simp [step, hholds.tail.tail.head]
  have hpush : step P t code ⟨3, c₀⟩
      = some ⟨4, { c₀ with stack := c₀.regs t.basePointer :: c₀.stack }⟩ :=
    Asm.step_of_exec (m := ⟨3, c₀⟩) hholds.tail.tail.tail.head rfl
  have henter := Asm.after_trans (Asm.after_one hlabel) (Asm.after_one hpush)
  have hview : s₁.cells.view { c₀ with stack := c₀.regs t.basePointer :: c₀.stack }
      = .start input := by
    rw [← CellNames.view_start s₁.cells regs zero input, hc₀]
    rfl
  have hfollows := hc.follows hpre List.prefix_rfl hP limit
    { c₀ with stack := c₀.regs t.basePointer :: c₀.stack }
  rw [hview, show (Session.entered t).code.length = 4 from rfl] at hfollows
  generalize b.run limit (.start input) = o at hfollows ⊢
  rcases o with _ | σ | out
  · obtain ⟨k, m, hk, hm⟩ := hfollows
    exact ⟨2, _, m, hindex, hk.trans (Nat.le_add_left _ _), Asm.after_trans henter hm⟩
  · obtain ⟨k, c, hk, hσ, hstack⟩ := hfollows
    have hend : Holds code s₁.code.length ([.instr (.pop t.basePointer), .instr .ret] ++
        Gen.dataLines t s₁.used) := Asm.holds_of_prefix ⟨[], by simpa [epilogue] using hcode⟩
    rw [hstack₀] at hstack
    obtain ⟨c', hpop, hret, hcells, hout⟩ := after_epilogue (P := P) hend hstack
    refine ⟨c', ⟨2, _, _, hindex, Asm.after_trans henter (Asm.after_trans hk hpop), hret⟩, ?_, ?_⟩
    · rw [hout, ← hσ]
      rfl
    · rw [hcells, ← hσ]
      rfl
  · obtain ⟨k, m, hk, hf, ho⟩ := hfollows
    exact ⟨m.cpu, ⟨2, _, m.line, hindex, Asm.after_trans henter hk, hf⟩, ho⟩

/-- What obeys a program under every limit stops only where the program does. -/
theorem stops_of_obeys {code : List Line} {C : CellNames} {c : Cpu} {run : ℕ → Option Outcome}
    (h : ∀ limit, Obeys P t code C c limit (run limit)) {m : Config} (hm : Stops P t code c m) :
    ∃ limit,
      (∃ σ, run limit = some (.done σ) ∧ AtReturn code m ∧ m.cpu.output = σ.output
        ∧ C.store m.cpu.cells = σ.store)
      ∨ ∃ out, run limit = some (.fault out) ∧ AtFault P t code m ∧ m.cpu.output = out := by
  obtain ⟨start, n, hstart, hn, hstop⟩ := id hm
  refine ⟨n + 1, ?_⟩
  have hobeys := h (n + 1)
  cases hrun : run (n + 1) with
  | none =>
    rw [hrun] at hobeys
    obtain ⟨start', k, m', hstart', hk, hm'⟩ := hobeys
    obtain rfl : start = start' := Option.some.inj (hstart.symm.trans hstart')
    have := Asm.le_of_stopped hn hstop hm'
    omega
  | some o =>
    rw [hrun] at hobeys
    cases o with
    | done σ =>
      obtain ⟨c', hret, hout, hstore⟩ := hobeys
      obtain ⟨line, hs, hat⟩ := hret.stops
      obtain rfl := hm.unique hs
      exact Or.inl ⟨σ, rfl, hat, hout, hstore⟩
    | fault out =>
      obtain ⟨c', hfault, hout⟩ := hobeys
      obtain ⟨line, hs, hat⟩ := hfault.stops
      obtain rfl := hm.unique hs
      exact Or.inr ⟨out, rfl, hat, hout⟩

end Runs

theorem entryPoint_ne_labelAt (os : Asm.OS) (j : ℕ) :
    (Target.x86_64 os).entryPoint ≠ labelAt j := by
  intro h
  have := congrArg (fun x : String => x.toList.head?) h
  simp [Target.x86_64, labelAt] at this

/-- The cells of a listing are those that its session has named. -/
theorem mem_listing_cell {t : Target} {b : Block} {s₁ : Session}
    (hb : (Gen.block t b).run (.entered t) = .ok () s₁) {x : String} (hx : x ∈ s₁.cells.names) :
    Line.cell x ∈ s₁.code ++ epilogue t s₁.used := by
  rw [(refines_entered hb).names_eq] at hx
  simp [epilogue, Gen.dataLines, hx]

/-- What a program refers to has a cell, and the listing sets it up. -/
theorem cell_of_ref {t : Target} {b : Block} {s₁ : Session}
    (hb : (Gen.block t b).run (.entered t) = .ok () s₁) {d : Decl} (hd : d ∈ b.refs) :
    ∃ x, s₁.cells.find? d.place = some x
      ∧ Line.cell x ∈ s₁.code ++ epilogue t s₁.used := by
  have hs := refines_entered hb
  have hmem : d.place ∈ Cells.nameAll [] b.refs := Cells.mem_nameAll [] hd
  cases hx : s₁.cells.find? d.place with
  | none =>
    rw [hs.find?, Cells.find?_eq_none_iff] at hx
    exact absurd hmem hx
  | some x => exact ⟨x, rfl, mem_listing_cell hb (CellNames.mem_names_of_find? hx)⟩

/-- The lines of a listing refine its program. With the session that wrote them, every declaration
that the program refers to has a cell in the listing; and wherever the cells are in memory, whatever
is in the registers at first and whatever the input, the listing returns exactly if the program ends
and faults at a division exactly if the program faults, with the same output and the same store. -/
theorem listing_refines {os : Asm.OS} {p : Program} {text : String}
    (h : generate (.x86_64 os) (some p) = .ok text) :
    ∃ s, generated (.x86_64 os) (some p) = .ok s ∧ text = Asm.listingText s.code
      ∧ (∀ d ∈ p.refs, ∃ x, s.cells.find? d.place = some x ∧ .cell x ∈ s.code)
      ∧ ∀ P : Platform, Set.InjOn P.address {x | .cell x ∈ s.code} →
        ∀ (regs : String → Int64) (zero : Bool) (input : Stream' Int64),
          (∀ out store, p.Ends input out store ↔
            ∃ c, Returns P (.x86_64 os) s.code (.start regs zero input) c ∧ c.output = out
              ∧ s.cells.store c.cells = store)
          ∧ ∀ out, p.Faults input out ↔
            ∃ c, FaultsAt P (.x86_64 os) s.code (.start regs zero input) c ∧ c.output = out := by
  obtain ⟨b, s₁, s, hblock, hrun, hgen, htext, hcode, hcells⟩ := generate_ok h
  have hrefs : p.refs = b.refs := by simp [Program.refs, hblock]
  have hprun : ∀ limit input, p.run limit input = b.run limit (.start input) := by
    simp [Program.run, hblock]
  refine ⟨s, hgen, htext, ?_, ?_⟩
  · intro d hd
    rw [hcode, hcells]
    exact cell_of_ref hrun (hrefs ▸ hd)
  · intro P hP regs zero input
    have hinj : Set.InjOn P.address {x | x ∈ s₁.cells.names} := by
      refine hP.mono fun x hx => ?_
      rw [hcode]
      exact mem_listing_cell hrun hx
    have hobeys := obeys_program (Asm.Target.conventional_x86_64 os) (entryPoint_ne_labelAt os)
      hrun ⟨(refines_entered hrun).cells_distinct, hinj⟩ regs zero input
    rw [← hcode, ← hcells] at hobeys
    simp only [← hprun _ input] at hobeys
    refine ⟨fun out store => ⟨?_, ?_⟩, fun out => ⟨?_, ?_⟩⟩
    · rintro ⟨limit, σ, hdone, rfl, rfl⟩
      have := hobeys limit
      rwa [hdone] at this
    · rintro ⟨c, hret, rfl, rfl⟩
      obtain ⟨line, hs, hat⟩ := hret.stops
      obtain ⟨limit, ⟨σ, hdone, -, hout, hstore⟩ | ⟨-, -, hfault, -⟩⟩ := stops_of_obeys hobeys hs
      · exact ⟨limit, σ, hdone, hout.symm, hstore.symm⟩
      · exact absurd hat hfault.not_atReturn
    · rintro ⟨limit, hfault⟩
      have := hobeys limit
      rwa [hfault] at this
    · rintro ⟨c, hfault, rfl⟩
      obtain ⟨line, hs, hat⟩ := hfault.stops
      obtain ⟨limit, ⟨-, -, hret, -⟩ | ⟨out, hrun, -, hout⟩⟩ := stops_of_obeys hobeys hs
      · exact absurd hret hat.not_atReturn
      · exact ⟨limit, hout ▸ hrun⟩

end WhileAsm.Lowering
