import WhileAsm.Proofs.Listings
import WhileAsm.Proofs.LoopCode

/-!
# The symbols of a listing

A listing defines its entry label, the formats, two labels for each loop of its program and the
cells, each once (`perm_defined_listing`, `nodup_symbolsOf`). It uses no other symbols, but for the
routines that it calls, and the lines of its loops are nested as the loops are in the tree
(`generate_closed`).
-/

namespace WhileAsm.Lowering

open Asm (Instr Line Target controls defined)

/-! ## Names -/

theorem ne_labelAt {x : String} (h : x.toList.head? ≠ some 'L') (j : ℕ) : x ≠ labelAt j := by
  rintro rfl
  simp [labelAt] at h

theorem ne_nameAt {x : String} (h : x.toList.take 2 ≠ ['_', 'v']) (i : ℕ) : x ≠ Cells.nameAt i := by
  rintro rfl
  simp [Cells.nameAt] at h

theorem nameAt_ne_labelAt (i j : ℕ) : Cells.nameAt i ≠ labelAt j :=
  ne_labelAt (by simp [Cells.nameAt]) j

/-- The symbols of a program with some loops and cells. -/
def symbolsOf (t : Target) (loops : ℕ) (c : Cells) : List String :=
  [t.entryPoint, t.readFormat, t.writeFormat]
    ++ ((List.range (2 * loops)).map labelAt ++ c.names)

theorem mem_symbolsOf {t : Target} {loops : ℕ} {c : Cells} {x : String} :
    x ∈ symbolsOf t loops c ↔ x ∈ [t.entryPoint, t.readFormat, t.writeFormat]
      ∨ (∃ j < 2 * loops, labelAt j = x) ∨ x ∈ c.names := by
  rw [symbolsOf, List.mem_append, List.mem_append]
  simp only [List.mem_map, List.mem_range]

theorem notMem_symbolsOf {t : Target} {x : String}
    (hx : x ∉ [t.entryPoint, t.readFormat, t.writeFormat]) (hlabel : x.toList.head? ≠ some 'L')
    (hname : x.toList.take 2 ≠ ['_', 'v']) (loops : ℕ) (c : Cells) : x ∉ symbolsOf t loops c := by
  rw [mem_symbolsOf]
  rintro (h | ⟨j, -, h⟩ | h)
  · exact hx h
  · exact ne_labelAt hlabel j h.symm
  · obtain ⟨i, -, h⟩ := List.mem_map.1 h
    exact ne_nameAt hname i h.symm

theorem nodup_symbolsOf (os : Asm.OS) (loops : ℕ) (c : Cells) :
    (symbolsOf (.x86_64 os) loops c).Nodup := by
  -- No name has the first characters of those of another kind.
  have hfixed : ∀ x ∈ ["_main", "READ", "WRITE"],
      x.toList.head? ≠ some 'L' ∧ x.toList.take 2 ≠ ['_', 'v'] := by decide
  have hdrawn : ((List.range (2 * loops)).map labelAt ++ c.names).Nodup := by
    refine List.nodup_append.2
      ⟨List.nodup_range.map fun _ _ h => labelAt_injective h, c.nodup_names, ?_⟩
    rintro _ hx _ hy rfl
    obtain ⟨j, -, rfl⟩ := List.mem_map.1 hx
    obtain ⟨i, -, hi⟩ := List.mem_map.1 hy
    exact nameAt_ne_labelAt i j hi
  refine List.nodup_append.2 ⟨by simp [Target.x86_64], hdrawn, ?_⟩
  rintro x hx _ hy rfl
  obtain ⟨hlabel, hname⟩ := hfixed x hx
  rcases List.mem_append.1 hy with hy | hy
  · obtain ⟨j, -, hj⟩ := List.mem_map.1 hy
    exact ne_labelAt hlabel j hj.symm
  · obtain ⟨i, -, hi⟩ := List.mem_map.1 hy
    exact ne_nameAt hname i hi.symm

theorem routines_notMem_symbolsOf (os : Asm.OS) (loops : ℕ) (c : Cells) :
    ∀ f ∈ ["scanf", "_printf"], f ∉ symbolsOf (.x86_64 os) loops c := by
  have hchars : ∀ f ∈ ["scanf", "_printf"], f ∉ ["_main", "READ", "WRITE"]
      ∧ f.toList.head? ≠ some 'L' ∧ f.toList.take 2 ≠ ['_', 'v'] := by decide
  intro f hf
  obtain ⟨hfixed, hlabel, hname⟩ := hchars f hf
  exact notMem_symbolsOf hfixed hlabel hname loops c

/-! ## What a listing promises -/

/-- The symbols of a listing: each is defined once, and those that are used are defined, but for the
routines that are called, which are not. -/
structure Closed (code : List Line) (routines : List String) : Prop where
  once : (defined code).Nodup
  used : ∀ l ∈ code, ∀ x ∈ l.symbols, x ∈ defined code
  calls : ∀ f, .instr (.call f) ∈ code → f ∈ routines
  missing : ∀ f ∈ routines, f ∉ defined code

/-- The loops of a tree in a listing. -/
structure Nested (b : Block) (code : List Line) (ps : List Loop) : Prop where
  addresses : ps.map Loop.address = b.loops
  numbers : ps.map Loop.number = List.range' 0 b.loops.length 2
  distinct : b.loops.Nodup
  loops : ∀ a i, a ++ [i] ∈ b.loops ↔ b.LoopsAt a i
  ordered : ∀ p ∈ ps, p.top < p.test ∧ p.test < p.back
  /-- The labels and jumps of a loop stand on its lines and nowhere else. -/
  lines : ∀ p ∈ ps, ∀ l m, (l, m) ∈ p.lines → ∀ k, code[k]? = some l ↔ k = m
  /-- A loop in the body of another is between its test and its jump back. -/
  inside : ∀ p ∈ ps, ∀ q ∈ ps, p ≠ q → p.address <+: q.address →
    p.test < q.top ∧ q.bottom < p.back
  apart : ∀ p ∈ ps, ∀ q ∈ ps, ¬ p.address <+: q.address → ¬ q.address <+: p.address →
    p.bottom < q.top ∨ q.bottom < p.top
  /-- A jump to a line of a loop comes from a line of the loop. -/
  entered : ∀ p ∈ ps, ∀ k i x m, code[k]? = some (.instr i) → i.target? = some x →
    code[m]? = some (.label x) → p.top ≤ m → m ≤ p.bottom → p.top ≤ k ∧ k ≤ p.bottom

/-! ## The lines of a program -/

/-- The lines of a program whose block has the code `body`. -/
def listing (t : Target) (body : List Line) (c : Cells) : List Line :=
  prologue t ++ (body ++ epilogue t c.names)

section Listing

variable {t : Target} {b : Block} {c : Cells} {cells : CellNames} {body : List Line}
  {ps : List Loop}

theorem mem_listing {l : Line} :
    l ∈ listing t body c ↔ l ∈ prologue t ∨ l ∈ body ∨ l ∈ epilogue t c.names := by
  rw [listing, List.mem_append, List.mem_append]

/-- The code of a program is between lines that neither jump nor call, and use no symbol but the
entry label. -/
theorem mem_epilogue {used : List String} {l : Line} (h : l ∈ epilogue t used) :
    l.isControl = false ∧ l.symbols = [] ∧ l.routine? = none := by
  simp only [epilogue, Gen.dataLines, List.mem_append, List.mem_cons, List.not_mem_nil, or_false,
    List.mem_map] at h
  rcases h with (rfl | rfl) | (rfl | rfl | rfl) | ⟨x, -, rfl⟩ <;>
    exact ⟨rfl, rfl, rfl⟩

theorem mem_prologue {l : Line} (h : l ∈ prologue t) :
    (∀ x ∈ l.symbols, x = t.entryPoint) ∧ l.routine? = none := by
  simp only [prologue, List.mem_cons, List.not_mem_nil, or_false] at h
  rcases h with rfl | rfl | rfl | rfl <;>
    simp [Line.symbols, Instr.symbols, Line.routine?, Instr.routine?]

theorem controls_listing : controls 0 (listing t body c)
    = (.label t.entryPoint, 2) :: controls (prologue t).length body := by
  have hend : controls (4 + body.length) (epilogue t c.names) = [] :=
    Asm.controls_eq_nil fun l hl => (mem_epilogue hl).1
  rw [listing, Asm.controls_append, Asm.controls_append]
  change [(.label t.entryPoint, 2)] ++ (controls 4 body ++ controls (4 + body.length) _) = _
  rw [hend, List.append_nil]
  rfl

/-- Of the labels and jumps of a listing, only the entry label is not of a loop. -/
theorem mem_controls_listing (h : Laid (prologue t).length 0 b.loops body ps) {l : Line} {k : ℕ} :
    (listing t body c)[k]? = some l ∧ l.isControl
      ↔ (l, k) = (.label t.entryPoint, 2) ∨ ∃ p ∈ ps, (l, k) ∈ p.lines := by
  have hmem : (l, k) ∈ controls 0 (listing t body c) ↔ _ := Asm.mem_controls
  rw [controls_listing, List.mem_cons, h.control.mem_iff, List.mem_flatMap] at hmem
  simpa using hmem.symm

theorem nested_listing (hentry : ∀ j, t.entryPoint ≠ labelAt j)
    (h : Laid (prologue t).length 0 b.loops body ps) : Nested b (listing t body c) ps := by
  have hlines : ∀ p ∈ ps, ∀ l m, (l, m) ∈ p.lines → ∀ k,
      (listing t body c)[k]? = some l ↔ k = m := by
    intro p hp l m hm k
    have hcontrol := Loop.isControl_of_mem hm
    constructor
    · intro hk
      rcases (mem_controls_listing h).1 ⟨hk, hcontrol⟩ with hl | ⟨q, hq, hl⟩
      · obtain ⟨rfl, -⟩ := Prod.mk.inj hl
        obtain ⟨j, hj⟩ := Loop.label_of_mem hm
        exact absurd hj (hentry j)
      · exact h.line_unique hq hp hl hm
    · rintro rfl
      exact ((mem_controls_listing h).2 (Or.inr ⟨p, hp, hm⟩)).1
  refine ⟨h.addresses, h.numbers, ?_, fun a i => Block.mem_loops_iff, h.ordered, hlines,
    fun p hp q hq => h.inside hp hq, fun p hp q hq => h.apart hp hq, ?_⟩
  · rw [← h.addresses]
    refine List.pairwise_map.2 (h.nested.imp fun {p q} hb heq => ?_)
    exact hb.order (heq ▸ List.prefix_rfl)
  · intro p hp k i x m hk hi hm htop hbottom
    have hcontrol : (Line.instr i).isControl := by simp [Line.isControl, hi]
    rcases (mem_controls_listing h).1 ⟨hk, hcontrol⟩ with hl | ⟨q, hq, hl⟩
    · cases hl
    · obtain ⟨hk', m', hm', hends⟩ := Loop.jump_of_mem hl hi
      obtain rfl := (hlines q hq _ m' hm' m).1 hm
      exact h.jump_inside hp hq hk' hends htop hbottom

/-- The symbols that a listing defines. -/
theorem perm_defined_listing (h : Laid (prologue t).length 0 b.loops body ps)
    (hbody : PlainBetween t cells body) :
    (defined (listing t body c)).Perm (symbolsOf t b.loops.length c) := by
  have hcells : (c.names.map Line.cell).filterMap Line.defines = c.names := by
    rw [List.filterMap_map]
    exact List.filterMap_some
  have hlabels := h.perm_defined fun l hl hcontrol => by
    obtain ⟨i, rfl, -⟩ := hbody l hl hcontrol
    rfl
  rw [← List.range_eq_range'] at hlabels
  have hend : defined (epilogue t c.names) = [t.readFormat, t.writeFormat] ++ c.names := by
    rw [epilogue, Gen.dataLines, Asm.defined_append, Asm.defined_append, defined, defined, defined,
      hcells]
    rfl
  rw [listing, Asm.defined_append, Asm.defined_append, hend]
  refine List.Perm.cons t.entryPoint ?_
  exact (hlabels.append_right _).trans (List.perm_append_comm_assoc _ _ _)

/-- Every symbol that a listing uses is one that it defines. -/
theorem used_listing (h : Laid (prologue t).length 0 b.loops body ps)
    (hbody : PlainBetween t cells body) (hcells : cells.names = c.names) {l : Line}
    (hl : l ∈ listing t body c) {x : String} (hx : x ∈ l.symbols) :
    x ∈ defined (listing t body c) := by
  -- A jump goes to a label of its own loop; any other line uses cells, formats or the entry label.
  cases hcontrol : l.isControl with
  | true =>
    obtain ⟨k, hk⟩ := List.getElem?_of_mem hl
    rcases (mem_controls_listing h).1 ⟨hk, hcontrol⟩ with hlabel | ⟨p, hp, hline⟩
    · obtain ⟨rfl, -⟩ := Prod.mk.inj hlabel
      cases hx
    · cases l with
      | instr i =>
        obtain ⟨-, m, hm, -⟩ := Loop.jump_of_mem hline (Asm.target?_of_isControl hcontrol hx)
        have hlabel := ((mem_controls_listing (t := t) (c := c) h).2 (Or.inr ⟨p, hp, hm⟩)).1
        exact Asm.mem_defined.2 ⟨_, List.mem_of_getElem? hlabel, rfl⟩
      | global y => cases hcontrol
      | _ => cases hx
  | false =>
    rw [(perm_defined_listing h hbody).mem_iff, mem_symbolsOf]
    rcases mem_listing.1 hl with hl | hl | hl
    · exact Or.inl (by simp [(mem_prologue hl).1 x hx])
    · obtain ⟨i, rfl, hi⟩ := hbody l hl hcontrol
      rcases hi.symbols x hx with hx | rfl | rfl
      · exact Or.inr (Or.inr (hcells ▸ hx))
      · exact Or.inl (by simp)
      · exact Or.inl (by simp)
    · rw [(mem_epilogue hl).2.1] at hx
      cases hx

theorem calls_listing (hbody : PlainBetween t cells body) {l : Line} (hl : l ∈ listing t body c)
    {f : String} (hf : l.routine? = some f) : f = t.scanFunc ∨ f = t.printFunc := by
  rcases mem_listing.1 hl with hl | hl | hl
  · rw [(mem_prologue hl).2] at hf
    cases hf
  · obtain ⟨i, rfl, hi⟩ := hbody l hl (Asm.isControl_of_routine? hf)
    exact hi.calls f hf
  · rw [(mem_epilogue hl).2.2] at hf
    cases hf

end Listing

/-! ## Every listing -/

/-- A listing has a closed set of symbols, and its loops are nested as those of its program. -/
theorem generate_closed {os : Asm.OS} {p : Option Program} {text : String}
    (h : generate (.x86_64 os) p = .ok text) :
    ∃ q b s ps, p = some q ∧ q.block = some b ∧ generated (.x86_64 os) p = .ok s
      ∧ text = Asm.listingText s.code ∧ Asm.readListing text = some s.code
      ∧ (defined s.code).Perm (["_main", "READ", "WRITE"]
        ++ ((List.range (2 * b.loops.length)).map labelAt ++ s.cells.names))
      ∧ Closed s.code ["scanf", "_printf"] ∧ Nested b s.code ps := by
  cases p with
  | none => cases h
  | some q =>
    obtain ⟨b, s₁, s, hblock, hrun, hgen, htext, hcode, hcells⟩ := generate_ok h
    obtain ⟨body, ps, hbody, hlaid, hplain⟩ := (written_block b hrun).code
    have hs₁ := refines_entered hrun
    have hnames : s₁.cells.names = (Cells.nameAll [] b.refs).names := hs₁.names_eq.trans hs₁.used
    have hcode : s.code = listing (.x86_64 os) body (Cells.nameAll [] b.refs) := by
      rw [hcode, hbody, hs₁.used, List.append_assoc]
      rfl
    have hlaid : Laid (prologue (.x86_64 os)).length 0 b.loops body ps := hlaid
    have hperm := perm_defined_listing (c := Cells.nameAll [] b.refs) hlaid hplain
    refine ⟨q, b, s, ps, rfl, hblock, hgen, htext, read_generate h hgen, ?_⟩
    rw [hcode, hcells, hnames]
    refine ⟨hperm, ⟨?_, ?_, ?_, ?_⟩, nested_listing (entryPoint_ne_labelAt os) hlaid⟩
    · exact hperm.nodup_iff.2 (nodup_symbolsOf os _ _)
    · exact fun l hl x hx => used_listing hlaid hplain hnames hl hx
    · intro f hf
      rcases calls_listing hplain hf rfl with rfl | rfl
      · exact List.mem_cons_self
      · exact List.mem_cons_of_mem _ List.mem_cons_self
    · exact fun f hf hmem => routines_notMem_symbolsOf os _ _ f hf (hperm.mem_iff.1 hmem)

/-- A loop in a loop, and a loop after them that writes what the inner one reads. -/
def nestedLoops : Program :=
  let d : Decl := ⟨[.index 0], "a", .int, ⟨1, 1⟩⟩
  let a : VarRef := ⟨"a", some d, ⟨2, 1⟩⟩
  let again (ss : List Stmt) : Stmt := .loop ⟨2, 1⟩ (.var a) (some (.mk ⟨2, 1⟩ ss))
  ⟨⟨1, 1⟩, some (.mk ⟨1, 1⟩
    [.decl d, again [again [.read ⟨3, 1⟩ [some a]]], again [.write ⟨4, 1⟩ [.var a]]])⟩

theorem generate_closed_nestedLoops :
    ∃ b text s ps, nestedLoops.block = some b ∧ b.loops = [[1], [1, 0], [2]]
      ∧ generate (.x86_64 .linux) (some nestedLoops) = .ok text
      ∧ Asm.readListing text = some s.code
      ∧ generated (.x86_64 .linux) (some nestedLoops) = .ok s
      ∧ Closed s.code ["scanf", "_printf"] ∧ Nested b s.code ps := by
  have hok : (generate (.x86_64 .linux) (some nestedLoops)).isOk := by decide +kernel
  cases hgen : generate (.x86_64 .linux) (some nestedLoops) with
  | error e =>
    rw [hgen] at hok
    cases hok
  | ok text =>
    obtain ⟨q, b, s, ps, hq, hb, hs, -, hread, -, hclosed, hnested⟩ := generate_closed hgen
    cases hq
    cases hb
    exact ⟨_, text, s, ps, rfl, rfl, rfl, hread, hs, hclosed, hnested⟩

end WhileAsm.Lowering
