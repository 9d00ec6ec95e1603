import WhileAsm.Proofs.Pieces

/-!
# Listings as they are in the text

Every name in a piece of a listing is one, so whatever was written in a session can be read back
from its text (`Grown.read`). What is shown of the lines of a listing is thus shown of its text.

The lines that are read from the text of a program do what the program does (`generate_refines`). In
any session, the text of a program ends with one cell for each declaration that the program refers
to, in the order of first reference (`session_names`).
-/

namespace WhileAsm

namespace Lowering

open Asm (FaultsAt IsName Line Platform Returns Target)

/-! ## Lines that can be read back -/

section Reading

variable {os : Asm.OS} {s : Session}

theorem LibraryCall.instrs {t : Target} {ls : List Line} (h : LibraryCall t ls) :
    ∀ l ∈ ls, ∃ i, l = .instr i := by
  cases h <;> simp [callSequence]

theorem Piece.legible {ls : List Line} (h : Piece (.x86_64 os) ls) : ls.Forall Line.Legible := by
  have hinstr : ∀ i, .instr i ∈ ls → i.Legible := fun i hi => (h.fits hi).legible
  have hentry : IsName "_main" := by decide
  cases h with
  | computation | out | back => exact hinstr _ (List.mem_singleton_self _)
  | call hc =>
    rw [List.forall_iff_forall_mem]
    intro l hl
    obtain ⟨i, rfl⟩ := hc.instrs l hl
    exact hinstr i hl
  | enter => exact ⟨hentry, trivial, hentry, hinstr _ (by simp [prologue])⟩
  | leave => exact ⟨hinstr _ (by simp [returnLines]), hinstr _ (by simp [returnLines])⟩
  | @label j => exact isName_labelAt j
  | formats => exact ⟨trivial, show IsName "READ" by decide, show IsName "WRITE" by decide⟩
  | @cell k => exact isName_nameAt k

theorem Grown.legible (h : Grown (.x86_64 os) (Piece (.x86_64 os)) (.start (.x86_64 os)) s) :
    ∀ l ∈ s.code, l.Legible := by
  obtain ⟨ps, hps, hpiece⟩ := h.code
  have hcode : s.code = ps.flatten := hps
  intro l hl
  rw [hcode, List.mem_flatten] at hl
  obtain ⟨ls, hls, hl⟩ := hl
  exact List.forall_iff_forall_mem.1 (hpiece ls hls).legible l hl

/-- What was written in a session is read back from its text. -/
theorem Grown.read (h : Grown (.x86_64 os) (Piece (.x86_64 os)) (.start (.x86_64 os)) s) :
    Asm.readListing (Asm.listingText s.code) = some s.code :=
  Asm.readListing_listingText h.legible

/-- The text of a program is read as the lines that were written. -/
theorem read_program {p : Option Program} {s' : Session} {text : String}
    (h : (Gen.program (.x86_64 os) p).run s = .ok text s') :
    Asm.readListing text = some s'.code := by
  have hgrown := grown_program (Asm.Target.conventional_x86_64 os) p s
  rw [Gen.leaves_of_ok h] at hgrown
  cases p with
  | none => cases h
  | some p =>
    obtain ⟨-, rfl, -⟩ := program_ok h
    exact hgrown.read

theorem read_generate {p : Option Program} {text : String}
    (h : generate (.x86_64 os) p = .ok text) (hs : generated (.x86_64 os) p = .ok s) :
    Asm.readListing text = some s.code := by
  unfold generate at h
  unfold generated at hs
  cases hrun : (Gen.program (.x86_64 os) p).run (.start (.x86_64 os)) with
  | ok text' s' =>
    rw [hrun] at h hs
    cases h
    cases hs
    exact read_program hrun
  | error e s' =>
    rw [hrun] at h
    cases h

end Reading

/-! ## What the text of a program does -/

/-- The text of a program refines the program. The lines that are read from it have a cell for every
declaration that the program refers to; and wherever the cells are in memory, whatever is in the
registers at first and whatever the input, these lines return exactly if the program ends and fault
at a division exactly if the program faults, with the same output and the same store. -/
theorem generate_refines {os : Asm.OS} {p : Program} {text : String}
    (h : generate (.x86_64 os) (some p) = .ok text) :
    ∃ s code, generated (.x86_64 os) (some p) = .ok s ∧ Asm.readListing text = some code
      ∧ text = Asm.listingText code
      ∧ (∀ d ∈ p.refs, ∃ x, s.cells.find? d.place = some x ∧ .cell x ∈ code)
      ∧ ∀ P : Platform, Set.InjOn P.address {x | .cell x ∈ code} →
        ∀ (regs : String → Int64) (zero : Bool) (input : Stream' Int64),
          (∀ out store, p.Ends input out store ↔
            ∃ c, Returns P (.x86_64 os) code (.start regs zero input) c ∧ c.output = out
              ∧ s.cells.store c.cells = store)
          ∧ ∀ out, p.Faults input out ↔
            ∃ c, FaultsAt P (.x86_64 os) code (.start regs zero input) c ∧ c.output = out := by
  obtain ⟨s, hgen, htext, hcells, hruns⟩ := listing_refines h
  exact ⟨s, s.code, hgen, read_generate h hgen, htext, hcells, hruns⟩

/-- Reads `a`, then counts it down and writes `b / (a - 2)` in each turn. -/
def countdown : Program :=
  let a : VarRef := ⟨"a", some ⟨[.index 0], "a", .int, ⟨1, 1⟩⟩, ⟨3, 1⟩⟩
  let b : VarRef := ⟨"b", some ⟨[.index 1], "b", .int, ⟨2, 1⟩⟩, ⟨5, 1⟩⟩
  let less (k : Int64) : Expr := .binary ⟨5, 1⟩ .sub (.var a) (.int ⟨5, 1⟩ k)
  ⟨⟨1, 1⟩, some (.mk ⟨1, 1⟩
    [.read ⟨3, 1⟩ [some a],
      .loop ⟨4, 1⟩ (.var a) (some (.mk ⟨5, 1⟩
        [.write ⟨5, 1⟩ [.binary ⟨5, 1⟩ .div (.var b) (less 2)],
          .assign ⟨6, 1⟩ (some a) (less 1)]))])⟩

/-- A platform on which the first cell is not where the others are. -/
def splitPlatform : Platform where
  address x := if x = "_v1" then 8 else 16
  regsAfterCall _ _ := 0
  flagAfter _ := true

/-- The storage cells that a listing sets up. -/
def cellNames (code : List Line) : List String :=
  code.filterMap fun
    | .cell x => some x
    | _ => none

theorem mem_cellNames {code : List Line} {x : String} (h : .cell x ∈ code) : x ∈ cellNames code :=
  List.mem_filterMap.2 ⟨_, h, rfl⟩

/-- The two cells of the listing are apart on that platform. -/
theorem injOn_countdown {s : Session} (hs : generated (.x86_64 .linux) (some countdown) = .ok s) :
    Set.InjOn splitPlatform.address {x | .cell x ∈ s.code} := by
  have hcells : (generated (.x86_64 .linux) (some countdown)).toOption.map (cellNames ·.code)
      = some ["_v1", "_v2"] := by decide +kernel
  rw [hs] at hcells
  have hnames : cellNames s.code = ["_v1", "_v2"] := Option.some.inj hcells
  intro x hx y hy hxy
  have hx := mem_cellNames hx
  have hy := mem_cellNames hy
  rw [hnames, List.mem_pair] at hx hy
  rcases hx with rfl | rfl <;> rcases hy with rfl | rfl <;> simp_all [splitPlatform]

theorem generate_refines_countdown :
    ∃ text code, generate (.x86_64 .linux) (some countdown) = .ok text
      ∧ Asm.readListing text = some code
      ∧ Set.InjOn splitPlatform.address {x | .cell x ∈ code}
      ∧ countdown.Faults (Stream'.const 3) [0]
      ∧ ∃ c, FaultsAt splitPlatform (.x86_64 .linux) code
          (.start (fun _ => 0) false (Stream'.const 3)) c ∧ c.output = [0] := by
  have hok : (generate (.x86_64 .linux) (some countdown)).isOk := by decide +kernel
  have hfaults : countdown.Faults (Stream'.const 3) [0] := ⟨4, rfl⟩
  cases hgen : generate (.x86_64 .linux) (some countdown) with
  | error e =>
    rw [hgen] at hok
    cases hok
  | ok text =>
    obtain ⟨s, code, hs, hread, -, -, hruns⟩ := generate_refines hgen
    obtain rfl : code = s.code := Option.some.inj (hread.symm.trans (read_generate hgen hs))
    have hinj := injOn_countdown hs
    exact ⟨text, s.code, rfl, hread, hinj, hfaults,
      ((hruns splitPlatform hinj _ _ _).2 _).1 hfaults⟩

/-! ## What the text of a program ends with -/

/-- Storage cells in the text of a listing. -/
theorem listingText_cells (used : List String) :
    Asm.listingText (used.map .cell) = String.join (used.map (· ++ ":\t.quad\t0\n")) := by
  rw [Asm.listingText_eq, List.map_map]
  congr 2
  funext x
  simp [Line.text, String.append_assoc]

/-- In every session, whatever it is given and whatever of it fails, the name table, its counter,
the names in use and their set agree on the declarations that were referred to since the last start,
in the order of first reference. A task has referred to all that its tree refers to, or to a part of it
from the front if it failed, and what is there stays until the next start. A program that is
generated has cells for the declarations that its tree refers to at any depth and for no others, and
its text ends with them. -/
theorem session_names (t : Target) (ks : List Task) :
    (Task.performAll t ks).Names (Task.referredSince t (.start t) [] ks)
      ∧ (∀ (k : Task) (s : Session), k.referred t s <+: k.refs
        ∧ ∀ a s', (k.perform t).run s = .ok a s' → k.referred t s = k.refs)
      ∧ (∀ k : Task, k.restarts = false →
        (Task.performAll t ks).Continues (Task.performAll t (ks ++ [k])))
      ∧ ∀ p text s', (Gen.program t (some p)).run (Task.performAll t ks) = .ok text s' →
        s'.Names p.refs
          ∧ (∀ place, place ∈ s'.cells.map (·.1) ↔ ∃ b a ref d, p.block = some b
            ∧ b.RefersAt a ref ∧ ref.referent = some d ∧ d.place = place)
          ∧ (∃ front, s'.code = front ++ s'.used.map .cell ∧ (∀ x, .cell x ∉ front)
            ∧ text = Asm.listingText front ++ String.join (s'.used.map (· ++ ":\t.quad\t0\n")))
          ∧ ∀ os, t = .x86_64 os → Asm.readListing text = some s'.code := by
  have hsession := Task.refines_performAll t ks
  refine ⟨hsession.names, fun k s => ?_, fun k hk => ?_, fun p text s' h => ?_⟩
  · have hfront := Task.referred_front (t := t) k s
    exact ⟨hfront.1, fun a s' => hfront.2⟩
  · rw [Task.performAll_append]
    exact (Task.visits_perform _ hk).saw.continues hsession
  · obtain ⟨hrefines, htext, front, hcode, hfront⟩ := program_ok h
    refine ⟨hrefines.names, fun place => ?_, ⟨front, hcode, hfront, ?_⟩, ?_⟩
    · rw [hrefines.names.places, List.mem_eraseDups, List.mem_map]
      simp only [Program.mem_refs_iff]
      constructor
      · rintro ⟨d, ⟨b, a, ref, hb, hat, href⟩, hplace⟩
        exact ⟨b, a, ref, d, hb, hat, href, hplace⟩
      · rintro ⟨b, a, ref, d, hb, hat, href, hplace⟩
        exact ⟨d, ⟨b, a, ref, hb, hat, href⟩, hplace⟩
    · rw [htext, ← listingText_cells, ← Asm.listingText_append, ← hcode]
    · rintro os rfl
      exact read_program h

end Lowering

end WhileAsm
