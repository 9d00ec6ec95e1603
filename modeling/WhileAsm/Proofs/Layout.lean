import Mathlib.Data.List.Nodup
import Mathlib.Data.List.Pairwise
import WhileAsm.Proofs.Generation
import WhileAsm.Proofs.Resolution

/-!
# The lines of loops

A loop of a tree has an address: the indices of the statements that lead to it (`Block.loops`). In a
listing it has four lines that labels and jumps stand on (`Loop.lines`). Code is laid out
(`Laid`) if the loops that it is the code of have these lines, no other line is a label or a jump,
and the lines of one loop are inside another's or apart from them, as the loops are in the tree.

Code that is put together from code that is laid out is laid out: one piece after the other
(`Laid.append`), and the code of a body between the lines of its loop (`Laid.loop`). Labels are
drawn for one loop each, so every label and every jump of code that is laid out stands on one line
(`Laid.line_unique`), and a jump to a line of a loop comes from inside (`Laid.jump_inside`).
-/

namespace WhileAsm

/-! ## The loops of a tree -/

mutual

/-- The addresses of the loops in a statement, each before those in its body. -/
def Stmt.loops : Stmt → List (List ℕ)
  | .block b => b.loops
  | .loop _ _ (some b) => [] :: b.loops
  | .loop _ _ none => [[]]
  | _ => []

def Block.loops : Block → List (List ℕ)
  | .mk _ ss => Stmt.loopsFrom 0 ss

/-- The addresses in statements of which the first has the index `i`. -/
def Stmt.loopsFrom (i : ℕ) : List Stmt → List (List ℕ)
  | [] => []
  | s :: ss => s.loops.map (i :: ·) ++ Stmt.loopsFrom (i + 1) ss

end

theorem Stmt.mem_loopsFrom {a : List ℕ} {ss : List Stmt} {i : ℕ} :
    a ∈ Stmt.loopsFrom i ss ↔ ∃ k st a', ss[k]? = some st ∧ a' ∈ st.loops ∧ a = (i + k) :: a' := by
  induction ss generalizing i with
  | nil => simp [Stmt.loopsFrom]
  | cons st ss ih =>
    simp only [Stmt.loopsFrom, List.mem_append, List.mem_map, ih]
    constructor
    · rintro (⟨a', ha', rfl⟩ | ⟨k, st', a', hk, ha', rfl⟩)
      · exact ⟨0, st, a', rfl, ha', rfl⟩
      · exact ⟨k + 1, st', a', hk, ha', by rw [Nat.add_assoc, Nat.add_comm 1 k]⟩
    · rintro ⟨k, st', a', hk, ha', rfl⟩
      cases k with
      | zero =>
        cases hk
        exact Or.inl ⟨a', ha', rfl⟩
      | succ k => exact Or.inr ⟨k, st', a', hk, ha', by rw [Nat.add_assoc, Nat.add_comm 1 k]⟩

namespace Block

theorem mem_loops {b : Block} {a : List ℕ} :
    a ∈ b.loops ↔ ∃ i st a', b.stmts[i]? = some st ∧ a' ∈ st.loops ∧ a = i :: a' := by
  obtain ⟨pos, ss⟩ := b
  simp [Block.loops, Block.stmts, Stmt.mem_loopsFrom]

theorem nil_notMem_loops (b : Block) : [] ∉ b.loops := by
  simp [mem_loops]

/-- The statement with index `i` of the block at an address is a loop. -/
def LoopsAt (b : Block) (a : List ℕ) (i : ℕ) : Prop :=
  ∃ c, b.at? a = some c ∧ ∃ pos cond body, c.stmts[i]? = some (.loop pos cond body)

end Block

theorem Stmt.nil_mem_loops {st : Stmt} :
    [] ∈ st.loops ↔ ∃ pos cond body, st = .loop pos cond body := by
  cases st with
  | block b => simp [Stmt.loops, b.nil_notMem_loops]
  | loop pos cond body => cases body <;> simp [Stmt.loops]
  | _ => simp [Stmt.loops]

theorem Stmt.cons_mem_loops {st : Stmt} {j : ℕ} {a : List ℕ} :
    j :: a ∈ st.loops ↔ ∃ b, st.inner? = some b ∧ j :: a ∈ b.loops := by
  cases st with
  | loop pos cond body => cases body <;> simp [Stmt.loops, Stmt.inner?]
  | _ => simp [Stmt.loops, Stmt.inner?]

/-- The addresses are those of the loops of the tree. -/
theorem Block.mem_loops_iff {i : ℕ} : ∀ {a : List ℕ} {b : Block},
    a ++ [i] ∈ b.loops ↔ b.LoopsAt a i
  | [], b => by
    simp only [List.nil_append, mem_loops, LoopsAt, at?, Option.some.injEq, exists_eq_left']
    constructor
    · rintro ⟨k, st, a', hst, ha', heq⟩
      cases heq
      obtain ⟨pos, cond, body, rfl⟩ := Stmt.nil_mem_loops.1 ha'
      exact ⟨pos, cond, body, hst⟩
    · rintro ⟨pos, cond, body, hst⟩
      exact ⟨i, _, [], hst, Stmt.nil_mem_loops.2 ⟨pos, cond, body, rfl⟩, rfl⟩
  | j :: a, b => by
    have hne : ∃ k a', a ++ [i] = k :: a' := List.exists_cons_of_ne_nil (by simp)
    rw [LoopsAt, exists_at?_cons, List.cons_append, mem_loops]
    obtain ⟨k, a', hka⟩ := hne
    constructor
    · rintro ⟨_, st, _, hst, ha, heq⟩
      cases heq
      rw [hka] at ha
      obtain ⟨b', hb', ha⟩ := Stmt.cons_mem_loops.1 ha
      exact ⟨b', by simp [child?, hst, hb'], mem_loops_iff.1 (hka ▸ ha)⟩
    · rintro ⟨b', hb', hloop⟩
      obtain ⟨st, hst, hinner⟩ := Option.bind_eq_some_iff.1 hb'
      refine ⟨j, st, _, hst, ?_, rfl⟩
      have hmem := mem_loops_iff.2 hloop
      rw [hka] at hmem ⊢
      exact Stmt.cons_mem_loops.2 ⟨b', hinner, hmem⟩

namespace Asm

/-! ## Labels and jumps -/

/-- The label that an instruction jumps to. -/
def Instr.target? : Instr → Option String
  | .jumpIfEqual x => some x
  | .jump x => some x
  | _ => none

/-- A line that defines a label or jumps to one. -/
def Line.isControl : Line → Bool
  | .label _ => true
  | .instr i => i.target?.isSome
  | _ => false

/-- The labels and jumps of lines of which the first has the number `n`. -/
def controls (n : ℕ) (code : List Line) : List (Line × ℕ) :=
  (code.zipIdx n).filter (·.1.isControl)

theorem controls_append (n : ℕ) (code code' : List Line) :
    controls n (code ++ code') = controls n code ++ controls (n + code.length) code' := by
  simp [controls, List.zipIdx_append]

theorem mem_controls {n m : ℕ} {code : List Line} {l : Line} :
    (l, m) ∈ controls n code ↔ (n ≤ m ∧ code[m - n]? = some l) ∧ l.isControl := by
  simp [controls, List.mk_mem_zipIdx_iff_le_and_getElem?_sub]

theorem controls_eq_nil {n : ℕ} {code : List Line} (h : ∀ l ∈ code, l.isControl = false) :
    controls n code = [] := by
  refine List.eq_nil_iff_forall_not_mem.2 fun ⟨l, m⟩ hmem => ?_
  obtain ⟨⟨-, hl⟩, hcontrol⟩ := mem_controls.1 hmem
  rw [h l (List.mem_of_getElem? hl)] at hcontrol
  cases hcontrol

theorem controls_instrs {n : ℕ} {is : List Instr} (h : ∀ i ∈ is, i.target? = none) :
    controls n (is.map .instr) = [] := by
  refine controls_eq_nil fun l hl => ?_
  obtain ⟨i, hi, rfl⟩ := List.mem_map.1 hl
  simp [Line.isControl, h i hi]

theorem map_fst_controls (n : ℕ) (code : List Line) :
    (controls n code).map Prod.fst = code.filter Line.isControl := by
  induction code generalizing n with
  | nil => rfl
  | cons l code ih =>
    have hih := ih (n + 1)
    unfold controls at hih ⊢
    rw [List.zipIdx_cons, List.filter_cons, List.filter_cons]
    split <;> simp [hih]

/-- The symbol that a line defines. -/
def Line.defines : Line → Option String
  | .label x => some x
  | .readFormat x => some x
  | .writeFormat x => some x
  | .cell x => some x
  | _ => none

/-- The symbols that a listing defines, in the order of its lines. -/
def defined (code : List Line) : List String := code.filterMap Line.defines

theorem mem_defined {code : List Line} {x : String} :
    x ∈ defined code ↔ ∃ l ∈ code, l.defines = some x :=
  List.mem_filterMap

theorem defined_append (code code' : List Line) :
    defined (code ++ code') = defined code ++ defined code' :=
  List.filterMap_append

end Asm

namespace Lowering

open Asm (Instr Line controls defined)

/-! ## Loops in a listing -/

/-- A loop of a tree and its lines in a listing. -/
structure Loop where
  address : List ℕ
  /-- How many labels were drawn before its own. -/
  number : ℕ
  top : ℕ
  test : ℕ
  back : ℕ

namespace Loop

def topLabel (p : Loop) : String := labelAt p.number

def bottomLabel (p : Loop) : String := labelAt (p.number + 1)

/-- The jump back stands right before the label at the end. -/
def bottom (p : Loop) : ℕ := p.back + 1

/-- The labels and jumps of a loop, without those of its body. -/
def lines (p : Loop) : List (Line × ℕ) :=
  [(.label p.topLabel, p.top), (.instr (.jumpIfEqual p.bottomLabel), p.test),
    (.instr (.jump p.topLabel), p.back), (.label p.bottomLabel, p.bottom)]

theorem isControl_of_mem {p : Loop} {l : Line} {k : ℕ} (h : (l, k) ∈ p.lines) : l.isControl := by
  simp only [lines, List.mem_cons, Prod.mk.injEq, List.not_mem_nil, or_false] at h
  rcases h with ⟨rfl, -⟩ | ⟨rfl, -⟩ | ⟨rfl, -⟩ | ⟨rfl, -⟩ <;> rfl

theorem label_of_mem {p : Loop} {x : String} {k : ℕ} (h : (.label x, k) ∈ p.lines) :
    ∃ j, x = labelAt j := by
  simp only [lines, List.mem_cons, Prod.mk.injEq, List.not_mem_nil, or_false, Line.label.injEq,
    reduceCtorEq, false_and, false_or] at h
  rcases h with ⟨rfl, -⟩ | ⟨rfl, -⟩
  · exact ⟨_, rfl⟩
  · exact ⟨_, rfl⟩

/-- A jump of a loop goes to one of its own labels. -/
theorem jump_of_mem {p : Loop} {i : Instr} {k : ℕ} {x : String} (h : (.instr i, k) ∈ p.lines)
    (hx : i.target? = some x) :
    (k = p.test ∨ k = p.back) ∧ ∃ m, (.label x, m) ∈ p.lines ∧ (m = p.top ∨ m = p.bottom) := by
  simp only [lines, List.mem_cons, Prod.mk.injEq, List.not_mem_nil, or_false, reduceCtorEq,
    false_and, false_or, Line.instr.injEq] at h
  rcases h with ⟨rfl, rfl⟩ | ⟨rfl, rfl⟩
  · cases hx
    exact ⟨Or.inl rfl, p.bottom, by simp [lines], Or.inr rfl⟩
  · cases hx
    exact ⟨Or.inr rfl, p.top, by simp [lines], Or.inl rfl⟩

/-- The loop in a statement with index `i`. -/
def under (i : ℕ) (p : Loop) : Loop := { p with address := i :: p.address }

/-- A loop comes before another: it is around it, or it ends before the other begins. -/
structure Before (p q : Loop) : Prop where
  order : ¬ q.address <+: p.address
  inside : p.address <+: q.address → p.test < q.top ∧ q.bottom < p.back
  apart : ¬ p.address <+: q.address → p.bottom < q.top

theorem Before.under {p q : Loop} (h : Before p q) (i : ℕ) : Before (p.under i) (q.under i) where
  order hpre := h.order (List.cons_prefix_cons.1 hpre).2
  inside hpre := h.inside (List.cons_prefix_cons.1 hpre).2
  apart hpre := h.apart fun hpre' => hpre (List.cons_prefix_cons.2 ⟨rfl, hpre'⟩)

end Loop

/-- The lines `code` from number `n` on are those of the loops with the addresses `as`, whose labels
are drawn after `j` others. -/
structure Laid (n j : ℕ) (as : List (List ℕ)) (code : List Line) (ps : List Loop) : Prop where
  addresses : ps.map Loop.address = as
  numbers : ps.map Loop.number = List.range' j as.length 2
  ordered : ∀ p ∈ ps, p.top < p.test ∧ p.test < p.back
  control : (controls n code).Perm (ps.flatMap Loop.lines)
  nested : ps.Pairwise Loop.Before

namespace Laid

variable {n j : ℕ} {as as' : List (List ℕ)} {code code' : List Line} {ps ps' : List Loop}
  {p q : Loop}

theorem instrs {is : List Instr} (h : ∀ i ∈ is, i.target? = none) :
    Laid n j [] (is.map .instr) [] where
  addresses := rfl
  numbers := rfl
  ordered := by simp
  control := by simp [Asm.controls_instrs h]
  nested := .nil

theorem bounds (h : Laid n j as code ps) (hp : p ∈ ps) :
    n ≤ p.top ∧ p.bottom < n + code.length := by
  have htop : (.label p.topLabel, p.top) ∈ controls n code :=
    h.control.mem_iff.2 (List.mem_flatMap.2 ⟨p, hp, by simp [Loop.lines]⟩)
  have hbottom : (.label p.bottomLabel, p.bottom) ∈ controls n code :=
    h.control.mem_iff.2 (List.mem_flatMap.2 ⟨p, hp, by simp [Loop.lines]⟩)
  obtain ⟨⟨hle, -⟩, -⟩ := Asm.mem_controls.1 htop
  obtain ⟨⟨hle', hget⟩, -⟩ := Asm.mem_controls.1 hbottom
  obtain ⟨hlt, -⟩ := List.getElem?_eq_some_iff.1 hget
  omega

theorem mem_addresses (h : Laid n j as code ps) (hp : p ∈ ps) : p.address ∈ as := by
  rw [← h.addresses]
  exact List.mem_map_of_mem hp

/-- Code after code. The loops of the two are not inside each other. -/
theorem append (h : Laid n j as code ps)
    (h' : Laid (n + code.length) (j + 2 * as.length) as' code' ps')
    (hsep : ∀ a ∈ as, ∀ a' ∈ as', ¬ a <+: a' ∧ ¬ a' <+: a) :
    Laid n j (as ++ as') (code ++ code') (ps ++ ps') where
  addresses := by rw [List.map_append, h.addresses, h'.addresses]
  numbers := by
    rw [List.map_append, h.numbers, h'.numbers, List.length_append, List.range'_append]
  ordered p hp := (List.mem_append.1 hp).elim (h.ordered p) (h'.ordered p)
  control := by
    rw [Asm.controls_append, List.flatMap_append]
    exact h.control.append h'.control
  nested := by
    refine List.pairwise_append.2 ⟨h.nested, h'.nested, fun p hp q hq => ?_⟩
    obtain ⟨hpq, hqp⟩ := hsep _ (h.mem_addresses hp) _ (h'.mem_addresses hq)
    have hend := (h.bounds hp).2
    have hstart := (h'.bounds hq).1
    exact ⟨hqp, fun hpre => absurd hpre hpq, fun _ => hend.trans_le hstart⟩

theorem under (h : Laid n j as code ps) (i : ℕ) :
    Laid n j (as.map (i :: ·)) code (ps.map (Loop.under i)) where
  addresses := by
    rw [← h.addresses, List.map_map, List.map_map]
    rfl
  numbers := by
    rw [List.length_map, ← h.numbers, List.map_map]
    rfl
  ordered p hp := by
    obtain ⟨q, hq, rfl⟩ := List.mem_map.1 hp
    exact h.ordered q hq
  control := by
    rw [List.flatMap_map]
    exact h.control
  nested := List.pairwise_map.2 (h.nested.imp fun hb => hb.under i)

/-- The code of a loop: the test and the body between its labels and jumps. -/
theorem loop {test : List Instr} (htest : ∀ i ∈ test, i.target? = none) (hnil : [] ∉ as)
    (h : Laid (n + 1 + test.length + 1) (j + 2) as code ps) :
    Laid n j ([] :: as)
      ([.label (labelAt j)] ++ (test.map .instr ++ ([.instr (.jumpIfEqual (labelAt (j + 1)))]
        ++ (code ++ [.instr (.jump (labelAt j)), .label (labelAt (j + 1))]))))
      (⟨[], j, n, n + 1 + test.length, n + 1 + test.length + 1 + code.length⟩ :: ps) where
  addresses := by rw [List.map_cons, h.addresses]
  numbers := by rw [List.map_cons, h.numbers, List.length_cons, List.range'_succ]
  ordered p hp := by
    rcases List.mem_cons.1 hp with rfl | hp
    · dsimp only
      omega
    · exact h.ordered p hp
  control := by
    rw [Asm.controls_append, Asm.controls_append, Asm.controls_instrs htest, Asm.controls_append,
      Asm.controls_append, List.flatMap_cons, List.length_map]
    have hend := (h.control.append_right
      (controls (n + 1 + test.length + 1 + code.length)
        [.instr (.jump (labelAt j)), .label (labelAt (j + 1))])).trans List.perm_append_comm
    exact (hend.cons _).cons _
  nested := by
    refine List.pairwise_cons.2 ⟨fun q hq => ⟨fun hpre => ?_, fun _ => ?_, ?_⟩, h.nested⟩
    · exact hnil (List.prefix_nil.1 hpre ▸ h.mem_addresses hq)
    · have := h.bounds hq
      dsimp only
      omega
    · exact fun hpre => absurd List.nil_prefix hpre

/-! Labels and jumps by their names. -/

theorem number_eq (h : Laid n j as code ps) {k : ℕ} (hk : ps[k]? = some p) :
    p.number = j + 2 * k := by
  have hget : (ps.map Loop.number)[k]? = some p.number := by rw [List.getElem?_map, hk]; rfl
  rw [h.numbers, List.getElem?_eq_some_iff] at hget
  obtain ⟨hlt, hget⟩ := hget
  rw [← hget, List.getElem_range']

theorem eq_of_number (h : Laid n j as code ps) (hp : p ∈ ps) (hq : q ∈ ps)
    (heq : p.number = q.number) : p = q := by
  obtain ⟨k, hk⟩ := List.getElem?_of_mem hp
  obtain ⟨m, hm⟩ := List.getElem?_of_mem hq
  have hkm : k = m := by
    have := h.number_eq hk
    have := h.number_eq hm
    omega
  rw [hkm, hm] at hk
  exact (Option.some.inj hk).symm

theorem number_ne_succ (h : Laid n j as code ps) (hp : p ∈ ps) (hq : q ∈ ps) :
    p.number ≠ q.number + 1 := by
  obtain ⟨k, hk⟩ := List.getElem?_of_mem hp
  obtain ⟨m, hm⟩ := List.getElem?_of_mem hq
  have := h.number_eq hk
  have := h.number_eq hm
  omega

/-- A label or jump of a loop stands on one line. -/
theorem line_unique (h : Laid n j as code ps) (hp : p ∈ ps) (hq : q ∈ ps) {l : Line} {m k : ℕ}
    (hm : (l, m) ∈ p.lines) (hk : (l, k) ∈ q.lines) : m = k := by
  -- The first label of a loop has an even number and the second an odd one, counted from `j`.
  have hsame : labelAt p.number = labelAt q.number → p = q := fun he =>
    h.eq_of_number hp hq (labelAt_injective he)
  have hsame' : labelAt (p.number + 1) = labelAt (q.number + 1) → p = q := fun he =>
    h.eq_of_number hp hq (Nat.succ.inj (labelAt_injective he))
  have hpq : labelAt p.number ≠ labelAt (q.number + 1) := fun he =>
    h.number_ne_succ hp hq (labelAt_injective he)
  have hqp : labelAt (p.number + 1) ≠ labelAt q.number := fun he =>
    h.number_ne_succ hq hp (labelAt_injective he).symm
  simp only [Loop.lines, Loop.topLabel, Loop.bottomLabel, List.mem_cons, Prod.mk.injEq,
    List.not_mem_nil, or_false] at hm hk
  rcases hm with ⟨rfl, rfl⟩ | ⟨rfl, rfl⟩ | ⟨rfl, rfl⟩ | ⟨rfl, rfl⟩
  · rcases hk with ⟨he, rfl⟩ | ⟨he, -⟩ | ⟨he, -⟩ | ⟨he, -⟩
    · rw [hsame (Line.label.inj he)]
    · cases he
    · cases he
    · exact absurd (Line.label.inj he) hpq
  · rcases hk with ⟨he, -⟩ | ⟨he, rfl⟩ | ⟨he, -⟩ | ⟨he, -⟩
    · cases he
    · rw [hsame' (Instr.jumpIfEqual.inj (Line.instr.inj he))]
    · cases he
    · cases he
  · rcases hk with ⟨he, -⟩ | ⟨he, -⟩ | ⟨he, rfl⟩ | ⟨he, -⟩
    · cases he
    · cases he
    · rw [hsame (Instr.jump.inj (Line.instr.inj he))]
    · cases he
  · rcases hk with ⟨he, -⟩ | ⟨he, -⟩ | ⟨he, -⟩ | ⟨he, rfl⟩
    · exact absurd (Line.label.inj he) hqp
    · cases he
    · cases he
    · rw [hsame' (Line.label.inj he)]

theorem before_or_before (h : Laid n j as code ps) (hp : p ∈ ps) (hq : q ∈ ps) (hne : p ≠ q) :
    p.Before q ∨ q.Before p := by
  have : Std.Symm fun p q => Loop.Before p q ∨ Loop.Before q p := ⟨fun _ _ hor => hor.symm⟩
  have hpair : ps.Pairwise fun p q => Loop.Before p q ∨ Loop.Before q p := h.nested.imp Or.inl
  exact hpair.forall hp hq hne

theorem inside (h : Laid n j as code ps) (hp : p ∈ ps) (hq : q ∈ ps) (hne : p ≠ q)
    (hpre : p.address <+: q.address) : p.test < q.top ∧ q.bottom < p.back := by
  rcases h.before_or_before hp hq hne with hb | hb
  · exact hb.inside hpre
  · exact absurd hpre hb.order

theorem apart (h : Laid n j as code ps) (hp : p ∈ ps) (hq : q ∈ ps)
    (hpq : ¬ p.address <+: q.address) (hqp : ¬ q.address <+: p.address) :
    p.bottom < q.top ∨ q.bottom < p.top := by
  have hne : p ≠ q := by
    rintro rfl
    exact hpq List.prefix_rfl
  rcases h.before_or_before hp hq hne with hb | hb
  · exact Or.inl (hb.apart hpq)
  · exact Or.inr (hb.apart hqp)

/-- A jump to a line of a loop comes from inside the loop. -/
theorem jump_inside (h : Laid n j as code ps) (hp : p ∈ ps) (hq : q ∈ ps) {k m : ℕ}
    (hk : k = q.test ∨ k = q.back) (hm : m = q.top ∨ m = q.bottom) (htop : p.top ≤ m)
    (hbottom : m ≤ p.bottom) : p.top ≤ k ∧ k ≤ p.bottom := by
  have hp' := h.ordered p hp
  have hq' := h.ordered q hq
  unfold Loop.bottom at *
  -- Unless `q` is `p` or in its body, the labels of `q` are not on the lines of `p`.
  by_cases hne : p = q
  · subst hne
    omega
  by_cases hpq : p.address <+: q.address
  · have := h.inside hp hq hne hpq
    unfold Loop.bottom at this
    omega
  by_cases hqp : q.address <+: p.address
  · have := h.inside hq hp (Ne.symm hne) hqp
    unfold Loop.bottom at this
    omega
  · have := h.apart hp hq hpq hqp
    unfold Loop.bottom at this
    omega

theorem flatMap_labelAt (j k : ℕ) :
    (List.range' j k 2).flatMap (fun i => [labelAt i, labelAt (i + 1)])
      = (List.range' j (2 * k)).map labelAt := by
  induction k generalizing j with
  | zero => rfl
  | succ k ih =>
    rw [List.range'_succ, List.flatMap_cons, ih, Nat.mul_succ, List.range'_succ, List.range'_succ]
    rfl

/-- The labels are those that were drawn, each defined once. -/
theorem perm_defined (h : Laid n j as code ps)
    (hcode : ∀ l ∈ code, l.isControl = false → l.defines = none) :
    (defined code).Perm ((List.range' j (2 * as.length)).map labelAt) := by
  have hfilter : defined code = (code.filter Line.isControl).filterMap Line.defines := by
    rw [List.filterMap_filter]
    refine List.filterMap_congr fun l hl => ?_
    cases hc : l.isControl with
    | true => rfl
    | false => exact hcode l hl hc
  have hperm := (h.control.map Prod.fst).filterMap Line.defines
  rw [Asm.map_fst_controls, ← hfilter, List.map_flatMap, List.filterMap_flatMap] at hperm
  rw [← flatMap_labelAt, ← h.numbers, List.flatMap_map]
  exact hperm

end Laid

end Lowering

end WhileAsm
