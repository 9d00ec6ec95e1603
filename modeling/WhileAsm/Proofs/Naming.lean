import Mathlib.Data.List.Nodup
import WhileAsm.Proofs.Generation
import WhileAsm.Proofs.Source

/-!
# Cells in the order of first reference

Generation refers to the declarations of a tree one after the other, in the order of its references,
and names the cell of each at first sight. The name table, its counter, the names in use and their
set are kept apart; together they stand for the list of the declarations that have a cell
(`Session.Refines`), and one more reference is one more name for that list (`Refines.refer`). Cells
that are named in this way stand in the order of first reference (`nameAll_eraseDups`), and each has
one declaration (`find?_eq_some_iff`).

What a step refers to is found by going through its tree as far as generation comes
(`Expr.referred`, `Stmt.referred`): where a part fails, what stands after it is not referred to.
Every step refers to just that, whether it ends well or fails (`Visits`). It takes back nothing:
lines, names and labels are only added, and no line sets up a cell yet (`Saw`).
-/

namespace WhileAsm.Lowering

open Asm (Instr Line Target)

/-! ## Naming declarations -/

/-- The declarations that have a cell, in the order of their cells. -/
abbrev Cells := List Path

namespace Cells

/-- The names of all cells in use. -/
def names (c : Cells) : List String := (List.range c.length).map nameAt

/-- The name of the cell of a declaration, if it has one. -/
def find? (c : Cells) (place : Path) : Option String := (c.findIdx? (· == place)).map nameAt

/-- The name of the cell of a declaration, which gets the next one on first sight. -/
def name (c : Cells) (place : Path) : String × Cells :=
  match c.find? place with
  | some n => (n, c)
  | none => (nameAt c.length, c ++ [place])

/-- The cells after declarations have been referred to. -/
def nameAll (c : Cells) (ds : List Decl) : Cells := ds.foldl (fun c d => (c.name d.place).2) c

theorem nameAll_append (c : Cells) (ds es : List Decl) :
    c.nameAll (ds ++ es) = (c.nameAll ds).nameAll es :=
  List.foldl_append

theorem find?_eq_none_iff {c : Cells} {p : Path} : c.find? p = none ↔ p ∉ c := by
  simp only [find?, Option.map_eq_none_iff, List.findIdx?_eq_none_iff, beq_eq_false_iff_ne]
  constructor
  · intro hall hp
    exact hall p hp rfl
  · rintro hp q hq rfl
    exact hp hq

theorem name_of_mem {c : Cells} {p : Path} (h : p ∈ c) : (c.name p).2 = c := by
  unfold name
  split
  · rfl
  · rename_i hnone
    exact absurd h (find?_eq_none_iff.1 hnone)

theorem name_of_notMem {c : Cells} {p : Path} (h : p ∉ c) : (c.name p).2 = c ++ [p] := by
  simp [name, find?_eq_none_iff.2 h]

theorem prefix_name (c : Cells) (p : Path) : c <+: (c.name p).2 := by
  by_cases h : p ∈ c
  · exact ⟨[], by rw [name_of_mem h, List.append_nil]⟩
  · exact ⟨[p], (name_of_notMem h).symm⟩

theorem prefix_nameAll (c : Cells) : ∀ ds : List Decl, c <+: c.nameAll ds
  | [] => List.prefix_rfl
  | d :: ds => (c.prefix_name d.place).trans (prefix_nameAll (c.name d.place).2 ds)

theorem mem_name (c : Cells) (p : Path) : p ∈ (c.name p).2 := by
  by_cases h : p ∈ c
  · rwa [name_of_mem h]
  · rw [name_of_notMem h]
    exact List.mem_append_right _ List.mem_cons_self

/-- What has been referred to has a cell. -/
theorem mem_nameAll (c : Cells) : ∀ {ds : List Decl} {d : Decl}, d ∈ ds →
    d.place ∈ c.nameAll ds
  | d' :: ds, d, h => by
    rcases List.mem_cons.1 h with rfl | h
    · exact (prefix_nameAll _ ds).subset (mem_name c d.place)
    · exact mem_nameAll (c.name d'.place).2 h

theorem nodup_name {c : Cells} (hc : c.Nodup) (p : Path) : (c.name p).2.Nodup := by
  by_cases h : p ∈ c
  · rw [name_of_mem h]
    exact hc
  · rw [name_of_notMem h]
    refine List.nodup_append.2 ⟨hc, List.nodup_singleton p, ?_⟩
    rintro a ha b hb rfl
    exact h (List.mem_singleton.1 hb ▸ ha)

/-- Naming one more declaration adds its place to those referred to before. -/
theorem name_eraseDups (ps : List Path) (p : Path) :
    (name ps.eraseDups p).2 = (ps ++ [p]).eraseDups := by
  by_cases h : p ∈ ps
  · rw [name_of_mem (List.mem_eraseDups.2 h), List.eraseDups_append]
    simp [List.removeAll, h]
  · rw [name_of_notMem (fun hp => h (List.mem_eraseDups.1 hp)), List.eraseDups_append]
    simp [List.removeAll, h, List.eraseDups_cons]

/-- The cells stand in the order in which their declarations were first referred to. -/
theorem nameAll_eraseDups (ps : List Path) (ds : List Decl) :
    nameAll ps.eraseDups ds = (ps ++ ds.map Decl.place).eraseDups := by
  induction ds generalizing ps with
  | nil => simp [nameAll]
  | cons d ds ih =>
    have hstep : nameAll ps.eraseDups (d :: ds) = nameAll (name ps.eraseDups d.place).2 ds := rfl
    rw [hstep, name_eraseDups, ih]
    simp

/-- The names of cells belong to one declaration each, in the order of the cells. -/
theorem find?_eq_some_iff {cs : Cells} (hcs : cs.Nodup) {p : Path} {i : ℕ} :
    cs.find? p = some (nameAt i) ↔ cs[i]? = some p := by
  unfold find?
  constructor
  · intro h
    obtain ⟨j, hj, hij⟩ := Option.map_eq_some_iff.1 h
    obtain rfl := nameAt_injective hij
    obtain ⟨hlt, hp, -⟩ := List.findIdx?_eq_some_iff_getElem.1 hj
    rw [List.getElem?_eq_getElem hlt, eq_of_beq hp]
  · intro h
    obtain ⟨hlt, hp⟩ := List.getElem?_eq_some_iff.1 h
    refine Option.map_eq_some_iff.2 ⟨i, List.findIdx?_eq_some_iff_getElem.2 ⟨hlt, ?_, ?_⟩, rfl⟩
    · simp [hp]
    · intro j hji hj
      have hjp : cs[j]? = some p := by
        rw [List.getElem?_eq_getElem (hji.trans hlt), eq_of_beq hj]
      have := (List.getElem?_inj hlt hcs).1 (h.trans hjp.symm)
      omega

theorem nodup_names (c : Cells) : c.names.Nodup :=
  List.Nodup.map (fun _ _ h => nameAt_injective h) List.nodup_range

theorem mem_names {c : Cells} {i : ℕ} : nameAt i ∈ c.names ↔ i < c.length := by
  rw [names, List.mem_map]
  constructor
  · rintro ⟨j, hj, hij⟩
    rw [← nameAt_injective hij]
    exact List.mem_range.1 hj
  · intro hi
    exact ⟨i, List.mem_range.2 hi, rfl⟩

theorem names_concat (c : Cells) (p : Path) : names (c ++ [p]) = c.names ++ [nameAt c.length] := by
  simp [names, List.range_succ]

theorem mem_names_of_find? {c : Cells} {p : Path} {x : String} (h : c.find? p = some x) :
    x ∈ c.names := by
  obtain ⟨i, hi, rfl⟩ := Option.map_eq_some_iff.1 h
  obtain ⟨hlt, -⟩ := List.findIdx?_eq_some_iff_getElem.1 hi
  exact mem_names.2 hlt

theorem names_prefix {c c' : Cells} (h : c <+: c') : c.names <+: c'.names := by
  obtain ⟨rest, rfl⟩ := h
  rw [names, names, List.length_append, List.range_add, List.map_append]
  exact List.prefix_append _ _

/-! ## The pieces that stand for cells -/

/-- The entries of a name table that has named declarations in order. -/
def numbered (c : Cells) : CellNames := c.zipIdx.map fun e => (e.1, nameAt e.2)

theorem numbered_concat (c : Cells) (p : Path) :
    numbered (c ++ [p]) = c.numbered ++ [(p, nameAt c.length)] := by
  simp [numbered, List.zipIdx_append]

theorem lookup_numbered (p : Path) : ∀ (c : Cells) (k : ℕ),
    ((c.zipIdx k).map fun e => (e.1, nameAt e.2)).lookup p
      = (c.findIdx? (· == p)).map fun i => nameAt (k + i)
  | [], k => rfl
  | q :: c, k => by
    rw [List.zipIdx_cons, List.map_cons, List.lookup_cons, List.findIdx?_cons,
      lookup_numbered p c (k + 1)]
    by_cases h : q = p
    · simp [h]
    · have hqp : (q == p) = false := beq_false_of_ne h
      have hpq : (p == q) = false := beq_false_of_ne (Ne.symm h)
      simp [hqp, hpq, Function.comp_def, Nat.add_assoc, Nat.add_comm 1]

theorem find?_numbered (c : Cells) (p : Path) : c.numbered.find? p = c.find? p := by
  have := lookup_numbered p c 0
  simpa [numbered, CellNames.find?, find?] using this

theorem places_numbered (c : Cells) : c.numbered.map (·.1) = c := by
  simp [numbered, Function.comp_def]

theorem names_numbered (c : Cells) : c.numbered.names = c.names := by
  rw [numbered, CellNames.names, List.map_map, names, List.range_eq_range',
    ← List.zipIdx_map_snd 0 c, List.map_map]
  rfl

/-- A name table, the names in use and their set stand for the cells of declarations. -/
structure Represented (c : Cells) (table : NameTable) (used usedSet : List String) : Prop where
  entries : table.entries = c.numbered
  lastId : table.lastId = c.length
  used : used = c.names
  usedSet : ∀ x, x ∈ usedSet ↔ x ∈ c.names
  distinct : c.Nodup

end Cells

/-- What a session has named stands for the cells of declarations. -/
def Session.Refines (s : Session) (c : Cells) : Prop := c.Represented s.names s.used s.usedSet

namespace Session.Refines

variable {s : Session} {c : Cells}

theorem start (t : Target) : (Session.start t).Refines [] :=
  ⟨rfl, rfl, rfl, fun _ => Iff.rfl, List.nodup_nil⟩

theorem find? (h : s.Refines c) (p : Path) : s.cells.find? p = c.find? p := by
  rw [Session.cells, h.entries, Cells.find?_numbered]

theorem places (h : s.Refines c) : s.cells.map (·.1) = c := by
  rw [Session.cells, h.entries, Cells.places_numbered]

theorem names_eq (h : s.Refines c) : s.cells.names = s.used := by
  rw [Session.cells, h.entries, Cells.names_numbered, h.used]

/-- Different declarations have different cells. -/
theorem cells_distinct (h : s.Refines c) : s.cells.Distinct := by
  intro p q x hp hq
  rw [h.find?] at hp hq
  obtain ⟨i, -, rfl⟩ := Option.map_eq_some_iff.1 hp
  rw [Cells.find?_eq_some_iff h.distinct] at hp hq
  exact Option.some.inj (hp.symm.trans hq)

/-- One more reference names one more declaration, or none that has a name. -/
theorem refer (h : s.Refines c) (n : String) (p : Path) :
    (s.refer n p).Refines (c.name p).2 := by
  rcases s.names.nameFor_cases p with ⟨x, hx, hname⟩ | ⟨hx, hname⟩
  · rw [← Session.cells, h.find?] at hx
    have hmem : x ∈ s.usedSet := (h.usedSet x).2 (Cells.mem_names_of_find? hx)
    have hsame : s.refer n p = s := by
      simp [Session.refer, Session.noted, hname, hmem]
    rw [hsame]
    simpa [Cells.name, hx] using h
  · rw [← Session.cells, h.find?] at hx
    rw [h.lastId] at hname
    have hnew : Cells.nameAt c.length ∉ s.usedSet := by
      rw [h.usedSet, Cells.mem_names]
      exact Nat.lt_irrefl _
    have hp : p ∉ c := Cells.find?_eq_none_iff.1 hx
    rw [Cells.name_of_notMem hp]
    have hdistinct := Cells.nodup_name h.distinct p
    rw [Cells.name_of_notMem hp] at hdistinct
    unfold Session.Refines Session.refer Session.noted
    rw [hname, if_neg hnew]
    refine ⟨?_, ?_, ?_, fun x => ?_, hdistinct⟩
    · rw [Cells.numbered_concat, ← h.entries]
    · simp
    · rw [Cells.names_concat, ← h.used]
    · rw [Cells.names_concat, List.mem_cons, List.mem_append, List.mem_singleton, h.usedSet,
        or_comm]

end Session.Refines

/-! ## Steps that refer to declarations -/

/-- From one session to the next, declarations were referred to in turn, and nothing was taken
back. -/
structure Saw (s : Session) (ds : List Decl) (s' : Session) : Prop where
  code : ∃ ls, s'.code = s.code ++ ls ∧ ∀ x, .cell x ∉ ls
  labels : s.labels ≤ s'.labels
  cells : ∀ {c : Cells}, s.Refines c → s'.Refines (c.nameAll ds)

/-- A session in which no line was added. -/
theorem Saw.ofCode {s s' : Session} {ds : List Decl} (hcode : s'.code = s.code)
    (hlabels : s.labels ≤ s'.labels)
    (hcells : ∀ {c : Cells}, s.Refines c → s'.Refines (c.nameAll ds)) : Saw s ds s' :=
  ⟨⟨[], by simp [hcode], by simp⟩, hlabels, hcells⟩

theorem Saw.refl (s : Session) : Saw s [] s := .ofCode rfl (Nat.le_refl _) id

theorem Saw.trans {s s' s'' : Session} {ds es : List Decl} (h : Saw s ds s') (h' : Saw s' es s'') :
    Saw s (ds ++ es) s'' := by
  obtain ⟨ls, hls, hcell⟩ := h.code
  obtain ⟨ms, hms, hcell'⟩ := h'.code
  refine ⟨⟨ls ++ ms, by rw [hms, hls, List.append_assoc], ?_⟩, h.labels.trans h'.labels, ?_⟩
  · intro x hx
    rcases List.mem_append.1 hx with hx | hx
    · exact hcell x hx
    · exact hcell' x hx
  · intro c hc
    rw [Cells.nameAll_append]
    exact h'.cells (h.cells hc)

theorem Saw.line (s : Session) {l : Line} (hl : ∀ x, l ≠ .cell x) : Saw s [] (s.push l) :=
  ⟨⟨[l], s.code_push l, fun x hx => hl x (List.mem_singleton.1 hx).symm⟩, Nat.le_refl _, id⟩

theorem Saw.commit {α : Type} (s : Session) (st : Step α) : Saw s [] (s.commit st) :=
  ⟨⟨_, s.code_commit st, by simp⟩, Nat.le_refl _, id⟩

theorem Saw.loopHead (s : Session) : Saw s [] s.loopHead :=
  ⟨⟨_, Session.code_push _ _, by simp⟩, Nat.le_add_right _ 2, id⟩

/-- What a later step refers to, in the session that the first one leaves: nothing if that one
fails. -/
def Gen.onward {α : Type} (x : Gen α) (later : Session → List Decl) (s : Session) : List Decl :=
  match x.run s with
  | .ok _ s' => later s'
  | .error _ _ => []

/-- In a session the step refers to the declarations `seen`: to all of `ds` if it ends well, and
otherwise to some of them, from the front. -/
structure Visits {α : Type} (x : Gen α) (s : Session) (seen ds : List Decl) : Prop where
  saw : Saw s seen (x.leaves s)
  front : seen <+: ds
  whole : ∀ {a s'}, x.run s = .ok a s' → seen = ds

/-- The step refers to no declaration. -/
def Silent {α : Type} (x : Gen α) : Prop := ∀ s, Saw s [] (x.leaves s)

section Visits

variable {t : Target} {α β : Type} {s s' : Session} {seen ds es : List Decl}

theorem Gen.leaves_of_ok {x : Gen α} {a : α} (h : x.run s = .ok a s') : x.leaves s = s' := by
  simp [Gen.leaves, h]

theorem Gen.leaves_bind_ok {x : Gen α} {f : α → Gen β} {a : α} (h : x.run s = .ok a s') :
    (x >>= f).leaves s = (f a).leaves s' := by
  rw [Gen.leaves, EStateM.run_bind, h]
  rfl

theorem Gen.leaves_bind_error {x : Gen α} {f : α → Gen β} {e : GenError}
    (h : x.run s = .error e s') : (x >>= f).leaves s = x.leaves s := by
  rw [Gen.leaves, EStateM.run_bind, h, Gen.leaves, h]

theorem Visits.ok {x : Gen α} (hx : Visits x s seen ds) {a : α} (h : x.run s = .ok a s') :
    Saw s ds s' := by
  have := hx.saw
  rwa [hx.whole h, Gen.leaves_of_ok h] at this

theorem Silent.visits {x : Gen α} (hx : Silent x) (s : Session) : Visits x s [] [] :=
  ⟨hx s, List.prefix_rfl, fun _ => rfl⟩

/-- What a step refers to is followed by what the next one refers to, if that is reached. -/
theorem Visits.bind {x : Gen α} {f : α → Gen β} {g : Session → List Decl}
    (hx : Visits x s seen ds) (hf : ∀ a s', Visits (f a) s' (g s') es) :
    Visits (x >>= f) s (seen ++ x.onward g s) (ds ++ es) := by
  unfold Gen.onward
  cases hrun : x.run s with
  | error e s' =>
    rw [List.append_nil]
    refine ⟨?_, hx.front.trans (List.prefix_append _ _), fun h => ?_⟩
    · rw [Gen.leaves_bind_error hrun]
      exact hx.saw
    · rw [EStateM.run_bind, hrun] at h
      cases h
  | ok a s' =>
    have hnext := hf a s'
    rw [hx.whole hrun]
    dsimp only
    refine ⟨?_, (List.prefix_append_right_inj ds).2 hnext.front, fun h => ?_⟩
    · rw [Gen.leaves_bind_ok hrun]
      exact (hx.ok hrun).trans hnext.saw
    · rw [EStateM.run_bind, hrun] at h
      rw [hnext.whole h]

/-- What comes last refers to nothing more. -/
theorem Visits.andThen {x : Gen α} {f : α → Gen β} (hx : Visits x s seen ds)
    (hf : ∀ a, Silent (f a)) : Visits (x >>= f) s seen ds := by
  have h := hx.bind (g := fun _ => []) fun a s' => (hf a).visits s'
  have hnil : x.onward (fun _ => []) s = [] := by
    unfold Gen.onward
    split <;> rfl
  rwa [hnil, List.append_nil, List.append_nil] at h

/-- What runs as another step does, after nothing was referred to. -/
theorem Visits.after {x y : Gen α} (hsaw : Saw s [] s') (hrun : x.run s = y.run s')
    (hy : Visits y s' seen ds) : Visits x s seen ds := by
  refine ⟨?_, hy.front, fun h => hy.whole (hrun ▸ h)⟩
  have hleaves : x.leaves s = y.leaves s' := by rw [Gen.leaves, hrun, Gen.leaves]
  rw [hleaves]
  exact hsaw.trans hy.saw

theorem Silent.bind {x : Gen α} {f : α → Gen β} (hx : Silent x) (hf : ∀ a, Silent (f a)) :
    Silent (x >>= f) :=
  fun s => ((hx.visits s).andThen hf).saw

theorem silent_pure (a : α) : Silent (pure a) := fun s => .refl s

theorem silent_throw (e : GenError) : Silent (throw e : Gen α) := fun s => .refl s

theorem visits_throw (e : GenError) (s : Session) (ds : List Decl) :
    Visits (throw e : Gen α) s [] ds :=
  ⟨.refl s, List.nil_prefix, fun h => by cases h⟩

theorem visits_reject (what : Unknown) (s : Session) (ds : List Decl) :
    Visits (Gen.reject what : Gen α) s [] ds :=
  visits_throw (.unknown what) s ds

theorem silent_instr (i : Instr) : Silent (Gen.instr i) := fun s => .line s (by simp)

theorem silent_label (name : String) : Silent (Gen.line (.label name)) :=
  fun s => .line s (by simp)

theorem silent_operand (v : Value) : Silent (Gen.operand v) := fun s => .refl s

theorem silent_freeAll : Silent Gen.freeAll := fun s => .commit s s.registers.freeAll

theorem silent_allocate (step : Registers → Except Exhausted (Step α)) :
    Silent (Gen.allocate step) := by
  intro s
  unfold Gen.leaves
  rw [Gen.run_allocate]
  cases step s.registers with
  | ok st => exact .commit s st
  | error e => exact .refl s

theorem silent_bindTo (name : String) : Silent (Gen.bindTo name) := by
  rw [Gen.bindTo_eq]
  exact silent_allocate _

theorem silent_load (v : Value) : Silent (Gen.load v) := by
  rw [Gen.load_eq]
  exact silent_allocate _

theorem silent_nonImmediate (v : Value) : Silent (Gen.nonImmediate v) := by
  rw [Gen.nonImmediate_eq]
  exact silent_allocate _

theorem visits_cell (ref : Option VarRef) (s : Session) :
    Visits (Gen.cell ref) s (VarRef.meant ref) (VarRef.meant ref) := by
  rcases ref with _ | ⟨name, _ | d, pos⟩
  · exact visits_reject _ s _
  · exact visits_reject _ s _
  · refine ⟨?_, List.prefix_rfl, fun _ => rfl⟩
    rw [Gen.leaves_of_ok (Gen.run_cell name d pos)]
    refine .ofCode (s.code_refer name d.place) (s.labels_refer name d.place).ge fun hc => ?_
    exact hc.refer name d.place

end Visits

end WhileAsm.Lowering

/-! ## Trees -/

namespace WhileAsm

open Lowering (Gen Session)
open Asm (Instr Target)

/-- The declarations that the code of an expression refers to, in a session: what stands after a
part that fails is not reached. -/
def Expr.referred (t : Target) : Expr → Session → List Decl
  | .var ref, _ => VarRef.meant (some ref)
  | .unary _ (.other _) _, _ => []
  | .unary _ _ x, s => x.referred t s
  | .binary _ (.other _) _ _, _ => []
  | .binary _ _ l r, s => l.referred t s ++ (Gen.expr t l).onward (r.referred t) s
  | _, _ => []

/-- What steps refer to that are taken one after the other. -/
def Lowering.Gen.referredInTurn {α : Type} (step : α → Gen Unit) (refs : α → Session → List Decl) :
    List α → Session → List Decl
  | [], _ => []
  | a :: as, s => refs a s ++ (step a).onward (Gen.referredInTurn step refs as) s

/-- The beginning of a loop, up to its body. -/
def Lowering.Gen.loopTest (t : Target) (cond : Expr) : Gen (String × String) := do
  let top ← Gen.drawLabel
  let bottom ← Gen.drawLabel
  Gen.line (.label top)
  let v ← Gen.expr t cond
  Gen.jumpIfFalse v bottom
  Gen.freeAll
  return (top, bottom)

mutual

/-- The declarations that the code of a statement refers to, in a session, as far as it is
reached. -/
def Stmt.referred (t : Target) : Stmt → Session → List Decl
  | .block b, s => b.referred t s
  | .assign _ target source, s =>
    source.referred t s ++ (Gen.expr t source).onward (fun _ => VarRef.meant target) s
  | .read _ refs, s => Gen.referredInTurn (Gen.readVar t) (fun ref _ => VarRef.meant ref) refs s
  | .write _ es, s => Gen.referredInTurn (Gen.writeExpr t) (Expr.referred t) es s
  | .loop _ cond body, s =>
    cond.referred t s.loopHead ++ (Gen.loopTest t cond).onward (Block.referredOf t body) s
  | _, _ => []

def Block.referred (t : Target) : Block → Session → List Decl
  | .mk _ ss, s => Stmt.referredOf t ss s

def Block.referredOf (t : Target) : Option Block → Session → List Decl
  | some b, s => b.referred t s
  | none, _ => []

def Stmt.referredOf (t : Target) : List Stmt → Session → List Decl
  | [], _ => []
  | st :: ss, s => st.referred t s ++ (Gen.stmt t st).onward (Stmt.referredOf t ss) s

end

namespace Lowering

section Trees

variable {t : Target}

theorem silent_intoRegister (v : Value) : Silent (Gen.intoRegister v) := by
  unfold Gen.intoRegister
  split
  · exact silent_pure _
  · exact silent_load _

theorem silent_divide (l r : Value) : Silent (Gen.divide t l r) := by
  refine (silent_bindTo _).bind fun result => ?_
  refine (silent_operand l).bind fun source => (silent_operand _).bind fun dest => ?_
  refine (silent_instr _).bind fun _ => (silent_instr _).bind fun _ => ?_
  refine (silent_nonImmediate r).bind fun divisor => (silent_operand divisor).bind fun d => ?_
  exact (silent_instr _).bind fun _ => silent_pure _

theorem visits_expr : ∀ (e : Expr) (s : Session),
    Visits (Gen.expr t e) s (e.referred t s) e.refs
  | .int _ _, s => (silent_pure _).visits s
  | .bool _ true, s => (silent_pure _).visits s
  | .bool _ false, s => (silent_pure _).visits s
  | .var ref, s => (visits_cell (some ref) s).andThen fun _ => silent_pure _
  | .gap g, s => visits_reject _ s _
  | .unary pos op x, s => by
    have hknown : ∀ apply : Asm.Operand → Instr, Visits (do
        let v ← Gen.expr t x
        let result ← Gen.intoRegister v
        Gen.instr (apply (← Gen.operand (.reg result)))
        return Value.reg result) s (x.referred t s) x.refs := by
      intro apply
      refine (visits_expr x s).andThen fun v => (silent_intoRegister v).bind fun result => ?_
      exact (silent_operand _).bind fun o => (silent_instr _).bind fun _ => silent_pure _
    cases op with
    | neg => exact hknown _
    | not => exact hknown _
    | other c => exact visits_reject _ s _
  | .binary pos op l r, s => by
    have hknown : ∀ arith, Visits (do
        let left ← Gen.expr t l
        let right ← Gen.expr t r
        let result ← Gen.intoRegister left
        Gen.instr (.arith arith (← Gen.operand right) (← Gen.operand (.reg result)))
        return Value.reg result) s
        (l.referred t s ++ (Gen.expr t l).onward (r.referred t) s) (l.refs ++ r.refs) := by
      intro arith
      refine (visits_expr l s).bind fun left s' => (visits_expr r s').andThen fun right => ?_
      refine (silent_intoRegister left).bind fun result => ?_
      refine (silent_operand _).bind fun source => (silent_operand _).bind fun dest => ?_
      exact (silent_instr _).bind fun _ => silent_pure _
    cases op with
    | add | sub | mul => exact hknown _
    | div =>
      refine (visits_expr l s).bind fun left s' => ?_
      exact (visits_expr r s').andThen fun right => silent_divide left right
    | other c => exact visits_reject _ s _

theorem visits_assign (target : Option VarRef) (source : Expr) (s : Session) :
    Visits (Gen.assign t target source) s
      (source.referred t s ++ (Gen.expr t source).onward (fun _ => VarRef.meant target) s)
      (source.refs ++ VarRef.meant target) := by
  have htarget : ∀ s, Visits (Gen.assignTarget target) s (VarRef.meant target)
      (VarRef.meant target) := by
    cases target with
    | none => exact fun s => visits_reject _ s _
    | some ref => exact visits_cell (some ref)
  have hstage : ∀ v, Silent (Gen.stage v) := by
    intro v
    unfold Gen.stage
    split
    · exact (silent_load _).bind fun _ => silent_pure _
    · exact silent_pure _
  refine (visits_expr source s).bind fun v s' => (htarget s').andThen fun c => ?_
  exact (hstage v).bind fun v' => (silent_operand v').bind fun o => silent_instr _

theorem silent_libraryCall (r format f : String) : Silent (Gen.libraryCall t r format f) :=
  (silent_instr _).bind fun _ => (silent_instr _).bind fun _ => silent_instr _

theorem visits_readVar (ref : Option VarRef) (s : Session) :
    Visits (Gen.readVar t ref) s (VarRef.meant ref) (VarRef.meant ref) := by
  refine (visits_cell ref s).andThen fun c => ?_
  split
  · exact (silent_instr _).bind fun _ => silent_libraryCall _ _ _
  · exact silent_throw _

theorem visits_writeExpr (e : Expr) (s : Session) :
    Visits (Gen.writeExpr t e) s (e.referred t s) e.refs := by
  refine (visits_expr e s).andThen fun v => ?_
  split
  · refine (silent_operand v).bind fun o => (silent_instr _).bind fun _ => ?_
    exact silent_libraryCall _ _ _
  · exact silent_throw _

theorem visits_readVars : ∀ (refs : List (Option VarRef)) (s : Session),
    Visits (Gen.readVars t refs) s
      (Gen.referredInTurn (Gen.readVar t) (fun ref _ => VarRef.meant ref) refs s)
      (refs.flatMap VarRef.meant)
  | [], s => (silent_pure ()).visits s
  | ref :: refs, s => (visits_readVar ref s).bind fun _ s' => visits_readVars refs s'

theorem visits_writeExprs : ∀ (es : List Expr) (s : Session),
    Visits (Gen.writeExprs t es) s
      (Gen.referredInTurn (Gen.writeExpr t) (Expr.referred t) es s) (es.flatMap Expr.refs)
  | [], s => (silent_pure ()).visits s
  | e :: es, s => (visits_writeExpr e s).bind fun _ s' => visits_writeExprs es s'

theorem silent_jumpIfFalse (v : Value) (l : String) : Silent (Gen.jumpIfFalse v l) := by
  refine (silent_nonImmediate v).bind fun v' => (silent_operand v').bind fun o => ?_
  exact (silent_instr _).bind fun _ => silent_instr _

theorem visits_loopTest (cond : Expr) (s : Session) :
    Visits (Gen.loopTest t cond) s (cond.referred t s.loopHead) cond.refs := by
  refine .after (y := do
    let v ← Gen.expr t cond
    Gen.jumpIfFalse v (labelAt (s.labels + 1))
    Gen.freeAll
    return (labelAt s.labels, labelAt (s.labels + 1))) (.loopHead s) rfl ?_
  refine (visits_expr cond s.loopHead).andThen fun v => ?_
  exact (silent_jumpIfFalse v _).bind fun _ => silent_freeAll.bind fun _ => silent_pure _

theorem stmt_loop_eq (pos : Position) (cond : Expr) (body : Option Block) :
    Gen.stmt t (.loop pos cond body) = (do
      let (top, bottom) ← Gen.loopTest t cond
      Gen.blockOf t body
      Gen.instr (.jump top)
      Gen.line (.label bottom)) := by
  rw [Gen.stmt, Gen.loopTest]
  simp only [bind_assoc, pure_bind]

/-- A loop refers to what its condition and then its body refer to. -/
theorem visits_loop {pos : Position} {cond : Expr} (body : Option Block) {ds : List Decl}
    (hbody : ∀ s, Visits (Gen.blockOf t body) s (Block.referredOf t body s) ds) (s : Session) :
    Visits (Gen.stmt t (.loop pos cond body)) s ((Stmt.loop pos cond body).referred t s)
      (cond.refs ++ ds) := by
  rw [stmt_loop_eq, Stmt.referred]
  refine (visits_loopTest cond s).bind fun labels s' => (hbody s').andThen fun _ => ?_
  exact (silent_instr _).bind fun _ => silent_label _

mutual

theorem visits_stmt : ∀ (st : Stmt) (s : Session),
    Visits (Gen.stmt t st) s (st.referred t s) st.refs
  | .block b, s => visits_block b s
  | .decl _, s => (silent_pure ()).visits s
  | .assign _ target source, s => visits_assign target source s
  | .read _ refs, s => visits_readVars refs s
  | .write _ es, s => visits_writeExprs es s
  | .loop _ cond (some b), s => visits_loop (some b) (fun s => visits_block b s) s
  | .loop pos cond none, s => by
    have h : Visits (Gen.stmt t (.loop pos cond none)) s _ (cond.refs ++ []) :=
      visits_loop none (fun s => visits_reject _ s _) s
    rw [List.append_nil] at h
    exact h
  | .gap _, s => visits_reject _ s _

theorem visits_block : ∀ (b : Block) (s : Session),
    Visits (Gen.block t b) s (b.referred t s) b.refs
  | .mk _ ss, s => (visits_stmts ss s).andThen fun _ => silent_freeAll

theorem visits_stmts : ∀ (ss : List Stmt) (s : Session),
    Visits (Gen.stmts t ss) s (Stmt.referredOf t ss s) (Stmt.refsOf ss)
  | [], s => (silent_pure ()).visits s
  | st :: ss, s => (visits_stmt st s).bind fun _ s' => visits_stmts ss s'

end

theorem visits_blockOf (b : Option Block) (s : Session) :
    Visits (Gen.blockOf t b) s (Block.referredOf t b s) ((b.map Block.refs).getD []) := by
  cases b with
  | none => exact visits_reject _ s _
  | some b => exact visits_block b s

theorem refines_block (b : Block) {s s' : Session} {c : Cells} (hs : s.Refines c)
    (h : (Gen.block t b).run s = .ok () s') : s'.Refines (c.nameAll b.refs) :=
  ((visits_block b s).ok h).cells hs

end Trees

end Lowering

end WhileAsm
