import Mathlib.Data.List.Induction
import WhileAsm.Proofs.Naming
import WhileAsm.Proofs.Resolution

/-!
# What a session has named

A session may be given statements, expressions and whole programs in any order (`Task`), and some of
them fail. A program starts the session anew; anything else goes on from where it was, and what was
written, named and drawn before stays as it is (`Saw.continues`).

What a task refers to in a session is found by going through its tree as far as the task comes
(`Task.referred`). After any tasks, the cells are those of the declarations that were referred to
since the last start, in the order of first reference (`refines_performAll`). A program that was
generated has referred to the declarations that stand somewhere in its tree
(`Program.mem_refs_iff`), and its listing ends with their cells (`program_ok`).
-/

namespace WhileAsm

/-! ## Declarations that a tree refers to -/

theorem VarRef.mem_meant {ref : Option VarRef} {d : Decl} :
    d ∈ VarRef.meant ref ↔ ∃ r, ref = some r ∧ r.referent = some d := by
  simp [VarRef.meant, Option.bind_eq_some_iff]

theorem Expr.mem_refs_iff {d : Decl} : ∀ {e : Expr},
    d ∈ e.refs ↔ ∃ ref ∈ e.mentions, ref.referent = some d
  | .int _ _ => by simp [Expr.refs, Expr.mentions]
  | .bool _ _ => by simp [Expr.refs, Expr.mentions]
  | .var ref => by simp [Expr.refs, Expr.mentions, VarRef.mem_meant]
  | .unary _ _ x => Expr.mem_refs_iff (e := x)
  | .binary _ _ l r => by
    simp [Expr.refs, Expr.mentions, Expr.mem_refs_iff (e := l), Expr.mem_refs_iff (e := r),
      or_and_right, exists_or]
  | .gap _ => by simp [Expr.refs, Expr.mentions]

/-- A statement refers to what it mentions itself and to what the block in it refers to. -/
theorem Stmt.mem_refs_iff {d : Decl} {st : Stmt} : d ∈ st.refs ↔
    (∃ ref ∈ st.mentions, ref.referent = some d) ∨ ∃ b, st.inner? = some b ∧ d ∈ b.refs := by
  cases st with
  | block b => simp [Stmt.refs, Stmt.mentions, Stmt.inner?]
  | decl d' => simp [Stmt.refs, Stmt.mentions, Stmt.inner?]
  | assign pos target source =>
    simp [Stmt.refs, Stmt.mentions, Stmt.inner?, Expr.mem_refs_iff, VarRef.mem_meant,
      or_and_right, exists_or, or_comm]
  | read pos refs =>
    simp only [Stmt.refs, Stmt.mentions, Stmt.inner?, List.mem_flatMap, VarRef.mem_meant,
      List.mem_filterMap, id_eq, reduceCtorEq, false_and, exists_false, or_false]
    constructor
    · rintro ⟨_, hmem, ref, rfl, href⟩
      exact ⟨ref, ⟨_, hmem, rfl⟩, href⟩
    · rintro ⟨ref, ⟨_, hmem, rfl⟩, href⟩
      exact ⟨_, hmem, ref, rfl, href⟩
  | write pos es =>
    simp only [Stmt.refs, Stmt.mentions, Stmt.inner?, List.mem_flatMap, Expr.mem_refs_iff,
      reduceCtorEq, false_and, exists_false, or_false]
    constructor
    · rintro ⟨e, he, ref, hmem, href⟩
      exact ⟨ref, ⟨e, he, hmem⟩, href⟩
    · rintro ⟨ref, ⟨e, he, hmem⟩, href⟩
      exact ⟨e, he, ref, hmem, href⟩
  | loop pos cond body =>
    cases body with
    | none => simp [Stmt.refs, Stmt.mentions, Stmt.inner?, Expr.mem_refs_iff]
    | some b => simp [Stmt.refs, Stmt.mentions, Stmt.inner?, Expr.mem_refs_iff]
  | gap g => simp [Stmt.refs, Stmt.mentions, Stmt.inner?]

theorem Stmt.mem_refsOf_iff {d : Decl} {ss : List Stmt} :
    d ∈ Stmt.refsOf ss ↔ ∃ st ∈ ss, d ∈ st.refs := by
  induction ss with
  | nil => simp [Stmt.refsOf]
  | cons st ss ih => simp [Stmt.refsOf, ih]

/-- A reference that means a declaration stands in a statement or, at some address, in its block. -/
def Stmt.RefersTo (st : Stmt) (d : Decl) : Prop :=
  (∃ ref ∈ st.mentions, ref.referent = some d)
    ∨ ∃ b a ref, st.inner? = some b ∧ b.RefersAt a ref ∧ ref.referent = some d

mutual

theorem Stmt.refersTo_of_mem_refs {d : Decl} : ∀ {st : Stmt}, d ∈ st.refs → st.RefersTo d
  | .block b, h => by
    rw [Stmt.refs] at h
    obtain ⟨a, ref, href⟩ := Block.exists_of_mem_refs h
    exact Or.inr ⟨b, a, ref, rfl, href⟩
  | .loop pos cond (some b), h => by
    rw [Stmt.refs] at h
    rcases List.mem_append.1 h with h | h
    · exact Or.inl (Expr.mem_refs_iff.1 h)
    · obtain ⟨a, ref, href⟩ := Block.exists_of_mem_refs h
      exact Or.inr ⟨b, a, ref, rfl, href⟩
  | .decl _, h | .assign _ _ _, h | .read _ _, h | .write _ _, h | .loop _ _ none, h
  | .gap _, h => by
    rcases Stmt.mem_refs_iff.1 h with h | ⟨b, hb, -⟩
    · exact Or.inl h
    · cases hb

theorem Block.exists_of_mem_refs {d : Decl} : ∀ {b : Block}, d ∈ b.refs →
    ∃ a ref, b.RefersAt a ref ∧ ref.referent = some d
  | .mk pos ss, h => by
    rw [Block.refs] at h
    obtain ⟨j, st, hj, ⟨ref, hmem, href⟩ | ⟨b, a, ref, hb, href⟩⟩ := Stmt.refersTo_of_mem_refsOf h
    · exact ⟨[], ref, Block.refersAt_nil.2 ⟨st, List.mem_of_getElem? hj, hmem⟩, href⟩
    · refine ⟨j :: a, ref, Block.refersAt_cons.2 ⟨b, ?_, href.1⟩, href.2⟩
      rw [Block.child?, show (Block.mk pos ss).stmts = ss from rfl, hj]
      exact hb

theorem Stmt.refersTo_of_mem_refsOf {d : Decl} : ∀ {ss : List Stmt}, d ∈ Stmt.refsOf ss →
    ∃ (j : ℕ) (st : Stmt), ss[j]? = some st ∧ st.RefersTo d
  | st :: ss, h => by
    rw [Stmt.refsOf] at h
    rcases List.mem_append.1 h with h | h
    · exact ⟨0, st, rfl, Stmt.refersTo_of_mem_refs h⟩
    · obtain ⟨j, st', hj, hst'⟩ := Stmt.refersTo_of_mem_refsOf h
      exact ⟨j + 1, st', hj, hst'⟩

end

theorem Block.mem_refs_of_mem_stmts {d : Decl} {b : Block} {st : Stmt} (hst : st ∈ b.stmts)
    (hd : d ∈ st.refs) : d ∈ b.refs := by
  obtain ⟨pos, ss⟩ := b
  rw [Block.refs, Stmt.mem_refsOf_iff]
  exact ⟨st, hst, hd⟩

theorem Block.mem_refs_of_refersAt {d : Decl} {ref : VarRef} (href : ref.referent = some d) :
    ∀ {a : List ℕ} {b : Block}, b.RefersAt a ref → d ∈ b.refs
  | [], b, h => by
    obtain ⟨st, hst, hmem⟩ := Block.refersAt_nil.1 h
    exact Block.mem_refs_of_mem_stmts hst (Stmt.mem_refs_iff.2 (Or.inl ⟨ref, hmem, href⟩))
  | j :: a, b, h => by
    obtain ⟨b', hb', h'⟩ := Block.refersAt_cons.1 h
    obtain ⟨st, hst, hinner⟩ := Option.bind_eq_some_iff.1 hb'
    refine Block.mem_refs_of_mem_stmts (List.mem_of_getElem? hst) ?_
    exact Stmt.mem_refs_iff.2 (Or.inr ⟨b', hinner, Block.mem_refs_of_refersAt href h'⟩)

/-- A block refers to a declaration exactly if a reference at some depth means it. -/
theorem Block.mem_refs_iff {d : Decl} {b : Block} :
    d ∈ b.refs ↔ ∃ a ref, b.RefersAt a ref ∧ ref.referent = some d := by
  refine ⟨Block.exists_of_mem_refs, ?_⟩
  rintro ⟨a, ref, h, href⟩
  exact Block.mem_refs_of_refersAt href h

/-- A program refers to the declarations that its references mean, wherever they stand. -/
theorem Program.mem_refs_iff {d : Decl} {p : Program} : d ∈ p.refs ↔
    ∃ b a ref, p.block = some b ∧ b.RefersAt a ref ∧ ref.referent = some d := by
  cases hb : p.block with
  | none => simp [Program.refs, hb]
  | some b => simp [Program.refs, hb, Block.mem_refs_iff]

namespace Lowering

open Asm (Line Target)

/-! ## Tasks -/

/-- The session at the first line of a program. -/
def Session.renewed (t : Target) (s : Session) : Session :=
  { Session.start t with events := s.events.push .generating }

/-- The session at the block of a program. -/
def Session.opened (t : Target) (s : Session) : Session :=
  ((((s.renewed t).push (.global t.entryPoint)).push .textSection).push
    (.label t.entryPoint)).push (.instr (.push t.basePointer))

/-- What a session may be given to generate code for. -/
inductive Task where
  | stmt (st : Stmt)
  | expr (e : Expr)
  | program (p : Option Program)

namespace Task

/-- Carries a task out. It answers the text of the place of a value, or of a listing. -/
def perform (t : Target) : Task → Gen String
  | .stmt st => do
    Gen.stmt t st
    return ""
  | .expr e => do
    let v ← Gen.expr t e
    return (← Gen.operand v).text
  | .program p => Gen.program t p

/-- Whether the session starts anew with a task. -/
def restarts : Task → Bool
  | .program _ => true
  | _ => false

/-- The declarations that a task refers to, in the order in which it uses them. -/
def refs : Task → List Decl
  | .stmt st => st.refs
  | .expr e => e.refs
  | .program p => (p.map Program.refs).getD []

/-- The session after tasks, some of which may have failed. -/
def performAll (t : Target) (ks : List Task) : Session :=
  ks.foldl (fun s k => (k.perform t).leaves s) (.start t)

/-- The declarations that a task refers to in a session, as far as it comes. -/
def referred (t : Target) : Task → Session → List Decl
  | .stmt st, s => st.referred t s
  | .expr e, s => e.referred t s
  | .program none, _ => []
  | .program (some p), s => Block.referredOf t p.block (s.opened t)

/-- The declarations that were referred to since the session last started, after tasks that are
given to the session `s`, if `ds` were referred to before. -/
def referredSince (t : Target) (s : Session) (ds : List Decl) : List Task → List Decl
  | [] => ds
  | k :: ks => referredSince t ((k.perform t).leaves s)
    ((if k.restarts then [] else ds) ++ k.referred t s) ks

end Task

/-- The name table, its counter, the names in use and their set agree: they name declarations that
were referred to, each by one name, in the order of first reference. -/
structure Session.Names (s : Session) (ds : List Decl) : Prop where
  places : s.cells.map (·.1) = (ds.map Decl.place).eraseDups
  distinct : (s.cells.map (·.1)).Nodup
  named : ∀ {p i}, s.cells.find? p = some ("_v" ++ toString (i + 1))
    ↔ (s.cells.map (·.1))[i]? = some p
  unnamed : ∀ {p}, s.cells.find? p = none ↔ p ∉ s.cells.map (·.1)
  counted : s.names.lastId = s.names.size
  used : s.used = (List.range s.names.size).map fun i => "_v" ++ toString (i + 1)
  once : s.used.Nodup
  usedSet : ∀ x, x ∈ s.usedSet ↔ x ∈ s.used

/-- What was written, named and drawn in a session stays in another as it was. -/
structure Session.Continues (s s' : Session) : Prop where
  code : s.code <+: s'.code
  used : s.used <+: s'.used
  kept : ∀ {p x}, s.cells.find? p = some x → s'.cells.find? p = some x
  labels : s.labels ≤ s'.labels

/-! ## What a task does to a session -/

/-- What stands for a list of declarations names them. -/
theorem Session.Refines.names {s : Session} {ds : List Decl}
    (h : s.Refines (Cells.nameAll [] ds)) : s.Names ds := by
  have hsize : s.names.size = (Cells.nameAll [] ds).length := by
    rw [NameTable.size, h.entries, Cells.numbered, List.length_map, List.length_zipIdx]
  constructor
  case places =>
    have := Cells.nameAll_eraseDups [] ds
    rw [h.places]
    simpa using this
  case distinct =>
    rw [h.places]
    exact h.distinct
  case named =>
    intro p i
    rw [h.find?, h.places]
    exact Cells.find?_eq_some_iff h.distinct
  case unnamed =>
    intro p
    rw [h.find?, h.places]
    exact Cells.find?_eq_none_iff
  case counted => rw [h.lastId, hsize]
  case used =>
    rw [h.used, hsize]
    rfl
  case once =>
    rw [h.used]
    exact Cells.nodup_names _
  case usedSet =>
    intro x
    rw [h.used]
    exact h.usedSet x

theorem Saw.continues {s s' : Session} {ds : List Decl} {c : Cells} (hs : s.Refines c)
    (h : Saw s ds s') : s.Continues s' := by
  have hs' := h.cells hs
  have hpre := c.prefix_nameAll ds
  obtain ⟨ls, hls, -⟩ := h.code
  constructor
  case code => exact ⟨ls, hls.symm⟩
  case used =>
    rw [hs.used, hs'.used]
    exact Cells.names_prefix hpre
  case kept =>
    intro p x hx
    rw [hs.find?] at hx
    obtain ⟨i, -, rfl⟩ := Option.map_eq_some_iff.1 hx
    rw [Cells.find?_eq_some_iff hs.distinct] at hx
    rw [hs'.find?, Cells.find?_eq_some_iff hs'.distinct]
    obtain ⟨rest, hrest⟩ := hpre
    rw [← hrest, List.getElem?_append_left (List.getElem?_eq_some_iff.1 hx).1, hx]
  case labels => exact h.labels

section Programs

variable {t : Target}

theorem Saw.opened (s : Session) : Saw (s.renewed t) [] (s.opened t) :=
  (((Saw.line _ (by simp)).trans (.line _ (by simp))).trans (.line _ (by simp))).trans
    (.line _ (by simp))

theorem visits_programBody (p : Program) (s : Session) :
    Visits (Gen.programBody t p) (s.renewed t) (Block.referredOf t p.block (s.opened t))
      p.refs := by
  refine .after (y := do
    Gen.blockOf t p.block
    Gen.instr (.pop t.basePointer)
    Gen.instr .ret) (.opened s) rfl ?_
  refine (visits_blockOf p.block (s.opened t)).andThen fun _ => ?_
  exact (silent_instr _).bind fun _ => silent_instr _

/-- The code of a program is generated in a new session, and the data section is added to it, which
cannot fail. -/
theorem run_program (p : Program) (s : Session) :
    match (Gen.programBody t p).run (s.renewed t) with
    | .ok _ s₁ => ∃ text s', (Gen.program t (some p)).run s = .ok text s'
        ∧ (∀ c, s₁.Refines c → s'.Refines c) ∧ s'.used = s₁.used
        ∧ s'.code = s₁.code ++ Gen.dataLines t s₁.used ∧ text = Asm.listingText s'.code
    | .error e s₁ => (Gen.program t (some p)).run s = .error e s₁ := by
  have hrun : (Gen.program t (some p)).run s = (do
      Gen.programBody t p
      Gen.dataSection t
      let s ← get
      Gen.report (.generated s.lines.size s.used.length s.labels)
      return Asm.listingText s.lines.toList).run (s.renewed t) := rfl
  rw [hrun, EStateM.run_bind]
  cases (Gen.programBody t p).run (s.renewed t) with
  | error e s₁ => rfl
  | ok _ s₁ => exact ⟨_, _, rfl, fun _ => id, rfl, by simp [Session.code], rfl⟩

/-- The session after a program that was generated. -/
theorem program_ok {p : Program} {s s' : Session} {text : String}
    (h : (Gen.program t (some p)).run s = .ok text s') :
    s'.Refines (Cells.nameAll [] p.refs) ∧ text = Asm.listingText s'.code
      ∧ ∃ front, s'.code = front ++ s'.used.map .cell ∧ ∀ x, .cell x ∉ front := by
  have hprogram := run_program (t := t) p s
  cases hbody : (Gen.programBody t p).run (s.renewed t) with
  | error e s₁ =>
    rw [hbody] at hprogram
    cases h.symm.trans hprogram
  | ok u s₁ =>
    rw [hbody] at hprogram
    obtain ⟨text', s'', hrun, hcells, hused, hcode, htext⟩ := hprogram
    cases h.symm.trans hrun
    have hsaw := (visits_programBody p s).ok hbody
    obtain ⟨ls, hls, hnone⟩ := hsaw.code
    refine ⟨hcells _ (hsaw.cells (.start t)), htext,
      ls ++ [.dataSection, .readFormat t.readFormat, .writeFormat t.writeFormat], ?_, ?_⟩
    · rw [hcode, hls, hused, Gen.dataLines]
      simp [Session.renewed, Session.start, Session.code]
    · intro x hx
      simp only [List.mem_append, List.mem_cons, reduceCtorEq, List.not_mem_nil, or_false] at hx
      exact hnone x hx

end Programs

namespace Task

variable {t : Target}

/-- What a task that does not start anew refers to. -/
theorem visits_perform (s : Session) : ∀ {k : Task}, k.restarts = false →
    Visits (k.perform t) s (k.referred t s) k.refs
  | .stmt st, _ => (visits_stmt st s).andThen fun _ => silent_pure _
  | .expr e, _ => (visits_expr e s).andThen fun v => (silent_operand v).bind fun _ => silent_pure _

/-- A task refers to all that its tree refers to, or to a part of it from the front if it fails. -/
theorem referred_front (k : Task) (s : Session) : k.referred t s <+: k.refs
    ∧ ∀ {a s'}, (k.perform t).run s = .ok a s' → k.referred t s = k.refs := by
  rcases k with st | e | _ | p
  · have h := visits_perform (t := t) s (k := .stmt st) rfl
    exact ⟨h.front, h.whole⟩
  · have h := visits_perform (t := t) s (k := .expr e) rfl
    exact ⟨h.front, h.whole⟩
  · exact ⟨List.nil_prefix, fun h => by cases h⟩
  · have hbody := visits_programBody (t := t) p s
    refine ⟨hbody.front, fun h => ?_⟩
    have hprogram := run_program (t := t) p s
    cases hrun : (Gen.programBody t p).run (s.renewed t) with
    | error e s₁ =>
      rw [hrun] at hprogram
      cases h.symm.trans hprogram
    | ok u s₁ => exact hbody.whole hrun

/-- One task that goes on from where the session was, or starts it anew. -/
theorem refines_leaves {s : Session} {ds : List Decl} (hs : s.Refines (Cells.nameAll [] ds))
    (k : Task) : ((k.perform t).leaves s).Refines
      (Cells.nameAll [] ((if k.restarts then [] else ds) ++ k.referred t s)) := by
  cases hk : k.restarts with
  | false =>
    rw [if_neg Bool.false_ne_true, Cells.nameAll_append]
    exact (visits_perform s hk).saw.cells hs
  | true =>
    rw [if_pos rfl, List.nil_append]
    rcases k with st | e | _ | p
    · cases hk
    · cases hk
    · exact Session.Refines.start t
    · have hbody := visits_programBody (t := t) p s
      have hprogram := run_program (t := t) p s
      have hcells := hbody.saw.cells (.start t)
      unfold Gen.leaves at hcells ⊢
      cases hrun : (Gen.programBody t p).run (s.renewed t) with
      | error e s₁ =>
        rw [hrun] at hprogram hcells
        rw [perform, hprogram]
        exact hcells
      | ok u s₁ =>
        rw [hrun] at hprogram hcells
        obtain ⟨text, s', hrun', hkept, -⟩ := hprogram
        rw [perform, hrun']
        exact hkept _ hcells

/-- The cells after any tasks, by induction on the tasks. -/
theorem refines_foldl : ∀ (ks : List Task) {s : Session} {ds : List Decl},
    s.Refines (Cells.nameAll [] ds) →
    (ks.foldl (fun s k => (k.perform t).leaves s) s).Refines
      (Cells.nameAll [] (referredSince t s ds ks))
  | [], _, _, hs => hs
  | k :: ks, _, _, hs => refines_foldl ks (refines_leaves hs k)

theorem refines_performAll (t : Target) (ks : List Task) :
    (performAll t ks).Refines (Cells.nameAll [] (referredSince t (.start t) [] ks)) := by
  have hstart : (Session.start t).Refines (Cells.nameAll [] []) := .start t
  exact refines_foldl ks hstart

theorem performAll_append (ks : List Task) (k : Task) :
    performAll t (ks ++ [k]) = (k.perform t).leaves (performAll t ks) := by
  simp [performAll]

end Task

end Lowering

end WhileAsm
