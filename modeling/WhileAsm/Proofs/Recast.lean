import Mathlib.Data.List.Basic
import Mathlib.Data.Set.Function
import WhileAsm.Proofs.History

/-!
# Two trees, one listing

A tree is recast by changing its declarations and references and forgetting its positions
(`Stmt.recast`). Generation of a tree and of a recast tree run side by side: a relation between
steps of generation that is kept by putting steps together (`Congruence`) holds between the code of
the two trees if it holds wherever they refer to a variable (`Congruence.stmt`).

The relation here is that the two sessions differ in nothing but which declarations have the cells,
and in what is reported (`Mirrors`). It holds if the declarations are told apart in one tree as they
are in the other. So names, types and positions do not matter to a listing, and neither do
declarations (`generate_withoutDecls`): what is left of a program without them (`Program.bare`) has
the same listing, or none for the same reason (`generate_bare`).
-/

namespace WhileAsm

open Asm (Line Target)
open Lowering (Cells Gen GenError Registers Session Unknown Value)

/-! ## Recast trees -/

/-- What becomes of the declarations and references of a tree. -/
structure Guise where
  decl : Decl → Decl
  ref : VarRef → VarRef

/-- Declarations are told apart by `place`; names and types are changed as `name` and `type` say. -/
def Guise.of (name : String → String) (type : VarType → VarType) (place : Path → Path) : Guise where
  decl d := ⟨place d.place, name d.name, type d.type, default⟩
  ref r := ⟨name r.name,
    r.referent.map fun d => ⟨place d.place, name d.name, type d.type, default⟩, default⟩

def Expr.recast (g : Guise) : Expr → Expr
  | .int _ v => .int default v
  | .bool _ b => .bool default b
  | .var ref => .var (g.ref ref)
  | .unary _ op x => .unary default op (x.recast g)
  | .binary _ op l r => .binary default op (l.recast g) (r.recast g)
  | .gap x => .gap x

mutual

def Stmt.recast (g : Guise) : Stmt → Stmt
  | .block b => .block (b.recast g)
  | .decl d => .decl (g.decl d)
  | .assign _ target source => .assign default (target.map g.ref) (source.recast g)
  | .read _ refs => .read default (refs.map (Option.map g.ref))
  | .write _ es => .write default (es.map (Expr.recast g))
  | .loop _ cond none => .loop default (cond.recast g) none
  | .loop _ cond (some b) => .loop default (cond.recast g) (some (b.recast g))
  | .gap x => .gap x

def Block.recast (g : Guise) : Block → Block
  | .mk _ ss => .mk default (Stmt.recastAll g ss)

def Stmt.recastAll (g : Guise) : List Stmt → List Stmt
  | [] => []
  | st :: ss => st.recast g :: Stmt.recastAll g ss

end

def Program.recast (g : Guise) (p : Program) : Program := ⟨default, p.block.map (Block.recast g)⟩

mutual

/-- The tree without the declarations in its blocks. -/
def Stmt.withoutDecls : Stmt → Stmt
  | .block b => .block b.withoutDecls
  | .loop pos cond (some b) => .loop pos cond (some b.withoutDecls)
  | st => st

def Block.withoutDecls : Block → Block
  | .mk pos ss => .mk pos (Stmt.withoutDeclsAll ss)

def Stmt.withoutDeclsAll : List Stmt → List Stmt
  | [] => []
  | .decl _ :: ss => Stmt.withoutDeclsAll ss
  | st :: ss => st.withoutDecls :: Stmt.withoutDeclsAll ss

end

def Program.withoutDecls (p : Program) : Program := ⟨p.pos, p.block.map Block.withoutDecls⟩

/-- What is left of a program without names, types, positions and declarations: the references to
one declaration are those that carry the same place, which is changed by `f`. -/
def Program.bare (f : Path → Path) (p : Program) : Program :=
  (p.recast (.of (fun _ => "") (fun _ => .int) f)).withoutDecls

/-! ## Runs side by side -/

namespace Lowering

/-- A relation between steps of generation that is kept by putting steps together, and by referring
to a good declaration in one tree and to what it becomes in the other. -/
structure Congruence (t : Target) (g : Guise) (good : Decl → Prop)
    (R : ∀ {α : Type}, Gen α → Gen α → Prop) : Prop where
  pure : ∀ {α : Type} (a : α), R (Pure.pure a : Gen α) (Pure.pure a)
  bind : ∀ {α β : Type} {x y : Gen α} {f f' : α → Gen β}, R x y → (∀ a, R (f a) (f' a)) →
    R (x >>= f) (y >>= f')
  throw : ∀ {α : Type} (e : GenError), R (MonadExcept.throw e : Gen α) (MonadExcept.throw e)
  line : ∀ l, R (Gen.line l) (Gen.line l)
  operand : ∀ v, R (Gen.operand v) (Gen.operand v)
  drawLabel : R Gen.drawLabel Gen.drawLabel
  freeAll : R Gen.freeAll Gen.freeAll
  load : ∀ v, R (Gen.load v) (Gen.load v)
  dividend : R (Gen.bindTo t.dividendReg) (Gen.bindTo t.dividendReg)
  cell : ∀ (ref : Option VarRef), (∀ d ∈ VarRef.meant ref, good d) →
    R (Gen.cell ref) (Gen.cell (ref.map g.ref))

namespace Congruence

variable {t : Target} {g : Guise} {good : Decl → Prop} {R : ∀ {α : Type}, Gen α → Gen α → Prop}
  (h : Congruence t g good R)
include h

theorem instr (i : Asm.Instr) : R (Gen.instr i) (Gen.instr i) := h.line _

theorem reject {α : Type} (what : Unknown) : R (Gen.reject what : Gen α) (Gen.reject what) :=
  h.throw _

theorem intoRegister (v : Value) : R (Gen.intoRegister v) (Gen.intoRegister v) := by
  unfold Gen.intoRegister
  split
  · exact h.pure _
  · exact h.load v

theorem nonImmediate (v : Value) : R (Gen.nonImmediate v) (Gen.nonImmediate v) := by
  unfold Gen.nonImmediate
  split
  · exact h.bind (h.load _) fun _ => h.pure _
  · exact h.pure _

theorem divide (l r : Value) : R (Gen.divide t l r) (Gen.divide t l r) := by
  refine h.bind h.dividend fun result => h.bind (h.operand l) fun source => ?_
  refine h.bind (h.operand _) fun dest => h.bind (h.instr _) fun _ => h.bind (h.instr _) fun _ => ?_
  refine h.bind (h.nonImmediate r) fun divisor => h.bind (h.operand divisor) fun d => ?_
  exact h.bind (h.instr _) fun _ => h.pure _

theorem expr : ∀ {e : Expr}, (∀ d ∈ e.refs, good d) → R (Gen.expr t e) (Gen.expr t (e.recast g))
  | .int _ _, _ => h.pure _
  | .bool _ true, _ => h.pure _
  | .bool _ false, _ => h.pure _
  | .gap _, _ => h.reject _
  | .var ref, hgood => h.bind (h.cell (some ref) hgood) fun _ => h.pure _
  | .unary _ op x, hgood => by
    have hx := expr (e := x) hgood
    rw [Expr.recast, Gen.expr, Gen.expr]
    split
    · exact h.reject _
    · refine h.bind hx fun v => h.bind (h.intoRegister v) fun result => ?_
      exact h.bind (h.operand _) fun o => h.bind (h.instr _) fun _ => h.pure _
  | .binary _ op l r, hgood => by
    have hl := expr (e := l) fun d hd => hgood d (List.mem_append_left _ hd)
    have hr := expr (e := r) fun d hd => hgood d (List.mem_append_right _ hd)
    rw [Expr.recast]
    by_cases hop : op = .div
    · subst hop
      exact h.bind hl fun left => h.bind hr fun right => h.divide left right
    · rw [Gen.expr, Gen.expr]
      · split
        · exact h.reject _
        · refine h.bind hl fun left => h.bind hr fun right => ?_
          refine h.bind (h.intoRegister left) fun result => h.bind (h.operand _) fun source => ?_
          exact h.bind (h.operand _) fun dest => h.bind (h.instr _) fun _ => h.pure _
      · exact hop
      · exact hop

theorem libraryCall (r format f : String) :
    R (Gen.libraryCall t r format f) (Gen.libraryCall t r format f) :=
  h.bind (h.instr _) fun _ => h.bind (h.instr _) fun _ => h.instr _

theorem readVars : ∀ (refs : List (Option VarRef)), (∀ d ∈ refs.flatMap VarRef.meant, good d) →
    R (Gen.readVars t refs) (Gen.readVars t (refs.map (Option.map g.ref)))
  | [], _ => h.pure ()
  | ref :: refs, hgood => by
    have href := h.cell ref fun d hd => hgood d (List.mem_append_left _ hd)
    have hrefs := readVars refs fun d hd => hgood d (List.mem_append_right _ hd)
    refine h.bind (h.bind href fun c => ?_) fun _ => hrefs
    split
    · exact h.bind (h.instr _) fun _ => h.libraryCall _ _ _
    · exact h.throw _

theorem writeExprs : ∀ (es : List Expr), (∀ d ∈ es.flatMap Expr.refs, good d) →
    R (Gen.writeExprs t es) (Gen.writeExprs t (es.map (Expr.recast g)))
  | [], _ => h.pure ()
  | e :: es, hgood => by
    have he := h.expr (e := e) fun d hd => hgood d (List.mem_append_left _ hd)
    have hes := writeExprs es fun d hd => hgood d (List.mem_append_right _ hd)
    refine h.bind (h.bind he fun v => ?_) fun _ => hes
    split
    · refine h.bind (h.operand v) fun o => h.bind (h.instr _) fun _ => ?_
      exact h.libraryCall _ _ _
    · exact h.throw _

theorem assign {target : Option VarRef} {source : Expr}
    (hgood : ∀ d ∈ source.refs ++ VarRef.meant target, good d) :
    R (Gen.assign t target source) (Gen.assign t (target.map g.ref) (source.recast g)) := by
  have hsource := h.expr (e := source) fun d hd => hgood d (List.mem_append_left _ hd)
  have htarget : R (Gen.assignTarget target) (Gen.assignTarget (target.map g.ref)) := by
    cases target with
    | none => exact h.reject _
    | some ref =>
      exact h.cell (some ref) fun d hd => hgood d (List.mem_append_right _ hd)
  have hstage : ∀ v, R (Gen.stage v) (Gen.stage v) := by
    intro v
    unfold Gen.stage
    split
    · exact h.bind (h.load _) fun _ => h.pure _
    · exact h.pure _
  refine h.bind hsource fun v => h.bind htarget fun c => h.bind (hstage v) fun v' => ?_
  exact h.bind (h.operand v') fun o => h.instr _

/-- A loop whose bodies are related. -/
theorem loop {pos pos' : Position} {cond : Expr} {body body' : Option Block}
    (hcond : ∀ d ∈ cond.refs, good d) (hbody : R (Gen.blockOf t body) (Gen.blockOf t body')) :
    R (Gen.stmt t (.loop pos cond body)) (Gen.stmt t (.loop pos' (cond.recast g) body')) := by
  have hjump : ∀ v l, R (Gen.jumpIfFalse v l) (Gen.jumpIfFalse v l) := by
    intro v l
    refine h.bind (h.nonImmediate v) fun v' => h.bind (h.operand v') fun o => ?_
    exact h.bind (h.instr _) fun _ => h.instr _
  rw [Gen.stmt, Gen.stmt]
  refine h.bind h.drawLabel fun top => h.bind h.drawLabel fun bottom => ?_
  refine h.bind (h.line _) fun _ => h.bind (h.expr hcond) fun v => ?_
  refine h.bind (hjump v bottom) fun _ => h.bind h.freeAll fun _ => ?_
  exact h.bind hbody fun _ => h.bind (h.instr _) fun _ => h.line _

mutual

theorem stmt : ∀ {st : Stmt}, (∀ d ∈ st.refs, good d) →
    R (Gen.stmt t st) (Gen.stmt t (st.recast g))
  | .block b, hgood => by
    rw [Stmt.refs] at hgood
    exact block hgood
  | .decl _, _ => h.pure ()
  | .assign _ target source, hgood => by
    rw [Stmt.refs] at hgood
    exact h.assign hgood
  | .read _ refs, hgood => by
    rw [Stmt.refs] at hgood
    exact h.readVars refs hgood
  | .write _ es, hgood => by
    rw [Stmt.refs] at hgood
    exact h.writeExprs es hgood
  | .loop _ cond none, hgood => by
    rw [Stmt.refs] at hgood
    exact h.loop hgood (h.reject _)
  | .loop _ cond (some b), hgood => by
    rw [Stmt.refs] at hgood
    refine h.loop (fun d hd => hgood d (List.mem_append_left _ hd)) ?_
    exact block fun d hd => hgood d (List.mem_append_right _ hd)
  | .gap _, _ => h.reject _

theorem block : ∀ {b : Block}, (∀ d ∈ b.refs, good d) →
    R (Gen.block t b) (Gen.block t (b.recast g))
  | .mk _ ss, hgood => by
    rw [Block.refs] at hgood
    exact h.bind (stmts hgood) fun _ => h.freeAll

theorem stmts : ∀ {ss : List Stmt}, (∀ d ∈ Stmt.refsOf ss, good d) →
    R (Gen.stmts t ss) (Gen.stmts t (Stmt.recastAll g ss))
  | [], _ => h.pure ()
  | st :: ss, hgood => by
    rw [Stmt.refsOf] at hgood
    refine h.bind (stmt fun d hd => hgood d (List.mem_append_left _ hd)) fun _ => ?_
    exact stmts fun d hd => hgood d (List.mem_append_right _ hd)

end

theorem programBody {p : Program} (hgood : ∀ d ∈ p.refs, good d) :
    R (Gen.programBody t p) (Gen.programBody t (p.recast g)) := by
  have hblock : R (Gen.blockOf t p.block) (Gen.blockOf t (p.recast g).block) := by
    rcases p with ⟨pos, _ | b⟩
    · exact h.reject _
    · exact h.block hgood
  refine h.bind (h.line _) fun _ => h.bind (h.line _) fun _ => h.bind (h.line _) fun _ => ?_
  refine h.bind (h.instr _) fun _ => h.bind hblock fun _ => ?_
  exact h.bind (h.instr _) fun _ => h.instr _

end Congruence

/-! ## Sessions that differ in their declarations -/

/-- A name table after its declarations have become others. -/
def NameTable.recast (f : Path → Path) (t : NameTable) : NameTable :=
  { t with entries := t.entries.map fun e => (f e.1, e.2) }

section Names

variable {f : Path → Path} {S : Set Path} (hf : Set.InjOn f S)
include hf

theorem CellNames.find?_map {c : CellNames} (hc : ∀ e ∈ c, e.1 ∈ S) {p : Path} (hp : p ∈ S) :
    CellNames.find? (c.map fun e => (f e.1, e.2)) (f p) = c.find? p := by
  unfold CellNames.find?
  induction c with
  | nil => rfl
  | cons e c ih =>
    have he : e.1 ∈ S := hc e List.mem_cons_self
    have heq : (f p == f e.1) = (p == e.1) := by
      by_cases hpe : p = e.1
      · simp [hpe]
      · have hne : f p ≠ f e.1 := fun h => hpe (hf hp he h)
        simp [hpe, hne]
    rw [List.map_cons, List.lookup_cons, heq, ih fun e' he' => hc e' (List.mem_cons_of_mem _ he'),
      List.lookup_cons]

theorem NameTable.nameFor_recast {t : NameTable} (ht : ∀ e ∈ t.entries, e.1 ∈ S) {p : Path}
    (hp : p ∈ S) :
    (t.recast f).nameFor (f p) = ((t.nameFor p).1, (t.nameFor p).2.recast f) := by
  have hfind : (t.recast f).entries.find? (f p) = t.entries.find? p :=
    CellNames.find?_map hf ht hp
  unfold nameFor
  rw [hfind]
  cases t.entries.find? p with
  | some n => rfl
  | none => simp [recast]

end Names

/-- Two sessions that differ only in what was reported and in which declarations have the cells. -/
structure Twin (f : Path → Path) (S : Set Path) (s s' : Session) : Prop where
  registers : s'.registers = s.registers
  labels : s'.labels = s.labels
  lines : s'.lines = s.lines
  names : s'.names = s.names.recast f
  used : s'.used = s.used
  usedSet : s'.usedSet = s.usedSet
  inside : ∀ e ∈ s.cells, e.1 ∈ S

/-- Two steps lead from such sessions to such sessions, or fail for the same reason. -/
def Mirrors (f : Path → Path) (S : Set Path) {α : Type} (x y : Gen α) : Prop :=
  ∀ s s', Twin f S s s' → match x.run s, y.run s' with
    | .ok a m, .ok b m' => a = b ∧ Twin f S m m'
    | .error e _, .error e' _ => e = e'
    | _, _ => False

section Mirrors

variable {f : Path → Path} {S : Set Path} {α β : Type}

theorem Twin.push {s s' : Session} (h : Twin f S s s') (l : Line) :
    Twin f S (s.push l) (s'.push l) := by
  refine ⟨h.registers, h.labels, ?_, h.names, h.used, h.usedSet, h.inside⟩
  simp [Session.push, h.lines]

theorem Twin.commit {s s' : Session} (h : Twin f S s s') (st : Step α) :
    Twin f S (s.commit st) (s'.commit st) := by
  refine ⟨rfl, h.labels, ?_, h.names, h.used, h.usedSet, h.inside⟩
  simp [Session.commit, h.lines]

theorem Mirrors.bind {x y : Gen α} {k k' : α → Gen β} (h : Mirrors f S x y)
    (hk : ∀ a, Mirrors f S (k a) (k' a)) : Mirrors f S (x >>= k) (y >>= k') := by
  intro s s' hs
  have hxy := h s s' hs
  rw [EStateM.run_bind, EStateM.run_bind]
  rcases hx : x.run s with ⟨a, m⟩ | ⟨e, m⟩ <;> rcases hy : y.run s' with ⟨b, m'⟩ | ⟨e', m'⟩ <;>
    rw [hx, hy] at hxy
  · obtain ⟨rfl, hm⟩ := hxy
    exact hk a m m' hm
  · exact hxy.elim
  · exact hxy.elim
  · exact hxy

theorem mirrors_allocate (step : Registers → Except Exhausted (Step α)) :
    Mirrors f S (Gen.allocate step) (Gen.allocate step) := by
  intro s s' hs
  rw [Gen.run_allocate, Gen.run_allocate, hs.registers]
  cases step s.registers with
  | ok st => exact ⟨rfl, hs.commit st⟩
  | error e => rfl

/-- What is noted for the data section is the same, whatever the variables are called. -/
theorem Twin.noted {s s' : Session} (h : Twin f S s s') (n n' x : String) :
    Twin f S (s.noted n x) (s'.noted n' x) := by
  unfold Session.noted
  rw [h.usedSet]
  split
  · exact h
  · exact ⟨h.registers, h.labels, h.lines, h.names, by rw [h.used], rfl, h.inside⟩

/-- A variable has the same cell in both sessions. -/
theorem mirrors_cell (hf : Set.InjOn f S) {name : String → String} {type : VarType → VarType}
    {ref : Option VarRef} (hgood : ∀ d ∈ VarRef.meant ref, d.place ∈ S) :
    Mirrors f S (Gen.cell ref) (Gen.cell (ref.map (Guise.of name type f).ref)) := by
  rcases ref with _ | ⟨n, _ | d, pos⟩
  · exact fun _ _ _ => rfl
  · exact fun _ _ _ => rfl
  · intro s s' hs
    have hd : d.place ∈ S := hgood d (by simp [VarRef.meant])
    have hname := NameTable.nameFor_recast hf hs.inside hd
    rw [← hs.names] at hname
    have hnamed : Twin f S { s with names := (s.names.nameFor d.place).2 }
        { s' with names := (s.names.nameFor d.place).2.recast f } := by
      refine ⟨hs.registers, hs.labels, hs.lines, rfl, hs.used, hs.usedSet, fun e he => ?_⟩
      rcases s.names.nameFor_cases d.place with ⟨x, -, h⟩ | ⟨-, h⟩ <;> rw [Session.cells, h] at he
      · exact hs.inside e he
      · rcases List.mem_append.1 he with he | he
        · exact hs.inside e he
        · rw [List.mem_singleton.1 he]
          exact hd
    simp only [Option.map_some, Guise.of, Gen.run_cell, Session.refer, hname]
    exact ⟨trivial, hnamed.noted _ _ _⟩

theorem mirrors_congruence (t : Target) (hf : Set.InjOn f S) (name : String → String)
    (type : VarType → VarType) :
    Congruence t (.of name type f) (·.place ∈ S) (Mirrors f S) where
  pure _ _ _ hs := ⟨rfl, hs⟩
  bind := Mirrors.bind
  throw _ _ _ _ := rfl
  line l _ _ hs := ⟨rfl, hs.push l⟩
  operand v s s' hs := ⟨congrArg (·.operand v) hs.registers.symm, hs⟩
  drawLabel s s' hs :=
    ⟨congrArg labelAt hs.labels.symm, hs.registers, congrArg (· + 1) hs.labels, hs.lines, hs.names,
      hs.used, hs.usedSet, hs.inside⟩
  freeAll s s' hs := by
    refine ⟨rfl, ?_⟩
    change Twin f S (s.commit s.registers.freeAll) (s'.commit s'.registers.freeAll)
    rw [hs.registers]
    exact hs.commit _
  load v := by
    rw [Gen.load_eq]
    exact mirrors_allocate _
  dividend := by
    rw [Gen.bindTo_eq]
    exact mirrors_allocate _
  cell := fun _ => mirrors_cell hf

end Mirrors

/-! ## Declarations take no code -/

section WithoutDecls

variable (t : Target)

mutual

theorem stmt_withoutDecls : ∀ st : Stmt, Gen.stmt t st.withoutDecls = Gen.stmt t st
  | .block b => block_withoutDecls b
  | .loop pos cond (some b) => by
    have hb : Gen.blockOf t (some b.withoutDecls) = Gen.blockOf t (some b) := block_withoutDecls b
    rw [Stmt.withoutDecls, Gen.stmt, Gen.stmt, hb]
  | .loop _ _ none | .decl _ | .assign _ _ _ | .read _ _ | .write _ _ | .gap _ => by
    rw [Stmt.withoutDecls] <;> simp

theorem block_withoutDecls : ∀ b : Block, Gen.block t b.withoutDecls = Gen.block t b
  | .mk pos ss => by
    rw [Block.withoutDecls, Gen.block, Gen.block, stmts_withoutDecls ss]

theorem stmts_withoutDecls : ∀ ss : List Stmt,
    Gen.stmts t (Stmt.withoutDeclsAll ss) = Gen.stmts t ss
  | [] => by rw [Stmt.withoutDeclsAll]
  | st :: ss => by
    have hss := stmts_withoutDecls ss
    by_cases hst : ∃ d, st = .decl d
    · obtain ⟨d, rfl⟩ := hst
      rw [Stmt.withoutDeclsAll, Gen.stmts, Gen.stmt, hss, pure_bind]
    · rw [Stmt.withoutDeclsAll, Gen.stmts, Gen.stmts, hss, stmt_withoutDecls st]
      exact fun d hd => hst ⟨d, hd⟩

end

theorem programBody_withoutDecls (p : Program) :
    Gen.programBody t p.withoutDecls = Gen.programBody t p := by
  have hblock : Gen.blockOf t p.withoutDecls.block = Gen.blockOf t p.block := by
    rcases p with ⟨pos, _ | b⟩
    · rfl
    · exact block_withoutDecls t b
  rw [Gen.programBody, Gen.programBody, hblock]

end WithoutDecls

/-! ## Listings -/

/-- The listing of a program is the code of its body and the data section. -/
theorem generate_eq_programBody (t : Target) (p : Program) : generate t (some p)
    = match (Gen.programBody t p).run ((Session.start t).renewed t) with
      | .ok _ s => .ok (Asm.listingText (s.code ++ Gen.dataLines t s.used))
      | .error e _ => .error e := by
  have hrun := run_program (t := t) p (.start t)
  unfold generate
  cases hbody : (Gen.programBody t p).run ((Session.start t).renewed t) with
  | ok u s =>
    rw [hbody] at hrun
    obtain ⟨text, s', hprogram, -, -, hcode, rfl⟩ := hrun
    rw [hprogram, hcode]
  | error e s =>
    rw [hbody] at hrun
    rw [hrun]

theorem generate_recast (t : Target) {p : Program} {f : Path → Path}
    (hf : Set.InjOn f {q | ∃ d ∈ p.refs, d.place = q}) (name : String → String)
    (type : VarType → VarType) :
    generate t (some (p.recast (.of name type f))) = generate t (some p) := by
  have hstart : Twin f {q | ∃ d ∈ p.refs, d.place = q} ((Session.start t).renewed t)
      ((Session.start t).renewed t) :=
    ⟨rfl, rfl, rfl, rfl, rfl, rfl, fun _ he => absurd he List.not_mem_nil⟩
  have hbody := (mirrors_congruence t hf name type).programBody (p := p)
    (fun d hd => ⟨d, hd, rfl⟩) _ _ hstart
  rw [generate_eq_programBody, generate_eq_programBody]
  rcases hx : (Gen.programBody t p).run ((Session.start t).renewed t) with ⟨_, m⟩ | ⟨e, m⟩ <;>
    rcases hy : (Gen.programBody t (p.recast (.of name type f))).run
      ((Session.start t).renewed t) with ⟨_, m'⟩ | ⟨e', m'⟩ <;> rw [hx, hy] at hbody
  · obtain ⟨-, hm⟩ := hbody
    simp [Session.code, hm.lines, hm.used]
  · exact hbody.elim
  · exact hbody.elim
  · rw [hbody]

theorem generate_withoutDecls (t : Target) (p : Program) :
    generate t (some p.withoutDecls) = generate t (some p) := by
  rw [generate_eq_programBody, generate_eq_programBody, programBody_withoutDecls]

theorem generate_bare (t : Target) {p : Program} {f : Path → Path}
    (hf : Set.InjOn f {q | ∃ d ∈ p.refs, d.place = q}) :
    generate t (some (p.bare f)) = generate t (some p) := by
  rw [Program.bare, generate_withoutDecls, generate_recast t hf]

end Lowering

/-- Declarations told apart by the order in which a program first refers to them. -/
def Program.numbering (p : Program) (q : Path) : Path :=
  [.index ((p.refs.map Decl.place).idxOf q)]

theorem Program.injOn_numbering (p : Program) :
    Set.InjOn p.numbering {q | ∃ d ∈ p.refs, d.place = q} := by
  rintro _ ⟨d, hd, rfl⟩ _ ⟨d', hd', rfl⟩ h
  have hidx : (p.refs.map Decl.place).idxOf d.place = (p.refs.map Decl.place).idxOf d'.place := by
    simpa [numbering] using h
  exact (List.idxOf_inj (List.mem_map_of_mem hd)).1 hidx

/-- Two programs that differ only in names, types, positions and declarations, and whose references
mean the same variable in one exactly where they do in the other, have the same listing or fail for
the same reason. Every program has the listing of one in which no text is left. -/
theorem generate_eq_of_bare (t : Target) :
    (∀ {p p' : Program} {f : Path → Path}, Set.InjOn f {q | ∃ d ∈ p.refs, d.place = q} →
      p.bare f = p'.bare id → generate t (some p) = generate t (some p'))
      ∧ ∀ p : Program, generate t (some p) = generate t (some (p.bare p.numbering)) := by
  refine ⟨?_, fun p => (Lowering.generate_bare t p.injOn_numbering).symm⟩
  intro p p' f hf hbare
  rw [← Lowering.generate_bare t hf, hbare, Lowering.generate_bare t Function.injective_id.injOn]

/-! ## A program in disguise -/

/-- A program in whose inner block one `x` hides the other: it reads the inner one and assigns it to
the outer one in a loop, with `declare` in front of both blocks. -/
def twoCells (outer inner : Decl) (declare : Decl → List Stmt) : Program :=
  let a : VarRef := ⟨outer.name, some outer, ⟨3, 1⟩⟩
  let b : VarRef := ⟨inner.name, some inner, ⟨4, 1⟩⟩
  ⟨⟨1, 1⟩, some (.mk ⟨1, 1⟩ (declare outer ++
    [.loop ⟨3, 1⟩ (.unary ⟨3, 1⟩ .not (.var a)) (some (.mk ⟨4, 1⟩ (declare inner ++
      [.read ⟨4, 1⟩ [some b],
        .assign ⟨5, 1⟩ (some a) (.binary ⟨5, 1⟩ .div (.var b) (.var a))])))]))⟩

def shadowedCells : Program :=
  twoCells ⟨[.index 0], "x", .int, ⟨2, 1⟩⟩ ⟨[.index 1], "x", .bool, ⟨4, 9⟩⟩ fun d => [.decl d]

/-- The same with other names and types, the places of the variables changed, and no
declarations. -/
def disguisedCells : Program :=
  twoCells ⟨[.index 1], "rax", .bool, ⟨7, 7⟩⟩ ⟨[.key "_main"], "_v1", .int, ⟨8, 8⟩⟩ fun _ => []

theorem generate_eq_of_bare_disguised :
    (generate (.x86_64 .linux) (some shadowedCells)).isOk
      ∧ generate (.x86_64 .linux) (some shadowedCells)
        = generate (.x86_64 .linux) (some disguisedCells) := by
  refine ⟨by decide +kernel, ?_⟩
  let f : Path → Path := fun q => if q = [.index 0] then [.index 1] else [.key "_main"]
  refine (generate_eq_of_bare (.x86_64 .linux)).1 (f := f) ?_ rfl
  have hf : ∀ d ∈ shadowedCells.refs, ∀ d' ∈ shadowedCells.refs, f d.place = f d'.place →
      d.place = d'.place := by
    decide
  rintro _ ⟨d, hd, rfl⟩ _ ⟨d', hd', rfl⟩ h
  exact hf d hd d' hd' h

end WhileAsm
