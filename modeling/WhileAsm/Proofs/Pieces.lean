import WhileAsm.Proofs.History
import WhileAsm.Proofs.Preservation
import WhileAsm.Proofs.Reading

/-!
# The pieces of a listing

What generation writes is made of pieces (`Piece`): a computation on registers of the pool and
cells, a jump, a call with its arguments, the entry and the way out. That holds of every step,
whether it ends well or fails (`Ends`), since a step that fails has written whole pieces before. So
it holds of the listing after any tasks (`grown_performAll`).

An operand is put into a register where it has to be: a constant that is compared or divided by, a
cell that is assigned to another, the left operand of an operation. So the operands of every
instruction are legal, and the registers that it names are of the pool, but for those that have a
role in the piece (`instructions_legal`).
-/

namespace WhileAsm.Lowering

open Asm (Holds Instr IsName Line Operand Target registersNamed)

/-! ## Pieces of code -/

/-- An operand that generation may write: a constant, a register of the pool or a cell. -/
def ProperOperand (t : Target) : Operand → Prop
  | .imm _ => True
  | .reg r => r ∈ t.scratch
  | .mem x => ∃ k, x = Cells.nameAt k

/-- What the code of expressions, assignments and tests is made of. -/
inductive Computation (t : Target) : Instr → Prop where
  | move {o r} : ProperOperand t o → r ∈ t.scratch → Computation t (.move o (.reg r))
  | store {o k} : ProperOperand t o → o.isMem = false →
    Computation t (.move o (.mem (Cells.nameAt k)))
  | arith {op o r} : ProperOperand t o → r ∈ t.scratch → Computation t (.arith op o (.reg r))
  | negate {r} : r ∈ t.scratch → Computation t (.negate (.reg r))
  | signExtend : Computation t .signExtend
  | divide {o} : ProperOperand t o → o.isImm = false → Computation t (.divide o)
  | compare {o} : ProperOperand t o → o.isImm = false → Computation t (.compare 0 o)

/-- A call with a format; the first instruction puts the other argument into its register. -/
def callSequence (argument : Instr) (format routine : String) : List Line :=
  [.instr argument, .instr (.loadAddress format "rdi"), .instr (.clear "rax"),
    .instr (.call routine)]

/-- A call that reads into a cell, or writes the value of an operand. -/
inductive LibraryCall (t : Target) : List Line → Prop where
  | read (k : ℕ) : LibraryCall t
    (callSequence (.moveAddress (Cells.nameAt k) "rsi") t.readFormat t.scanFunc)
  | write {o} : ProperOperand t o →
    LibraryCall t (callSequence (.move o (.reg "rsi")) t.writeFormat t.printFunc)

def returnLines (t : Target) : List Line := [.instr (.pop t.basePointer), .instr .ret]

/-- The first lines of the data section. -/
def formatLines (t : Target) : List Line :=
  [.dataSection, .readFormat t.readFormat, .writeFormat t.writeFormat]

inductive Piece (t : Target) : List Line → Prop where
  | computation {i} : Computation t i → Piece t [.instr i]
  | out {j} : Piece t [.instr (.jumpIfEqual (labelAt j))]
  | back {j} : Piece t [.instr (.jump (labelAt j))]
  | call {ls} : LibraryCall t ls → Piece t ls
  | enter : Piece t (prologue t)
  | leave : Piece t (returnLines t)
  | label {j} : Piece t [.label (labelAt j)]
  | formats : Piece t (formatLines t)
  | cell {k} : Piece t [.cell (Cells.nameAt k)]

def Computing (t : Target) (ls : List Line) : Prop := ∃ i, ls = [.instr i] ∧ Computation t i

theorem Computing.piece {t : Target} {ls : List Line} (h : Computing t ls) : Piece t ls := by
  obtain ⟨i, rfl, hi⟩ := h
  exact .computation hi

/-! ## Values and where they are -/

/-- Every value was put into a register of the pool. -/
structure Registers.Pooled (t : Target) (r : Registers) : Prop where
  pool : r.pool = t.scratch
  places : ∀ x ∈ r.places, x ∈ t.scratch

def Value.Known (r : Registers) : Value → Prop
  | .imm _ => True
  | .cell x => ∃ k, x = Cells.nameAt k
  | .reg h => h.number < r.places.length

section Registers

variable {t : Target} {r r' : Registers} {v : Value}

theorem Value.Known.mono (h : v.Known r) (hle : r.places.length ≤ r'.places.length) :
    v.Known r' := by
  cases v with
  | imm w => trivial
  | cell x => exact h
  | reg k => exact Nat.lt_of_lt_of_le h hle

theorem Registers.Pooled.place (hr : r.Pooled t) {h : Handle} (hh : h.number < r.places.length) :
    r.place h ∈ t.scratch := by
  rw [Registers.place, List.getElem?_eq_getElem hh]
  exact hr.places _ (List.getElem_mem hh)

theorem Registers.Pooled.operand (hr : r.Pooled t) (hv : v.Known r) :
    ProperOperand t (r.operand v) := by
  cases v with
  | imm w => trivial
  | cell x => exact hv
  | reg h => exact hr.place hv

/-- A step on the file that takes registers of the pool alone. -/
structure Registers.Grants {α : Type} (t : Target) (r : Registers) (st : Step α) : Prop where
  pooled : st.registers.Pooled t
  places : r.places.length ≤ st.registers.places.length
  instrs : ∀ i ∈ st.instrs, Computation t i

theorem Registers.Pooled.occupy (hr : r.Pooled t) {name : String} (h : name ∈ t.scratch) :
    (r.occupy name).2.Pooled t := by
  refine ⟨hr.pool, fun x hx => ?_⟩
  rcases List.mem_append.1 hx with hx | hx
  · exact hr.places x hx
  · exact List.mem_singleton.1 hx ▸ h

theorem Registers.Pooled.relocate (hr : r.Pooled t) {h : Handle} {name : String}
    (hname : name ∈ t.scratch) : (r.relocate h name).Pooled t := by
  refine ⟨hr.pool, fun x hx => ?_⟩
  rcases List.mem_or_eq_of_mem_set hx with hx | rfl
  · exact hr.places x hx
  · exact hname

theorem Registers.Pooled.free (hr : r.Pooled t) {name : String} (h : r.free? = some name) :
    name ∈ t.scratch :=
  hr.pool ▸ (Registers.free?_eq_some h).1

theorem le_places_occupy (r : Registers) (name : String) :
    r.places.length ≤ (r.occupy name).2.places.length :=
  (Nat.le_succ _).trans (Registers.length_places_occupy r name).ge

theorem known_occupy (r : Registers) (name : String) :
    (Value.reg ⟨r.places.length⟩).Known (r.occupy name).2 :=
  Nat.lt_of_lt_of_le (Nat.lt_succ_self _) (Registers.length_places_occupy r name).ge

theorem grants_load (hr : r.Pooled t) (hv : v.Known r) {st : Step Handle}
    (h : r.load v = .ok st) : r.Grants t st ∧ (Value.reg st.result).Known st.registers := by
  obtain ⟨f, hf, rfl⟩ := Registers.map_eq_ok (x := r.fresh) h
  unfold Registers.fresh at hf
  split at hf
  · cases hf
  · rename_i name hname
    cases hf
    have hpooled := hr.occupy (hr.free hname)
    refine ⟨⟨hpooled, le_places_occupy r name, fun i hi => ?_⟩, known_occupy r name⟩
    obtain rfl := List.mem_singleton.1 hi
    exact .move (hpooled.operand (hv.mono (le_places_occupy r name)))
      (hpooled.place (known_occupy r name))

theorem grants_bind (hr : r.Pooled t) {name : String} (hname : name ∈ t.scratch)
    {st : Step Handle} (h : r.bind name = .ok st) :
    r.Grants t st ∧ (Value.reg st.result).Known st.registers := by
  unfold Registers.bind at h
  split at h
  · cases h
    exact ⟨⟨hr.occupy hname, le_places_occupy r name, by simp⟩, known_occupy r name⟩
  · rename_i old hold
    split at h
    · cases h
    · rename_i other hf
      cases h
      have hother := hr.free hf
      have hle := (Registers.length_places_relocate r old other).ge.trans
        (le_places_occupy (r.relocate old other) name)
      refine ⟨⟨(hr.relocate hother).occupy hname, hle, ?_⟩, known_occupy _ name⟩
      intro i hi
      obtain rfl := List.mem_singleton.1 hi
      exact .move hname hother

theorem grants_nonImmediate (hr : r.Pooled t) (hv : v.Known r) {st : Step Value}
    (h : r.nonImmediate v = .ok st) : r.Grants t st ∧ st.result.Known st.registers
      ∧ (st.registers.operand st.result).isImm = false := by
  cases v with
  | imm w =>
    obtain ⟨f, hf, rfl⟩ := Registers.map_eq_ok (x := r.load (.imm w)) h
    obtain ⟨hgrants, hresult⟩ := grants_load hr hv hf
    exact ⟨⟨hgrants.pooled, hgrants.places, hgrants.instrs⟩, hresult, rfl⟩
  | cell x =>
    cases h
    exact ⟨⟨hr, Nat.le_refl _, by simp⟩, hv, rfl⟩
  | reg k =>
    cases h
    exact ⟨⟨hr, Nat.le_refl _, by simp⟩, hv, rfl⟩

end Registers

/-! ## Steps that write pieces -/

/-- Values are in registers of the pool, and cells have the names that are given to cells. -/
structure Supplied (t : Target) (r : Registers) (cells : CellNames) (used : List String) :
    Prop where
  registers : r.Pooled t
  named : ∀ x ∈ cells.names, ∃ k, x = Cells.nameAt k
  used : ∀ x ∈ used, ∃ k, x = Cells.nameAt k

def Session.Pooled (t : Target) (s : Session) : Prop := Supplied t s.registers s.cells s.used

def Session.pushAll (s : Session) (ls : List Line) : Session := ls.foldl Session.push s

/-- From one session to the next, pieces were added to the code. -/
structure Grown (t : Target) (A : List Line → Prop) (s s' : Session) : Prop where
  pooled : s'.Pooled t
  places : s.registers.places.length ≤ s'.registers.places.length
  code : ∃ ps : List (List Line), s'.code = s.code ++ ps.flatten ∧ ∀ p ∈ ps, A p

/-- The step adds pieces to the code, also if it fails; if it ends well, it answers as `Q` says. -/
def Ends {α : Type} (t : Target) (A : List Line → Prop) (x : Gen α) (Q : α → Session → Prop)
    (s : Session) : Prop :=
  match x.run s with
  | .ok a s' => Grown t A s s' ∧ Q a s'
  | .error _ s' => Grown t A s s'

section Ends

variable {t : Target} {A B : List Line → Prop} {α β : Type} {s s' s'' : Session}
  {Q : α → Session → Prop} {R : β → Session → Prop}

theorem Grown.same (hs : s'.Pooled t) (hregs : s'.registers = s.registers)
    (hcode : s'.code = s.code) : Grown t A s s' :=
  ⟨hs, by rw [hregs], [], by simpa using hcode, by simp⟩

theorem Grown.refl (hs : s.Pooled t) : Grown t A s s := .same hs rfl rfl

theorem Grown.trans (h : Grown t A s s') (h' : Grown t A s' s'') : Grown t A s s'' := by
  obtain ⟨ps, hps, hA⟩ := h.code
  obtain ⟨qs, hqs, hA'⟩ := h'.code
  refine ⟨h'.pooled, h.places.trans h'.places, ps ++ qs, ?_, fun p hp => ?_⟩
  · rw [hqs, hps, List.flatten_append, List.append_assoc]
  · rcases List.mem_append.1 hp with hp | hp
    · exact hA p hp
    · exact hA' p hp

theorem Grown.mono (h : Grown t A s s') (hAB : ∀ p, A p → B p) : Grown t B s s' := by
  obtain ⟨ps, hps, hA⟩ := h.code
  exact ⟨h.pooled, h.places, ps, hps, fun p hp => hAB p (hA p hp)⟩

theorem pushAll_eq (s : Session) (ls : List Line) :
    s.pushAll ls = { s with lines := (s.pushAll ls).lines } := by
  induction ls generalizing s with
  | nil => rfl
  | cons l ls ih => exact ih (s.push l)

theorem code_pushAll (s : Session) (ls : List Line) : (s.pushAll ls).code = s.code ++ ls := by
  induction ls generalizing s with
  | nil => simp [Session.pushAll]
  | cons l ls ih =>
    have h := ih (s.push l)
    rw [Session.code_push, List.append_assoc] at h
    exact h

theorem Grown.piece {ls : List Line} (hs : s.Pooled t) (h : A ls) :
    Grown t A s (s.pushAll ls) := by
  refine ⟨?_, ?_, [ls], ?_, ?_⟩
  · rw [pushAll_eq]
    exact hs
  · rw [pushAll_eq]
  · simp [code_pushAll]
  · simpa using h

theorem Ends.pieces {x : Gen α} (h : Ends t (Computing t) x Q s) : Ends t (Piece t) x Q s := by
  unfold Ends at h ⊢
  split at h
  · exact ⟨h.1.mono fun _ hp => hp.piece, h.2⟩
  · exact h.mono fun _ hp => hp.piece

theorem Ends.ok {x : Gen α} {a : α} (h : Ends t A x Q s) (hrun : x.run s = .ok a s') :
    Grown t A s s' ∧ Q a s' := by
  unfold Ends at h
  rwa [hrun] at h

theorem Ends.bind {x : Gen α} {f : α → Gen β} (hx : Ends t A x Q s)
    (hf : ∀ a s', Grown t A s s' → Q a s' → Ends t A (f a) R s') : Ends t A (x >>= f) R s := by
  unfold Ends at hx ⊢
  rw [EStateM.run_bind]
  cases hrun : x.run s with
  | error e s' =>
    rw [hrun] at hx
    exact hx
  | ok a s' =>
    rw [hrun] at hx
    have h := hf a s' hx.1 hx.2
    unfold Ends at h
    dsimp only
    split at h <;> rename_i hf' <;> rw [hf']
    · exact ⟨hx.1.trans h.1, h.2⟩
    · exact hx.1.trans h

/-- What runs as another step does after a piece. -/
theorem Ends.after {x y : Gen α} (hg : Grown t A s s') (hrun : x.run s = y.run s')
    (hy : Ends t A y Q s') : Ends t A x Q s := by
  unfold Ends at hy ⊢
  rw [hrun]
  split at hy
  · exact ⟨hg.trans hy.1, hy.2⟩
  · exact hg.trans hy

theorem Ends.pure {a : α} (hs : s.Pooled t) (hQ : Q a s) : Ends t A (Pure.pure a) Q s :=
  ⟨.refl hs, hQ⟩

theorem ends_throw (hs : s.Pooled t) (e : GenError) : Ends t A (throw e) Q s :=
  Grown.refl (A := A) hs

theorem ends_reject (hs : s.Pooled t) (what : Unknown) :
    Ends t A (Gen.reject what) Q s :=
  ends_throw hs (.unknown what)

theorem Ends.instr {i : Instr} {f : Unit → Gen β} (hs : s.Pooled t)
    (hi : A [.instr i]) (hf : Ends t A (f ()) R (s.push (.instr i))) :
    Ends t A (Gen.instr i >>= f) R s :=
  .after (.piece hs hi) (Gen.run_instr_bind i f) hf

theorem Ends.operand {v : Value} {f : Operand → Gen β}
    (hf : Ends t A (f (s.registers.operand v)) R s) : Ends t A (Gen.operand v >>= f) R s :=
  hf

theorem ends_piece {x : Gen Unit} {ls : List Line} (hs : s.Pooled t)
    (hrun : x.run s = .ok () (s.pushAll ls)) (h : A ls) : Ends t A x (fun _ _ => True) s := by
  unfold Ends
  rw [hrun]
  exact ⟨.piece hs h, trivial⟩

/-- A declaration has one of the names that are given to cells. -/
theorem Session.Pooled.nameFor (hs : s.Pooled t) (p : Path) :
    ∃ k, (s.names.nameFor p).1 = Cells.nameAt k := by
  rcases s.names.nameFor_cases p with ⟨x, hx, h⟩ | ⟨-, h⟩ <;> rw [h]
  · exact hs.named x (CellNames.mem_names_of_find? hx)
  · exact ⟨_, rfl⟩

theorem Session.Pooled.refer (hs : s.Pooled t) (n : String) (p : Path) :
    (s.refer n p).Pooled t := by
  have hname := hs.nameFor p
  have hcells : ∀ x ∈ (s.names.nameFor p).2.entries.names, ∃ k, x = Cells.nameAt k := by
    rcases s.names.nameFor_cases p with ⟨y, hy, h⟩ | ⟨-, h⟩ <;> rw [h]
    · exact hs.named
    · intro x hx
      rw [CellNames.names, List.map_append] at hx
      rcases List.mem_append.1 hx with hx | hx
      · exact hs.named x hx
      · exact ⟨_, List.mem_singleton.1 hx⟩
  unfold Session.refer Session.noted
  split
  · exact ⟨hs.registers, hcells, hs.used⟩
  · refine ⟨hs.registers, hcells, fun x hx => ?_⟩
    rcases List.mem_append.1 hx with hx | hx
    · exact hs.used x hx
    · exact List.mem_singleton.1 hx ▸ hname

theorem ends_cell (hs : s.Pooled t) (ref : Option VarRef) :
    Ends t A (Gen.cell ref) (fun x _ => ∃ k, x = Cells.nameAt k) s := by
  rcases ref with _ | ⟨n, _ | d, pos⟩
  · exact Grown.refl hs
  · exact Grown.refl hs
  · unfold Ends
    rw [Gen.run_cell]
    have hgrown : Grown t A s (s.refer n d.place) :=
      .same (hs.refer n d.place) (s.registers_refer n d.place) (s.code_refer n d.place)
    exact ⟨hgrown, hs.nameFor d.place⟩

theorem grown_commit {st : Step α} (hs : s.Pooled t) (h : s.registers.Grants t st) :
    Grown t (Computing t) s (s.commit st) := by
  refine ⟨⟨h.pooled, hs.named, hs.used⟩, h.places, st.instrs.map fun i => [.instr i], ?_,
    fun p hp => ?_⟩
  · rw [Session.code_commit, ← List.flatMap_def, List.map_eq_flatMap]
  · obtain ⟨i, hi, rfl⟩ := List.mem_map.1 hp
    exact ⟨i, rfl, h.instrs i hi⟩

theorem ends_allocate {step : Registers → Except Exhausted (Step α)} (hs : s.Pooled t)
    (h : ∀ st, step s.registers = .ok st → s.registers.Grants t st ∧ Q st.result (s.commit st)) :
    Ends t (Computing t) (Gen.allocate step) Q s := by
  unfold Ends
  rw [Gen.run_allocate]
  cases hstep : step s.registers with
  | ok st =>
    obtain ⟨hgrants, hQ⟩ := h st hstep
    exact ⟨grown_commit hs hgrants, hQ⟩
  | error e => exact .refl hs

end Ends

/-! ## Expressions -/

section Exprs

variable {t : Target} {s : Session} {v : Value}

theorem ends_load (hs : s.Pooled t) (hv : v.Known s.registers) :
    Ends t (Computing t) (Gen.load v) (fun k s' => (Value.reg k).Known s'.registers) s := by
  rw [Gen.load_eq]
  exact ends_allocate hs fun _ hst => grants_load hs.registers hv hst

theorem ends_bind (hs : s.Pooled t) {name : String} (hname : name ∈ t.scratch) :
    Ends t (Computing t) (Gen.bindTo name) (fun k s' => (Value.reg k).Known s'.registers) s := by
  rw [Gen.bindTo_eq]
  exact ends_allocate hs fun _ hst => grants_bind hs.registers hname hst

theorem ends_nonImmediate (hs : s.Pooled t) (hv : v.Known s.registers) :
    Ends t (Computing t) (Gen.nonImmediate v)
      (fun w s' => w.Known s'.registers ∧ (s'.registers.operand w).isImm = false) s := by
  rw [Gen.nonImmediate_eq]
  exact ends_allocate hs fun _ hst => grants_nonImmediate hs.registers hv hst

theorem ends_intoRegister (hs : s.Pooled t) (hv : v.Known s.registers) :
    Ends t (Computing t) (Gen.intoRegister v)
      (fun k s' => (Value.reg k).Known s'.registers) s := by
  cases v with
  | reg k => exact .pure hs hv
  | imm w => exact ends_load hs hv
  | cell x => exact ends_load hs hv

theorem ends_divide (ht : t.Conventional) {l r : Value} (hs : s.Pooled t)
    (hl : l.Known s.registers) (hr : r.Known s.registers) :
    Ends t (Computing t) (Gen.divide t l r) (fun v s' => v.Known s'.registers) s := by
  refine (ends_bind hs (ht.dividend ▸ ht.pooled)).bind fun result s₁ hg₁ hresult => ?_
  have hmove :
      Computation t (.move (s₁.registers.operand l) (s₁.registers.operand (.reg result))) :=
    .move (hg₁.pooled.registers.operand (hl.mono hg₁.places)) (hg₁.pooled.registers.place hresult)
  refine .operand (.operand (.instr hg₁.pooled ⟨_, rfl, hmove⟩ ?_))
  refine .instr hg₁.pooled ⟨_, rfl, .signExtend⟩ ?_
  refine Ends.bind (ends_nonImmediate ?_ ?_) fun d s₂ hg₂ hd => ?_
  · exact hg₁.pooled
  · exact hr.mono hg₁.places
  refine .operand (.instr hg₂.pooled ⟨_, rfl, .divide (hg₂.pooled.registers.operand hd.1) hd.2⟩ ?_)
  exact .pure hg₂.pooled (hresult.mono hg₂.places)

theorem computation_unaryInstr {op : UnaryOp} {f : Operand → Instr}
    (h : unaryInstr? op = some f) {x : String} (hx : x ∈ t.scratch) :
    Computation t (f (.reg x)) := by
  cases op with
  | neg =>
    cases h
    exact .negate hx
  | not =>
    cases h
    exact .arith trivial hx
  | other _ => cases h

/-- The code of an expression is made of computations, up to where it fails. -/
theorem ends_expr (ht : t.Conventional) : ∀ (e : Expr) {s : Session}, s.Pooled t →
    Ends t (Computing t) (Gen.expr t e) (fun v s' => v.Known s'.registers) s
  | .int _ w, _, hs => .pure hs (show (Value.imm w).Known _ from trivial)
  | .bool _ true, _, hs => .pure hs (show (Value.imm 1).Known _ from trivial)
  | .bool _ false, _, hs => .pure hs (show (Value.imm 0).Known _ from trivial)
  | .var ref, _, hs => (ends_cell hs (some ref)).bind fun x s₁ hg hx => .pure hg.pooled hx
  | .unary _ op x, _, hs => by
    rw [Gen.expr]
    split
    · exact ends_reject hs _
    · rename_i f hop
      refine (ends_expr ht x hs).bind fun v s₁ hg₁ hv => ?_
      refine (ends_intoRegister hg₁.pooled hv).bind fun k s₂ hg₂ hk => ?_
      refine .operand (.instr hg₂.pooled ⟨_, rfl, ?_⟩ (.pure hg₂.pooled hk))
      exact computation_unaryInstr hop (hg₂.pooled.registers.place hk)
  | .binary _ op l r, _, hs => by
    by_cases hop : op = .div
    · subst hop
      refine (ends_expr ht l hs).bind fun v₁ s₁ hg₁ hv₁ => ?_
      refine (ends_expr ht r hg₁.pooled).bind fun v₂ s₂ hg₂ hv₂ => ?_
      exact ends_divide ht hg₂.pooled (hv₁.mono hg₂.places) hv₂
    · rw [Gen.expr]
      · split
        · exact ends_reject hs _
        · rename_i arith harith
          refine (ends_expr ht l hs).bind fun v₁ s₁ hg₁ hv₁ => ?_
          refine (ends_expr ht r hg₁.pooled).bind fun v₂ s₂ hg₂ hv₂ => ?_
          refine (ends_intoRegister hg₂.pooled (hv₁.mono hg₂.places)).bind fun k s₃ hg₃ hk => ?_
          have hcomp : Computation t (.arith arith (s₃.registers.operand v₂)
              (s₃.registers.operand (.reg k))) :=
            .arith (hg₃.pooled.registers.operand (hv₂.mono hg₃.places))
              (hg₃.pooled.registers.place hk)
          refine .operand (.operand (.instr hg₃.pooled ⟨_, rfl, hcomp⟩ ?_))
          exact .pure hg₃.pooled hk
      · exact hop
  | .gap g, _, hs => ends_reject hs _

end Exprs

/-! ## Statements -/

section Stmts

variable {t : Target} {s : Session}

theorem ends_stage {v : Value} (hs : s.Pooled t) (hv : v.Known s.registers) :
    Ends t (Computing t) (Gen.stage v)
      (fun w s' => w.Known s'.registers ∧ (s'.registers.operand w).isMem = false) s := by
  cases v with
  | cell x => exact (ends_load hs hv).bind fun k s₁ hg hk => .pure hg.pooled ⟨hk, rfl⟩
  | imm w => exact .pure hs ⟨trivial, rfl⟩
  | reg k => exact .pure hs ⟨hv, rfl⟩

theorem ends_assign (ht : t.Conventional) (hs : s.Pooled t) (target : Option VarRef)
    (source : Expr) : Ends t (Computing t) (Gen.assign t target source) (fun _ _ => True) s := by
  have htarget : ∀ {s₁ : Session}, s₁.Pooled t →
      Ends t (Computing t) (Gen.assignTarget target) (fun x _ => ∃ k, x = Cells.nameAt k) s₁ := by
    intro s₁ hs₁
    cases target with
    | none => exact ends_reject hs₁ _
    | some ref => exact ends_cell hs₁ (some ref)
  refine (ends_expr ht source hs).bind fun v s₁ hg₁ hv => ?_
  refine (htarget hg₁.pooled).bind fun x s₂ hg₂ hx => ?_
  refine (ends_stage hg₂.pooled (hv.mono hg₂.places)).bind fun w s₃ hg₃ hw => ?_
  obtain ⟨k, rfl⟩ := hx
  exact .operand
    (ends_piece hg₃.pooled rfl ⟨_, rfl, .store (hg₃.pooled.registers.operand hw.1) hw.2⟩)

theorem ends_call {argument : Instr} {format routine : String} (ht : t.Conventional)
    (hs : s.Pooled t) (h : LibraryCall t (callSequence argument format routine)) :
    Ends t (Piece t) (do
      Gen.instr argument
      Gen.libraryCall t "rdi" format routine) (fun _ _ => True) s := by
  unfold Gen.libraryCall
  rw [ht.returned]
  exact ends_piece hs rfl (.call h)

theorem ends_readVar (ht : t.Conventional) (hs : s.Pooled t) (ref : Option VarRef) :
    Ends t (Piece t) (Gen.readVar t ref) (fun _ _ => True) s := by
  unfold Gen.readVar
  rw [ht.arguments]
  refine (ends_cell hs ref).bind fun x s₁ hg hx => ?_
  obtain ⟨k, rfl⟩ := hx
  exact ends_call ht hg.pooled (.read k)

theorem ends_writeExpr (ht : t.Conventional) (hs : s.Pooled t) (e : Expr) :
    Ends t (Piece t) (Gen.writeExpr t e) (fun _ _ => True) s := by
  unfold Gen.writeExpr
  rw [ht.arguments]
  refine (ends_expr ht e hs).pieces.bind fun v s₁ hg hv => ?_
  exact .operand (ends_call ht hg.pooled (.write (hg.pooled.registers.operand hv)))

theorem ends_readVars (ht : t.Conventional) : ∀ (refs : List (Option VarRef)) {s : Session},
    s.Pooled t → Ends t (Piece t) (Gen.readVars t refs) (fun _ _ => True) s
  | [], _, hs => .pure hs trivial
  | ref :: refs, _, hs => (ends_readVar ht hs ref).bind fun _ _ hg _ =>
      ends_readVars ht refs hg.pooled

theorem ends_writeExprs (ht : t.Conventional) : ∀ (es : List Expr) {s : Session},
    s.Pooled t → Ends t (Piece t) (Gen.writeExprs t es) (fun _ _ => True) s
  | [], _, hs => .pure hs trivial
  | e :: es, _, hs => (ends_writeExpr ht hs e).bind fun _ _ hg _ =>
      ends_writeExprs ht es hg.pooled

theorem ends_jumpIfFalse {v : Value} (hs : s.Pooled t) (hv : v.Known s.registers)
    (j : ℕ) : Ends t (Piece t) (Gen.jumpIfFalse v (labelAt j)) (fun _ _ => True) s := by
  refine (ends_nonImmediate hs hv).pieces.bind fun w s₁ hg hw => .operand ?_
  refine .instr hg.pooled (.computation (.compare (hg.pooled.registers.operand hw.1) hw.2)) ?_
  exact ends_piece hg.pooled rfl .out

theorem ends_freeAll (hs : s.Pooled t) :
    Ends t (Piece t) Gen.freeAll (fun _ _ => True) s := by
  have hcode : (s.commit s.registers.freeAll).code = s.code := by simp [Registers.freeAll]
  have hpooled : (s.commit s.registers.freeAll).Pooled t :=
    ⟨⟨hs.registers.pool, hs.registers.places⟩, hs.named, hs.used⟩
  exact ⟨⟨hpooled, Nat.le_refl _, [], hcode.trans (by simp), by simp⟩, trivial⟩

theorem ends_loop (ht : t.Conventional) {pos : Position} {cond : Expr} {body : Option Block}
    (hbody : ∀ {s : Session}, s.Pooled t →
      Ends t (Piece t) (Gen.blockOf t body) (fun _ _ => True) s) (hs : s.Pooled t) :
    Ends t (Piece t) (Gen.stmt t (.loop pos cond body)) (fun _ _ => True) s := by
  rw [Gen.stmt]
  -- The labels are drawn and the first is defined before the test.
  have hhead : Grown t (Piece t) s s.loopHead :=
    ⟨hs, Nat.le_refl _, [[_]], Session.code_push _ _, by simpa using Piece.label⟩
  refine .after hhead rfl ((ends_expr ht cond hhead.pooled).pieces.bind fun v s₁ hg₁ hv => ?_)
  refine (ends_jumpIfFalse hg₁.pooled hv _).bind fun _ s₂ hg₂ _ => ?_
  refine (ends_freeAll hg₂.pooled).bind fun _ s₃ hg₃ _ => ?_
  refine (hbody hg₃.pooled).bind fun _ s₄ hg₄ _ => ?_
  exact .instr hg₄.pooled .back (ends_piece hg₄.pooled rfl .label)

mutual

theorem ends_stmt (ht : t.Conventional) : ∀ (st : Stmt) {s : Session}, s.Pooled t →
    Ends t (Piece t) (Gen.stmt t st) (fun _ _ => True) s
  | .block b, _, hs => by
    rw [Gen.stmt]
    exact ends_block ht b hs
  | .decl _, _, hs => .pure hs trivial
  | .assign _ target source, _, hs => by
    rw [Gen.stmt]
    exact (ends_assign ht hs target source).pieces
  | .read _ refs, _, hs => by
    rw [Gen.stmt]
    exact ends_readVars ht refs hs
  | .write _ es, _, hs => by
    rw [Gen.stmt]
    exact ends_writeExprs ht es hs
  | .loop _ _ (some b), _, hs => ends_loop ht (fun hs => ends_block ht b hs) hs
  | .loop _ _ none, _, hs => ends_loop ht (fun hs => ends_reject hs _) hs
  | .gap _, _, hs => ends_reject hs _

theorem ends_block (ht : t.Conventional) : ∀ (b : Block) {s : Session}, s.Pooled t →
    Ends t (Piece t) (Gen.block t b) (fun _ _ => True) s
  | .mk _ ss, _, hs => (ends_stmts ht ss hs).bind fun _ _ hg _ => ends_freeAll hg.pooled

theorem ends_stmts (ht : t.Conventional) : ∀ (ss : List Stmt) {s : Session},
    s.Pooled t → Ends t (Piece t) (Gen.stmts t ss) (fun _ _ => True) s
  | [], _, hs => .pure hs trivial
  | st :: ss, _, hs => (ends_stmt ht st hs).bind fun _ _ hg _ => ends_stmts ht ss hg.pooled

end

theorem ends_blockOf (ht : t.Conventional) (hs : s.Pooled t) (b : Option Block) :
    Ends t (Piece t) (Gen.blockOf t b) (fun _ _ => True) s := by
  cases b with
  | none => exact ends_reject hs _
  | some b => exact ends_block ht b hs

end Stmts

/-! ## Sessions -/

section Sessions

variable {t : Target} {A : List Line → Prop} {s : Session}

theorem Ends.leaves {α : Type} {x : Gen α} {Q : α → Session → Prop} (h : Ends t A x Q s) :
    Grown t A s (x.leaves s) := by
  unfold Gen.leaves
  cases hrun : x.run s with
  | ok a s' => exact (h.ok hrun).1
  | error e s' =>
    unfold Ends at h
    rwa [hrun] at h

theorem ends_programBody (ht : t.Conventional) (hs : s.Pooled t) (p : Program) :
    Ends t (Piece t) (Gen.programBody t p) (fun _ _ => True) s := by
  have henter : Grown t (Piece t) s (s.pushAll (prologue t)) := .piece hs .enter
  refine .after (y := do
    Gen.blockOf t p.block
    Gen.instr (.pop t.basePointer)
    Gen.instr .ret) henter rfl ?_
  exact (ends_blockOf ht henter.pooled p.block).bind fun _ _ hg _ => ends_piece hg.pooled rfl .leave

theorem ends_dataSection (hs : s.Pooled t) :
    Ends t (Piece t) (Gen.dataSection t) (fun _ _ => True) s := by
  refine ⟨⟨hs, Nat.le_refl _, formatLines t :: s.used.map fun x => [.cell x], ?_, fun p hp => ?_⟩,
    trivial⟩
  · rw [List.flatten_cons, ← List.flatMap_def, ← List.map_eq_flatMap]
    simp [Session.code, Gen.dataLines, formatLines]
  · rcases List.mem_cons.1 hp with rfl | hp
    · exact .formats
    · obtain ⟨x, hx, rfl⟩ := List.mem_map.1 hp
      obtain ⟨k, rfl⟩ := hs.used x hx
      exact .cell

theorem pooled_start (t : Target) : (Session.start t).Pooled t :=
  ⟨⟨rfl, fun _ hx => absurd hx List.not_mem_nil⟩, fun _ hx => absurd hx List.not_mem_nil,
    fun _ hx => absurd hx List.not_mem_nil⟩

/-- A program is generated in a session of its own. -/
theorem grown_program (ht : t.Conventional) (p : Option Program) (s : Session) :
    Grown t (Piece t) (.start t) ((Gen.program t p).leaves s) := by
  have hpooled := pooled_start t
  cases p with
  | none => exact .same hpooled rfl rfl
  | some p =>
    have hrenewed : Grown t (Piece t) (.start t) (s.renewed t) := .same hpooled rfl rfl
    refine hrenewed.trans (Ends.leaves (x := do
      Gen.programBody t p
      Gen.dataSection t
      let s ← get
      Gen.report (.generated s.lines.size s.used.length s.labels)
      return Asm.listingText s.lines.toList) (Q := fun _ _ => True) ?_)
    refine (ends_programBody ht hrenewed.pooled p).bind fun _ s₁ hg₁ _ => ?_
    refine (ends_dataSection hg₁.pooled).bind fun _ s₂ hg₂ _ => ?_
    exact ⟨.same hg₂.pooled rfl rfl, trivial⟩

theorem grown_perform (ht : t.Conventional) {s : Session} (hs : Grown t (Piece t) (.start t) s) :
    ∀ k : Task, Grown t (Piece t) (.start t) ((k.perform t).leaves s)
  | .stmt st => by
    refine hs.trans (Ends.leaves (Q := fun _ _ => True) ?_)
    exact (ends_stmt ht st hs.pooled).bind fun _ _ hg _ => .pure hg.pooled trivial
  | .expr e => by
    refine hs.trans (Ends.leaves (Q := fun _ _ => True) ?_)
    exact (ends_expr ht e hs.pooled).pieces.bind fun _ _ hg _ =>
      .operand (.pure hg.pooled trivial)
  | .program p => grown_program ht p s

/-- The listing after any tasks is made of pieces, by induction on the tasks from the last one. -/
theorem grown_performAll (ht : t.Conventional) (ks : List Task) :
    Grown t (Piece t) (.start t) (Task.performAll t ks) := by
  induction ks using List.reverseRecOn with
  | nil => exact .refl (pooled_start t)
  | append_singleton ks k ih =>
    rw [Task.performAll_append]
    exact grown_perform ht ih k

end Sessions

/-! ## The instructions of a piece -/

/-- The line `n` of a listing belongs to the lines `ls` in it. -/
def Within (code : List Line) (n : ℕ) (ls : List Line) : Prop :=
  ∃ m, m ≤ n ∧ n < m + ls.length ∧ Holds code m ls

theorem exists_within : ∀ {ps : List (List Line)} {n : ℕ} {l : Line}, ps.flatten[n]? = some l →
    ∃ p ∈ ps, l ∈ p ∧ Within ps.flatten n p
  | [], n, l, h => by simp at h
  | p :: ps, n, l, h => by
    rw [List.flatten_cons] at h
    by_cases hn : n < p.length
    · rw [List.getElem?_append_left hn] at h
      refine ⟨p, List.mem_cons_self, List.mem_of_getElem? h, 0, Nat.zero_le n, by omega, ?_⟩
      exact List.prefix_append p ps.flatten
    · have hle : p.length ≤ n := Nat.le_of_not_lt hn
      rw [List.getElem?_append_right hle] at h
      obtain ⟨q, hq, hl, m, hm, hlt, hholds⟩ := exists_within h
      refine ⟨q, List.mem_cons_of_mem p hq, hl, p.length + m, by omega, by omega, ?_⟩
      rw [Holds, List.flatten_cons, List.drop_append, List.drop_eq_nil_of_le (by omega)]
      simpa [Holds] using hholds

/-- The registers that have a role in a piece. In a call they take the format, which is addressed
from the instruction, the other argument and the count of vector registers. -/
inductive Role (t : Target) (ls : List Line) : String → Prop where
  | call {x} : LibraryCall t ls → x ∈ ["rdi", "rsi", "rax", "rip"] → Role t ls x
  | enter : ls = prologue t → Role t ls "rbp"
  | leave : ls = returnLines t → Role t ls "rbp"

structure Fits (t : Target) (ls : List Line) (i : Instr) : Prop where
  shaped : i.wellShaped
  legible : i.Legible
  registers : ∀ x ∈ i.registers, x ∈ t.scratch ∨ Role t ls x

section Pieces

variable {os : Asm.OS} {o : Operand} {i : Instr} {ls : List Line} {x : String}

theorem Role.mem (h : Role (.x86_64 os) ls x) : x ∈ ["rdi", "rsi", "rax", "rip", "rbp"] := by
  cases h with
  | call _ hx => exact List.mem_append_left ["rbp"] hx
  | enter | leave => simp

theorem isName_register (h : x ∈ (Target.x86_64 os).scratch ∨ Role (.x86_64 os) ls x) :
    IsName x := by
  have hnames : (["rax", "rcx", "r8", "r9", "r10", "r11"]
      ++ ["rdi", "rsi", "rax", "rip", "rbp"]).all (Asm.isName ·.toList) := by decide
  have hx : x ∈ ["rax", "rcx", "r8", "r9", "r10", "r11"] ++ ["rdi", "rsi", "rax", "rip", "rbp"] :=
    List.mem_append.2 (h.imp_right Role.mem)
  exact List.all_eq_true.1 hnames x hx

theorem isName_nameAt (k : ℕ) : IsName (Cells.nameAt k) :=
  IsName.numbered (x := "_v") (by decide) (k + 1)

theorem isName_labelAt (j : ℕ) : IsName (labelAt j) :=
  IsName.numbered (x := "L") (by decide) (j + 1)

/-- An operand that may be in a piece, and is not the format of a call. -/
def Admitted (t : Target) (ls : List Line) (o : Operand) : Prop :=
  ProperOperand t o ∨ ∃ x, o = .reg x ∧ Role t ls x

theorem Admitted.register (h : Admitted (.x86_64 os) ls (.reg x)) :
    x ∈ (Target.x86_64 os).scratch ∨ Role (.x86_64 os) ls x := by
  rcases h with h | ⟨y, hy, hrole⟩
  · exact Or.inl h
  · cases hy
    exact Or.inr hrole

theorem Admitted.legible (h : Admitted (.x86_64 os) ls o) : o.Legible := by
  cases o with
  | imm v => trivial
  | reg x => exact isName_register h.register
  | mem x =>
    rcases h with ⟨k, rfl⟩ | ⟨y, hy, -⟩
    · exact isName_nameAt k
    · cases hy

theorem Fits.ofOperands (hshaped : i.wellShaped)
    (hregisters : i.registers = i.operands.filterMap Operand.register?)
    (hoperands : i.operands.Forall (Admitted (.x86_64 os) ls))
    (hlabels : i.labels.Forall IsName) : Fits (.x86_64 os) ls i := by
  refine ⟨hshaped, ⟨hoperands.imp fun _ => Admitted.legible, hlabels⟩, fun x hx => ?_⟩
  rw [List.forall_iff_forall_mem] at hoperands
  rw [hregisters] at hx
  obtain ⟨o, ho, hox⟩ := List.mem_filterMap.1 hx
  cases o with
  | reg y =>
    cases hox
    exact (hoperands _ ho).register
  | _ => cases hox

theorem wellShaped_move_reg (o : Operand) (x : String) : (Instr.move o (.reg x)).wellShaped := by
  simp [Instr.wellShaped, Operand.isMem, Operand.isImm]

theorem Computation.fits (h : Computation (.x86_64 os) i) : Fits (.x86_64 os) ls i := by
  cases h with
  | move ho hr => exact .ofOperands (wellShaped_move_reg _ _) rfl ⟨Or.inl ho, Or.inl hr⟩ trivial
  | @store o k ho hmem =>
    refine .ofOperands (by simp [Instr.wellShaped, hmem, Operand.isImm]) rfl ?_ trivial
    exact ⟨Or.inl ho, Or.inl ⟨k, rfl⟩⟩
  | arith ho hr => exact .ofOperands rfl rfl ⟨Or.inl ho, Or.inl hr⟩ trivial
  | negate hr => exact .ofOperands rfl rfl (Or.inl hr) trivial
  | signExtend => exact .ofOperands rfl rfl trivial trivial
  | divide ho himm => exact .ofOperands (by simp [Instr.wellShaped, himm]) rfl (Or.inl ho) trivial
  | compare ho himm =>
    refine .ofOperands (by simp [Instr.wellShaped, himm]) rfl ?_ trivial
    exact ⟨Or.inl trivial, Or.inl ho⟩

theorem fits_loadAddress {format : String} (h : LibraryCall (.x86_64 os) ls)
    (hformat : IsName format) : Fits (.x86_64 os) ls (.loadAddress format "rdi") := by
  have hrdi : Role (.x86_64 os) ls "rdi" := .call h (by simp)
  have hrip : Role (.x86_64 os) ls "rip" := .call h (by simp)
  refine ⟨rfl, ⟨⟨hformat, isName_register (Or.inr hrdi)⟩, trivial⟩, ?_⟩
  rw [← List.forall_iff_forall_mem]
  exact ⟨Or.inr hrip, Or.inr hrdi⟩

theorem LibraryCall.fits (h : LibraryCall (.x86_64 os) ls) (hi : .instr i ∈ ls) :
    Fits (.x86_64 os) ls i := by
  have hrsi : Admitted (.x86_64 os) ls (.reg "rsi") := Or.inr ⟨_, rfl, .call h (by simp)⟩
  have hrax : Admitted (.x86_64 os) ls (.reg "rax") := Or.inr ⟨_, rfl, .call h (by simp)⟩
  cases id h with
  | read k =>
    simp only [callSequence, List.mem_cons, List.not_mem_nil, or_false, Line.instr.injEq] at hi
    rcases hi with rfl | rfl | rfl | rfl
    · exact .ofOperands rfl rfl hrsi (isName_nameAt k)
    · exact fits_loadAddress h (show IsName "READ" by decide)
    · exact .ofOperands rfl rfl ⟨hrax, hrax⟩ trivial
    · exact .ofOperands rfl rfl trivial (show IsName "scanf" by decide)
  | write ho =>
    simp only [callSequence, List.mem_cons, List.not_mem_nil, or_false, Line.instr.injEq] at hi
    rcases hi with rfl | rfl | rfl | rfl
    · exact .ofOperands (wellShaped_move_reg _ _) rfl ⟨Or.inl ho, hrsi⟩ trivial
    · exact fits_loadAddress h (show IsName "WRITE" by decide)
    · exact .ofOperands rfl rfl ⟨hrax, hrax⟩ trivial
    · exact .ofOperands rfl rfl trivial (show IsName "_printf" by decide)

theorem Piece.fits (h : Piece (.x86_64 os) ls) (hi : .instr i ∈ ls) : Fits (.x86_64 os) ls i := by
  cases h with
  | computation hc =>
    cases List.mem_singleton.1 hi
    exact hc.fits
  | @out j =>
    cases List.mem_singleton.1 hi
    exact .ofOperands rfl rfl trivial (isName_labelAt j)
  | @back j =>
    cases List.mem_singleton.1 hi
    exact .ofOperands rfl rfl trivial (isName_labelAt j)
  | call hc => exact hc.fits hi
  | enter =>
    simp only [prologue, List.mem_cons, List.not_mem_nil, or_false, reduceCtorEq, false_or,
      Line.instr.injEq] at hi
    subst hi
    exact .ofOperands rfl rfl (Or.inr ⟨_, rfl, .enter rfl⟩) trivial
  | leave =>
    simp only [returnLines, List.mem_cons, List.not_mem_nil, or_false, Line.instr.injEq] at hi
    rcases hi with rfl | rfl
    · exact .ofOperands rfl rfl (Or.inr ⟨_, rfl, .leave rfl⟩) trivial
    · exact .ofOperands rfl rfl trivial trivial
  | label => cases List.mem_singleton.1 hi
  | formats => simp [formatLines] at hi
  | cell => cases List.mem_singleton.1 hi

end Pieces

/-- Every instruction of a listing has operands that it can have, after any tasks, also where one of
them failed. The registers in its text are of the pool, or have a role in the call, the entry or the
return that the line belongs to; none is the one that a division overwrites. -/
theorem instructions_legal {os : Asm.OS} {ks : List Task} {n : ℕ} {i : Instr}
    (h : (Task.performAll (.x86_64 os) ks).code[n]? = some (.instr i)) :
    i.Legal ∧ "rdx" ∉ registersNamed i.text
      ∧ ∀ x ∈ registersNamed i.text, x ∈ (Target.x86_64 os).scratch
        ∨ ∃ ls, Within (Task.performAll (.x86_64 os) ks).code n ls ∧ Role (.x86_64 os) ls x := by
  obtain ⟨ps, hps, hpiece⟩ := (grown_performAll (Asm.Target.conventional_x86_64 os) ks).code
  have hcode : (Task.performAll (.x86_64 os) ks).code = ps.flatten := hps
  rw [hcode] at h ⊢
  obtain ⟨ls, hls, hi, hwithin⟩ := exists_within h
  have hfits := (hpiece ls hls).fits hi
  rw [Instr.registersNamed_text hfits.legible.spelt]
  refine ⟨Instr.legal_of_wellShaped hfits.shaped, fun hrdx => ?_, fun x hx => ?_⟩
  · rcases hfits.registers _ hrdx with h | h
    · exact (Asm.Target.conventional_x86_64 os).remainder h
    · exact absurd h.mem (by decide)
  · exact (hfits.registers x hx).imp_right fun hrole => ⟨ls, hwithin, hrole⟩

/-- Writes a quotient, and then something that is not of the language. -/
def brokenWrite : Task :=
  let x : VarRef := ⟨"x", some ⟨[.index 0], "x", .int, ⟨1, 1⟩⟩, ⟨2, 1⟩⟩
  .stmt (.write ⟨2, 1⟩ [.binary ⟨2, 1⟩ .div (.var x) (.int ⟨2, 1⟩ 3), .gap .foreign])

theorem instructions_legal_brokenWrite :
    (Task.performAll (.x86_64 .linux) [brokenWrite]).code.length = 8
      ∧ (Task.performAll (.x86_64 .linux) [brokenWrite]).code[4]?
        = some (.instr (.move (.reg "rax") (.reg "rsi")))
      ∧ (Instr.move (.reg "rax") (.reg "rsi")).Legal
      ∧ ∀ x ∈ registersNamed (Instr.move (.reg "rax") (.reg "rsi")).text,
        x ∈ (Target.x86_64 .linux).scratch
          ∨ ∃ ls, Within (Task.performAll (.x86_64 .linux) [brokenWrite]).code 4 ls
            ∧ Role (.x86_64 .linux) ls x := by
  have h : (Task.performAll (.x86_64 .linux) [brokenWrite]).code[4]?
      = some (.instr (.move (.reg "rax") (.reg "rsi"))) := by decide +kernel
  obtain ⟨hlegal, -, hregisters⟩ := instructions_legal h
  exact ⟨by decide +kernel, h, hlegal, hregisters⟩

end WhileAsm.Lowering
