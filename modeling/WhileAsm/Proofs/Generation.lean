import Mathlib.Order.Nat
import WhileAsm.Lowering.Program
import WhileAsm.Proofs.RegisterFile

/-!
# What a step of generation does to the session

A step that consists of others ends well exactly if they all do (`run_bind_ok`). The elementary
steps are functions of the session (`run_instr`, `run_cell`, `run_drawLabel_bind`, …), and each only
adds to it: lines are appended, cells get names at the end of the list, and a label that is defined
was drawn before (`Extends`). Code without labels, such as that of an expression, is a list of
instructions (`Emits`).

A request to the register file is a function of the file (`fresh_eq`, `bindTo_eq`, `load_eq`,
`nonImmediate_eq`). In particular one that finds no free register leaves the session as it was,
although it looks through the pool step by step.
-/

namespace WhileAsm.Lowering

open Asm (Instr Line Target)

/-! ## Names -/

theorem toString_injective {m n : Nat} (h : toString m = toString n) : m = n := by
  have hd : Nat.toDigits 10 m = Nat.toDigits 10 n := by
    simpa using congrArg String.toList h
  have := congrArg (Nat.ofDigitChars 10 · 0) hd
  simpa using this

theorem labelAt_injective {m n : Nat} (h : labelAt m = labelAt n) : m = n := by
  have := toString_injective ((String.append_right_inj "L").1 h)
  omega

/-- The name of the cell with an index. -/
def Cells.nameAt (i : Nat) : String := "_v" ++ toString (i + 1)

theorem Cells.nameAt_injective {m n : Nat} (h : nameAt m = nameAt n) : m = n := by
  have := toString_injective ((String.append_right_inj "_v").1 h)
  omega

namespace CellNames

/-- Different declarations have different cells. -/
def Distinct (c : CellNames) : Prop :=
  ∀ {p q : Path} {name : String}, c.find? p = some name → c.find? q = some name → p = q

/-- A cell keeps its name when others get theirs. -/
theorem find?_of_prefix {c c' : CellNames} (h : c <+: c') {p : Path} {name : String}
    (hp : c.find? p = some name) : c'.find? p = some name := by
  obtain ⟨rest, rfl⟩ := h
  have hp : c.lookup p = some name := hp
  simp [find?, List.lookup_append, hp]

theorem mem_names_of_find? {c : CellNames} {p : Path} {name : String}
    (h : c.find? p = some name) : name ∈ c.names := by
  obtain ⟨front, back, rfl, -⟩ := List.lookup_eq_some_iff.1 h
  simp [names]

theorem names_prefix {c c' : CellNames} (h : c <+: c') : c.names <+: c'.names :=
  List.IsPrefix.map _ h

end CellNames

/-- A declaration that has a name keeps it, and any other gets the next one. -/
theorem NameTable.nameFor_cases (t : NameTable) (p : Path) :
    (∃ x, t.entries.find? p = some x ∧ t.nameFor p = (x, t))
      ∨ t.entries.find? p = none ∧ t.nameFor p
        = (Cells.nameAt t.lastId, ⟨t.entries ++ [(p, Cells.nameAt t.lastId)], t.lastId + 1⟩) := by
  unfold nameFor
  cases h : t.entries.find? p with
  | some x => exact Or.inl ⟨x, rfl, rfl⟩
  | none => exact Or.inr ⟨rfl, rfl⟩

theorem NameTable.prefix_nameFor (t : NameTable) (p : Path) :
    t.entries <+: (t.nameFor p).2.entries := by
  rcases t.nameFor_cases p with ⟨x, -, h⟩ | ⟨-, h⟩
  · exact ⟨[], by rw [h, List.append_nil]⟩
  · exact ⟨[(p, Cells.nameAt t.lastId)], by rw [h]⟩

/-! ## Steps as functions of the session -/

/-- The lines of the listing so far. -/
def Session.code (s : Session) : List Line := s.lines.toList

/-- The session with one more line. -/
def Session.push (s : Session) (l : Line) : Session := { s with lines := s.lines.push l }

@[simp] theorem Session.code_push (s : Session) (l : Line) : (s.push l).code = s.code ++ [l] := by
  simp [push, code]

/-- The session at the test of a loop: its labels are drawn, and the first is defined. -/
def Session.loopHead (s : Session) : Session :=
  { s with labels := s.labels + 2 }.push (.label (labelAt s.labels))

/-- The session after a step on its register file. -/
def Session.commit {α : Type} (s : Session) (step : Step α) : Session :=
  { s with
    registers := step.registers
    lines := s.lines ++ step.instrs.map Line.instr
    events := s.events ++ step.events }

@[simp] theorem Session.code_commit {α : Type} (s : Session) (step : Step α) :
    (s.commit step).code = s.code ++ step.instrs.map .instr := by
  simp [commit, code]

/-- The session after a name was noted for the data section. -/
def Session.noted (s : Session) (variableName storage : String) : Session :=
  if storage ∈ s.usedSet then s
  else { s with
    usedSet := storage :: s.usedSet
    used := s.used ++ [storage]
    events := s.events.push (.named variableName storage) }

/-- The session after a declaration was referred to. -/
def Session.refer (s : Session) (variableName : String) (place : Path) : Session :=
  { s with names := (s.names.nameFor place).2 }.noted variableName (s.names.nameFor place).1

section Refer

variable (s : Session) (n : String) (p : Path)

@[simp] theorem Session.names_refer : (s.refer n p).names = (s.names.nameFor p).2 := by
  unfold refer noted
  split <;> rfl

@[simp] theorem Session.registers_refer : (s.refer n p).registers = s.registers := by
  unfold refer noted
  split <;> rfl

@[simp] theorem Session.labels_refer : (s.refer n p).labels = s.labels := by
  unfold refer noted
  split <;> rfl

@[simp] theorem Session.lines_refer : (s.refer n p).lines = s.lines := by
  unfold refer noted
  split <;> rfl

theorem Session.code_refer : (s.refer n p).code = s.code :=
  congrArg Array.toList (s.lines_refer n p)

end Refer

namespace Gen

variable {α β : Type} {s s' : Session}

theorem run_bind_ok {x : Gen α} {f : α → Gen β} {b : β} :
    (x >>= f).run s = .ok b s' ↔ ∃ a m, x.run s = .ok a m ∧ (f a).run m = .ok b s' := by
  rw [EStateM.run_bind]
  cases x.run s with
  | ok a m =>
    refine ⟨fun h => ⟨a, m, rfl, h⟩, ?_⟩
    rintro ⟨_, _, hx, h⟩
    cases hx
    exact h
  | error e m => simp

@[simp] theorem run_instr (i : Instr) : (instr i).run s = .ok () (s.push (.instr i)) := rfl

/-! Steps that always end well are followed without a case split. -/

@[simp] theorem run_line_bind (l : Line) (f : Unit → Gen β) :
    (line l >>= f).run s = (f ()).run (s.push l) := rfl

@[simp] theorem run_instr_bind (i : Instr) (f : Unit → Gen β) :
    (instr i >>= f).run s = (f ()).run (s.push (.instr i)) := rfl

@[simp] theorem run_report_bind (e : Journal.Event) (f : Unit → Gen β) :
    (report e >>= f).run s = (f ()).run { s with events := s.events.push e } := rfl

@[simp] theorem run_operand_bind (v : Value) (f : Asm.Operand → Gen β) :
    (operand v >>= f).run s = (f (s.registers.operand v)).run s := rfl

@[simp] theorem run_drawLabel_bind (f : String → Gen β) :
    (drawLabel >>= f).run s = (f (labelAt s.labels)).run { s with labels := s.labels + 1 } := rfl

@[simp] theorem run_freeAll_bind (f : Unit → Gen β) :
    (freeAll >>= f).run s = (f ()).run (s.commit s.registers.freeAll) := rfl

/-- Takes a step on the register file that may find no free register. Then the session stays as it
is. -/
def allocate (step : Registers → Except Exhausted (Step α)) : Gen α := fun s =>
  match step s.registers with
  | .ok st => .ok st.result (s.commit st)
  | .error e => .error (.exhausted e) s

theorem run_allocate (step : Registers → Except Exhausted (Step α)) :
    (allocate step).run s = match step s.registers with
      | .ok st => .ok st.result (s.commit st)
      | .error e => .error (.exhausted e) s :=
  rfl

theorem map_allocate (step : Registers → Except Exhausted (Step α)) (f : α → β) :
    (do return f (← allocate step))
      = allocate fun r => (step r).map fun st => { st with result := f st.result } := by
  funext s
  change (allocate step >>= fun a => pure (f a)).run s = _
  rw [EStateM.run_bind, run_allocate, allocate]
  cases step s.registers with
  | ok st => rfl
  | error e => rfl

theorem run_allocate_ok {step : Registers → Except Exhausted (Step α)} {a : α}
    (h : (allocate step).run s = .ok a s') :
    ∃ st, step s.registers = .ok st ∧ a = st.result ∧ s' = s.commit st := by
  rw [run_allocate] at h
  split at h
  · rename_i st hst
    cases h
    exact ⟨st, hst, rfl, rfl⟩
  · cases h

/-- The session that a step leaves, whether it ends well or fails. -/
def leaves (x : Gen α) (s : Session) : Session :=
  match x.run s with
  | .ok _ s' => s'
  | .error _ s' => s'

theorem run_cell (n : String) (d : Decl) (pos : Position) :
    (cell (some ⟨n, some d, pos⟩)).run s = .ok (s.names.nameFor d.place).1 (s.refer n d.place) := by
  have hrun : (cell (some ⟨n, some d, pos⟩)).run s = (do
      use n (s.names.nameFor d.place).1
      return (s.names.nameFor d.place).1).run { s with names := (s.names.nameFor d.place).2 } := rfl
  rw [hrun, use, EStateM.run_bind, EStateM.run_bind, EStateM.run_get, Session.refer, Session.noted]
  dsimp only
  split_ifs
  · rfl
  · rfl

/-- A reference that has a cell is resolved, and its declaration has that cell from then on. -/
theorem run_cell_ok {ref : Option VarRef} {name : String} (h : (cell ref).run s = .ok name s') :
    ∃ n d pos, ref = some ⟨n, some d, pos⟩ ∧ s'.cells.find? d.place = some name
      ∧ s.cells <+: s'.cells ∧ s'.code = s.code ∧ s'.labels = s.labels
      ∧ s'.registers = s.registers := by
  rcases ref with _ | ⟨n, _ | d, pos⟩
  · cases h
  · cases h
  · rw [run_cell] at h
    cases h
    refine ⟨n, d, pos, rfl, ?_, ?_, s.code_refer n d.place, by simp, by simp⟩
    · rw [Session.cells, Session.names_refer]
      exact s.names.find?_nameFor d.place
    · rw [Session.cells, Session.cells, Session.names_refer]
      exact s.names.prefix_nameFor d.place

/-! ## Requests as functions of the register file -/

/-- The search of the pool finds its first free register, or leaves the session as it was. -/
theorem run_takeFree (take : String → Gen α) (names : List String) :
    (takeFree take names).run s
      = match names.find? fun name => (s.registers.occupant name).isNone with
        | some name => (take name).run s
        | none => .error (.exhausted ⟨s.registers.pool.length, none⟩) s := by
  induction names with
  | nil => rfl
  | cons name names ih =>
    rw [takeFree, EStateM.run_bind, EStateM.run_get]
    dsimp only
    cases h : s.registers.occupant name with
    | none => simp [h]
    | some k => simpa [h] using ih

theorem run_assignFree (take : String → Gen α) :
    (assignFree take).run s = match s.registers.free? with
      | some name => (take name).run s
      | none => .error (.exhausted ⟨s.registers.pool.length, none⟩) s :=
  run_takeFree take s.registers.pool

/-- A new value in a register is reported, and takes no instruction. -/
theorem run_occupy (name : String) :
    (occupy name).run s = .ok (s.registers.occupy name).1
      (s.commit ⟨(), (s.registers.occupy name).2, [], [.bound name]⟩) :=
  rfl

theorem fresh_eq : fresh = allocate Registers.fresh := by
  funext s
  change fresh.run s = (allocate Registers.fresh).run s
  rw [fresh, run_assignFree, run_allocate, Registers.fresh]
  cases s.registers.free? with
  | none => rfl
  | some name => exact run_occupy name

theorem run_bindTo_of_free {name : String} (h : s.registers.occupant name = none) :
    (bindTo name).run s = (occupy name).run s := by
  rw [bindTo, EStateM.run_bind, EStateM.run_get]
  dsimp only
  rw [h]

/-- The value that is in a register is moved to a free one, or the session stays as it was. -/
theorem run_bindTo_of_occupied {name : String} {old : Handle}
    (h : s.registers.occupant name = some old) :
    (bindTo name).run s = match s.registers.free? with
      | some other => (occupy name).run
        (s.commit ⟨(), s.registers.relocate old other, [.move (.reg name) (.reg other)],
          [.bound other, .relocated name other]⟩)
      | none => .error (.exhausted ⟨s.registers.pool.length, some name⟩) s := by
  have hrun : (bindTo name).run s = (do
      let other ← EStateM.adaptExcept (leaving name) (assignFree (relocate old))
      instr (.move (.reg name) (.reg other))
      report (.relocated name other)
      occupy name).run s := by
    rw [bindTo, EStateM.run_bind, EStateM.run_get]
    dsimp only
    rw [h]
  have hadapt : (EStateM.adaptExcept (leaving name) (assignFree (relocate old))).run s
      = match s.registers.free? with
        | some other => .ok other { s with
            registers := s.registers.relocate old other
            events := s.events.push (.bound other) }
        | none => .error (.exhausted ⟨s.registers.pool.length, some name⟩) s := by
    have hassign := run_assignFree (s := s) (relocate old)
    unfold EStateM.run EStateM.adaptExcept at *
    rw [hassign]
    cases s.registers.free? with
    | none => rfl
    | some other => rfl
  rw [hrun, EStateM.run_bind, hadapt]
  cases s.registers.free? with
  | none => rfl
  | some other =>
    dsimp only
    rw [run_instr_bind, run_report_bind]
    rfl

theorem bindTo_eq (name : String) : bindTo name = allocate (·.bind name) := by
  funext s
  change (bindTo name).run s = (allocate (·.bind name)).run s
  rw [run_allocate, Registers.bind]
  cases h : s.registers.occupant name with
  | none =>
    rw [run_bindTo_of_free h]
    exact run_occupy name
  | some old =>
    rw [run_bindTo_of_occupied h]
    cases s.registers.free? with
    | none => rfl
    | some other =>
      dsimp only
      rw [run_occupy]
      simp [Session.commit]

theorem load_eq (v : Value) : load v = allocate (·.load v) := by
  funext s
  change (load v).run s = (allocate (·.load v)).run s
  rw [load, EStateM.run_bind, fresh, run_assignFree, run_allocate, Registers.load, Registers.fresh]
  cases s.registers.free? with
  | none => rfl
  | some name =>
    dsimp only
    rw [run_occupy]
    dsimp only
    rw [run_operand_bind, run_operand_bind, run_instr_bind]
    rfl

theorem nonImmediate_eq (v : Value) : nonImmediate v = allocate (·.nonImmediate v) := by
  funext s
  change (nonImmediate v).run s = (allocate (·.nonImmediate v)).run s
  rw [run_allocate]
  cases v with
  | imm w =>
    rw [nonImmediate, load_eq, EStateM.run_bind, run_allocate, Registers.nonImmediate]
    cases s.registers.load (.imm w) with
    | error e => rfl
    | ok st => rfl
  | cell x => simp [nonImmediate, Registers.nonImmediate, Session.commit]
  | reg h => simp [nonImmediate, Registers.nonImmediate, Session.commit]

theorem run_bindTo_ok {name : String} {k : Handle} (h : (bindTo name).run s = .ok k s') :
    ∃ st, s.registers.bind name = .ok st ∧ k = st.result ∧ s' = s.commit st :=
  run_allocate_ok (bindTo_eq name ▸ h)

theorem run_load_ok {v : Value} {k : Handle} (h : (load v).run s = .ok k s') :
    ∃ st, s.registers.load v = .ok st ∧ k = st.result ∧ s' = s.commit st :=
  run_allocate_ok (load_eq v ▸ h)

theorem run_nonImmediate_ok {v w : Value} (h : (nonImmediate v).run s = .ok w s') :
    ∃ st, s.registers.nonImmediate v = .ok st ∧ w = st.result ∧ s' = s.commit st :=
  run_allocate_ok (nonImmediate_eq v ▸ h)

end Gen

/-! ## Sessions that grow -/

/-- A session goes on by appending: new names, new labels, and lines that define no label but new
ones. -/
structure Extends (s s' : Session) : Prop where
  labels : s.labels ≤ s'.labels
  cells : s.cells <+: s'.cells
  code : ∃ ls, s'.code = s.code ++ ls
    ∧ ∀ name, .label name ∈ ls → ∃ j, s.labels ≤ j ∧ j < s'.labels ∧ name = labelAt j

theorem Extends.refl (s : Session) : Extends s s :=
  ⟨Nat.le_refl _, List.prefix_rfl, [], by simp, by simp⟩

theorem Extends.trans {s s' s'' : Session} (h : Extends s s') (h' : Extends s' s'') :
    Extends s s'' := by
  obtain ⟨ls, hls, hlabels⟩ := h.code
  obtain ⟨ms, hms, hlabels'⟩ := h'.code
  refine ⟨h.labels.trans h'.labels, h.cells.trans h'.cells, ls ++ ms, ?_, ?_⟩
  · rw [hms, hls, List.append_assoc]
  · intro name hname
    rcases List.mem_append.1 hname with hn | hn
    · obtain ⟨j, h1, h2, rfl⟩ := hlabels name hn
      exact ⟨j, h1, h2.trans_le h'.labels, rfl⟩
    · obtain ⟨j, h1, h2, rfl⟩ := hlabels' name hn
      exact ⟨j, h.labels.trans h1, h2, rfl⟩

theorem Extends.code_prefix {s s' : Session} (h : Extends s s') : s.code <+: s'.code := by
  obtain ⟨ls, hls, -⟩ := h.code
  exact ⟨ls, hls.symm⟩

/-- A session goes on by instructions alone. -/
structure Emits (s s' : Session) (is : List Instr) : Prop where
  labels : s'.labels = s.labels
  cells : s.cells <+: s'.cells
  code : s'.code = s.code ++ is.map .instr

namespace Emits

variable {s s' s'' : Session} {is js : List Instr}

theorem refl (s : Session) : Emits s s [] := ⟨rfl, List.prefix_rfl, by simp⟩

theorem trans (h : Emits s s' is) (h' : Emits s' s'' js) : Emits s s'' (is ++ js) :=
  ⟨h'.labels.trans h.labels, h.cells.trans h'.cells, by rw [h'.code, h.code]; simp⟩

theorem toExtends (h : Emits s s' is) : Extends s s' :=
  ⟨h.labels.ge, h.cells, _, h.code, by simp⟩

theorem commit {α : Type} (s : Session) (step : Step α) :
    Emits s (s.commit step) step.instrs :=
  ⟨rfl, List.prefix_rfl, s.code_commit step⟩

theorem push (s : Session) (i : Instr) : Emits s (s.push (.instr i)) [i] :=
  ⟨rfl, List.prefix_rfl, s.code_push _⟩

end Emits

end WhileAsm.Lowering
