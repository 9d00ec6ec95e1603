import WhileAsm.Lowering.Registers
import WhileAsm.Proofs.Machine

/-!
# Values stay where the register file says

A request to the register file comes to a step on it: a function of the file that says what the file
is afterwards, which instructions the request takes, and what it reports.

A register file is sound (`Sound`) if each register in use is one of the pool and holds a value
that is said to be there. A value is live (`Live`) while its register holds it. Each step on a
sound file leaves a sound file in which every live value is live (`Evolves`), and the instructions
that the step takes carry every live value to its place, with all else unchanged (`Carried`): so
for a new value (`fresh_spec`), for a value forced into a named register, whose occupant has to
leave (`bind_spec`), and for a value moved into a register (`load_spec`).
-/

namespace WhileAsm.Lowering

open Asm (Cpu Platform Target execAll)

namespace Registers

/-! ## Requests as functions of the file -/

/-- The first register of the pool that is not in use. -/
def free? (r : Registers) : Option String := r.pool.find? fun name => (r.occupant name).isNone

/-- There is no free register exactly if every register of the pool holds a value. -/
theorem free?_eq_none_iff {r : Registers} :
    r.free? = none ↔ ∀ name ∈ r.pool, (r.occupant name).isSome := by
  simp [free?, Option.isSome_iff_ne_none]

/-- A new value in the first free register. -/
def fresh (r : Registers) : Except Exhausted (Step Handle) :=
  match r.free? with
  | none => .error ⟨r.pool.length, none⟩
  | some name =>
    let (h, r) := r.occupy name
    .ok { result := h, registers := r, events := [.bound name] }

/-- A new value in the named register. A value that is there moves to a free one first. -/
def bind (r : Registers) (name : String) : Except Exhausted (Step Handle) :=
  match r.occupant name with
  | none =>
    let (h, r) := r.occupy name
    .ok { result := h, registers := r, events := [.bound name] }
  | some old =>
    match r.free? with
    | none => .error ⟨r.pool.length, some name⟩
    | some other =>
      let (h, r) := (r.relocate old other).occupy name
      .ok { result := h
            registers := r
            instrs := [.move (.reg name) (.reg other)]
            events := [.bound other, .relocated name other, .bound name] }

/-- A value moved into a fresh register. -/
def load (r : Registers) (v : Value) : Except Exhausted (Step Handle) := do
  let s ← r.fresh
  return { s with instrs := [.move (s.registers.operand v) (s.registers.operand (.reg s.result))] }

/-- A value that is no constant: a constant is moved into a fresh register. -/
def nonImmediate (r : Registers) (v : Value) : Except Exhausted (Step Value) :=
  match v with
  | .imm _ => do
    let s ← r.load v
    return { s with result := .reg s.result }
  | _ => .ok { result := v, registers := r }

/-! ## Sound files -/

/-- The register that a value is said to be in holds it. -/
def Live (r : Registers) (h : Handle) : Prop := r.occupant (r.place h) = some h

/-- Every register in use holds a value that is said to be there. -/
structure Consistent (r : Registers) : Prop where
  known : ∀ {name h}, r.occupant name = some h → h.number < r.places.length
  placed : ∀ {name h}, r.occupant name = some h → r.place h = name

/-- The registers in use are registers of the pool. -/
structure Sound (r : Registers) : Prop extends r.Consistent where
  pooled : ∀ {name h}, r.occupant name = some h → name ∈ r.pool

theorem sound_ofPool (pool : List String) : (ofPool pool).Sound where
  known h := by simp [occupant, ofPool] at h
  placed h := by simp [occupant, ofPool] at h
  pooled h := by simp [occupant, ofPool] at h

theorem sound_freeAll (r : Registers) : r.freeAll.registers.Sound where
  known h := by simp [occupant, freeAll] at h
  placed h := by simp [occupant, freeAll] at h
  pooled h := by simp [occupant, freeAll] at h

/-- Two live values are in different registers. -/
theorem Live.eq_of_place {r : Registers} {h k : Handle} (hh : r.Live h) (hk : r.Live k)
    (hp : r.place h = r.place k) : h = k := by
  unfold Live at hh hk
  rw [hp, hk] at hh
  exact (Option.some.inj hh).symm

theorem Consistent.live {r : Registers} (hr : r.Consistent) {name : String} {h : Handle}
    (ho : r.occupant name = some h) : r.Live h := by
  rw [Live, hr.placed ho]
  exact ho

theorem Live.lt {r : Registers} (hr : r.Consistent) {h : Handle} (hh : r.Live h) :
    h.number < r.places.length := hr.known hh

theorem not_live_new {r : Registers} (hr : r.Consistent) : ¬ r.Live ⟨r.places.length⟩ := fun h =>
  Nat.lt_irrefl _ (h.lt hr)

/-! ## What the steps do to the file -/

theorem occupant_occupy (r : Registers) (name x : String) :
    (r.occupy name).2.occupant x
      = if x = name then some ⟨r.places.length⟩ else r.occupant x := by
  split_ifs with hx
  · subst hx
    exact occupant_hold_self _ _ _
  · exact occupant_hold_of_ne hx

theorem occupant_relocate (r : Registers) (h : Handle) (name x : String) :
    (r.relocate h name).occupant x = if x = name then some h else r.occupant x := by
  split_ifs with hx
  · subst hx
    exact occupant_hold_self _ _ _
  · exact occupant_hold_of_ne hx

theorem place_occupy_new (r : Registers) (name : String) :
    (r.occupy name).2.place ⟨r.places.length⟩ = name := by
  simp [occupy, adopt, hold, place]

theorem place_occupy_of_lt {r : Registers} {name : String} {h : Handle}
    (hh : h.number < r.places.length) : (r.occupy name).2.place h = r.place h := by
  simp [occupy, adopt, hold, place, List.getElem?_append_left hh]

theorem place_relocate_self {r : Registers} {name : String} {h : Handle}
    (hh : h.number < r.places.length) : (r.relocate h name).place h = name := by
  simp [relocate, hold, place, hh]

theorem place_relocate_of_ne {r : Registers} {name : String} {h k : Handle} (hne : k ≠ h) :
    (r.relocate h name).place k = r.place k := by
  have hn : h.number ≠ k.number := by
    intro he
    apply hne
    cases h
    cases k
    simp_all
  simp [relocate, hold, place, List.getElem?_set_ne hn]

theorem length_places_relocate (r : Registers) (h : Handle) (name : String) :
    (r.relocate h name).places.length = r.places.length := by
  simp [relocate, hold]

/-- The free register is one of the pool and not in use. -/
theorem free?_eq_some {r : Registers} {name : String} (h : r.free? = some name) :
    name ∈ r.pool ∧ r.occupant name = none := by
  refine ⟨List.mem_of_find?_eq_some h, ?_⟩
  simpa using List.find?_some h

/-- A step made of another ends well only if that one does. -/
theorem map_eq_ok {α β : Type} {x : Except Exhausted α} {f : α → β} {b : β}
    (h : x.map f = .ok b) : ∃ a, x = .ok a ∧ f a = b := by
  cases x with
  | error e => cases h
  | ok a => exact ⟨a, rfl, Except.ok.inj h⟩

/-- The file after a step: it is sound, and what was live still is. -/
structure Evolves (r r' : Registers) : Prop where
  sound : r'.Sound
  pool : r'.pool = r.pool
  live : ∀ {h}, r.Live h → r'.Live h

theorem Evolves.refl {r : Registers} (h : r.Sound) : Evolves r r := ⟨h, rfl, id⟩

theorem Evolves.trans {r r' r'' : Registers} (h : Evolves r r') (h' : Evolves r' r'') :
    Evolves r r'' :=
  ⟨h'.sound, h'.pool.trans h.pool, fun hl => h'.live (h.live hl)⟩

theorem length_places_occupy (r : Registers) (name : String) :
    (r.occupy name).2.places.length = r.places.length + 1 := by
  simp [occupy, adopt, hold]

/-- A register takes a new value, whatever it held before. -/
theorem Consistent.occupy {r : Registers} (hr : r.Consistent) {name : String} :
    (r.occupy name).2.Consistent := by
  refine ⟨?_, ?_⟩
  · intro x h hx
    rw [occupant_occupy] at hx
    rw [length_places_occupy]
    split_ifs at hx
    · cases hx
      exact Nat.lt_succ_self _
    · exact (hr.known hx).trans (Nat.lt_succ_self _)
  · intro x h hx
    rw [occupant_occupy] at hx
    split_ifs at hx with hxn
    · cases hx
      rw [place_occupy_new, hxn]
    · rw [place_occupy_of_lt (hr.known hx), hr.placed hx]

/-- What is live stays so when a register that is not in use takes a new value. -/
theorem Live.occupy {r : Registers} (hr : r.Consistent) {name : String}
    (hn : r.occupant name = none) {h : Handle} (hl : r.Live h) : (r.occupy name).2.Live h := by
  have hne : r.place h ≠ name := by
    intro he
    rw [Live, he, hn] at hl
    cases hl
  rw [Live, place_occupy_of_lt (hl.lt hr), occupant_occupy, if_neg hne]
  exact hl

theorem evolves_occupy {r : Registers} (hr : r.Sound) {name : String} (hp : name ∈ r.pool)
    (hn : r.occupant name = none) : Evolves r (r.occupy name).2 := by
  refine ⟨⟨hr.occupy, ?_⟩, rfl, Live.occupy hr.toConsistent hn⟩
  intro x h hx
  rw [occupant_occupy] at hx
  split_ifs at hx with hxn
  · exact hxn ▸ hp
  · exact hr.pooled hx

theorem live_occupy_new (r : Registers) (name : String) :
    (r.occupy name).2.Live ⟨r.places.length⟩ := by
  rw [Live, place_occupy_new, occupant_occupy, if_pos rfl]

section Vacate

variable {r : Registers} {name other : String} {old : Handle}

theorem place_vacate_of_ne {h : Handle} (hh : h.number < r.places.length) (hne : h ≠ old) :
    ((r.relocate old other).occupy name).2.place h = r.place h := by
  rw [place_occupy_of_lt (by rwa [length_places_relocate]), place_relocate_of_ne hne]

theorem place_vacate_self (hh : old.number < r.places.length) :
    ((r.relocate old other).occupy name).2.place old = other := by
  rw [place_occupy_of_lt (by rwa [length_places_relocate]), place_relocate_self hh]

theorem occupant_vacate (x : String) :
    ((r.relocate old other).occupy name).2.occupant x
      = if x = name then some ⟨r.places.length⟩
        else if x = other then some old else r.occupant x := by
  rw [occupant_occupy, length_places_relocate, occupant_relocate]

/-- The occupant of a register leaves it for another one, and a new value takes its place. -/
theorem Consistent.vacate (hr : r.Consistent) (ho : r.occupant name = some old) :
    ((r.relocate old other).occupy name).2.Consistent := by
  refine ⟨?_, ?_⟩
  · intro x h hx
    rw [occupant_vacate] at hx
    rw [length_places_occupy, length_places_relocate]
    split_ifs at hx
    · cases hx
      exact Nat.lt_succ_self _
    · cases hx
      exact (hr.known ho).trans (Nat.lt_succ_self _)
    · exact (hr.known hx).trans (Nat.lt_succ_self _)
  · intro x h hx
    rw [occupant_vacate] at hx
    split_ifs at hx with hxn hxo
    · cases hx
      rw [← length_places_relocate r old other, place_occupy_new, hxn]
    · cases hx
      rw [place_vacate_self (hr.known ho), hxo]
    · have hho : h ≠ old := by
        rintro rfl
        exact hxn ((hr.placed hx).symm.trans (hr.placed ho))
      rw [place_vacate_of_ne (hr.known hx) hho, hr.placed hx]

/-- What is live stays so when the occupant of a register leaves it for one that is not in use. -/
theorem Live.vacate (hr : r.Consistent) (ho : r.occupant name = some old)
    (hnone : r.occupant other = none) {h : Handle} (hl : r.Live h) :
    ((r.relocate old other).occupy name).2.Live h := by
  have hne : other ≠ name := by
    rintro rfl
    rw [hnone] at ho
    cases ho
  by_cases hho : h = old
  · subst hho
    rw [Live, place_vacate_self (hr.known ho), occupant_vacate, if_neg hne, if_pos rfl]
  · have h1 : r.place h ≠ name := by
      intro he
      rw [Live, he, ho] at hl
      exact hho (Option.some.inj hl).symm
    have h2 : r.place h ≠ other := by
      intro he
      rw [Live, he, hnone] at hl
      cases hl
    rw [Live, place_vacate_of_ne (hl.lt hr) hho, occupant_vacate, if_neg h1, if_neg h2]
    exact hl

theorem evolves_vacate (hr : r.Sound) (ho : r.occupant name = some old)
    (hf : r.free? = some other) : Evolves r ((r.relocate old other).occupy name).2 := by
  obtain ⟨hpool, hnone⟩ := free?_eq_some hf
  refine ⟨⟨hr.vacate ho, ?_⟩, rfl, Live.vacate hr.toConsistent ho hnone⟩
  intro x h hx
  rw [occupant_vacate] at hx
  split_ifs at hx with hxn hxo
  · rw [hxn]
    exact hr.pooled ho
  · exact hxo ▸ hpool
  · exact hr.pooled hx

end Vacate

end Registers

/-- A value that is in no register, or whose register holds it. -/
def Value.Live (r : Registers) : Value → Prop
  | .reg h => r.Live h
  | _ => True

/-- A value that belongs to nobody else: it has come into its register on the way from `r`. -/
def Value.Own (r r' : Registers) : Value → Prop
  | .reg h => r'.Live h ∧ ¬ r.Live h
  | _ => True

theorem Value.Own.live {r r' : Registers} {v : Value} (h : v.Own r r') : v.Live r' := by
  cases v with
  | reg h' => exact h.1
  | _ => trivial

theorem Value.Live.evolves {r r' : Registers} {v : Value} (h : v.Live r)
    (he : r.Evolves r') : v.Live r' := by
  cases v with
  | reg h' => exact he.live h
  | _ => trivial

theorem Value.Own.evolves {r r' r'' : Registers} {v : Value} (h : v.Own r r')
    (he : r'.Evolves r'') : v.Own r r'' := by
  cases v with
  | reg k => exact ⟨he.live h.1, h.2⟩
  | _ => trivial

theorem Value.Own.before {r r' r'' : Registers} {v : Value} (h : v.Own r' r'')
    (he : r.Evolves r') : v.Own r r'' := by
  cases v with
  | reg k => exact ⟨h.1, fun hk => h.2 (he.live hk)⟩
  | _ => trivial

/-- Code that leads from one file to another moves live values and changes nothing else that can be
seen. -/
structure Carried (r r' : Registers) (c c' : Cpu) : Prop where
  cells : c'.cells = c.cells
  stack : c'.stack = c.stack
  input : c'.input = c.input
  output : c'.output = c.output
  regs : ∀ {h}, r.Live h → c'.regs (r'.place h) = c.regs (r.place h)

namespace Carried

variable {r r' r'' : Registers} {c c' c'' : Cpu}

theorem refl (r : Registers) (c : Cpu) : Carried r r c c := ⟨rfl, rfl, rfl, rfl, fun _ => rfl⟩

theorem trans (h : Carried r r' c c') (he : r.Evolves r') (h' : Carried r' r'' c' c'') :
    Carried r r'' c c'' where
  cells := h'.cells.trans h.cells
  stack := h'.stack.trans h.stack
  input := h'.input.trans h.input
  output := h'.output.trans h.output
  regs hl := (h'.regs (he.live hl)).trans (h.regs hl)

theorem read_operand (h : Carried r r' c c') {v : Value} (hv : v.Live r) :
    c'.read (r'.operand v) = c.read (r.operand v) := by
  cases v with
  | imm w => rfl
  | cell x => exact congrFun h.cells x
  | reg k => exact h.regs hv

/-- A register without a live value may change. -/
theorem setReg (h : Carried r r' c c') {name : String} (hn : ∀ {k}, r.Live k → r'.place k ≠ name)
    (w : Int64) : Carried r r' c (c'.setReg name w) :=
  ⟨h.cells, h.stack, h.input, h.output, fun hk =>
    (c'.regs_setReg_of_ne w (hn hk)).trans (h.regs hk)⟩

theorem setFlag (h : Carried r r' c c') (flag : Bool) : Carried r r' c { c' with zero := flag } :=
  ⟨h.cells, h.stack, h.input, h.output, h.regs⟩

/-- A register of one's own may be overwritten. -/
theorem setOwn (h : Carried r r' c c') (he : r.Evolves r') {k : Handle}
    (hk : (Value.reg k).Own r r') (w : Int64) : Carried r r' c (c'.setReg (r'.place k) w) := by
  refine h.setReg (fun {k'} hk' hp => ?_) w
  exact hk.2 ((he.live hk').eq_of_place hk.1 hp ▸ hk')

end Carried

namespace Registers

variable {r : Registers} {P : Platform} {t : Target}

/-- No live value moves. -/
def Steady (r r' : Registers) : Prop := ∀ h, r.Live h → r'.place h = r.place h

theorem Steady.carried {r' : Registers} (h : r.Steady r') (c : Cpu) : Carried r r' c c :=
  ⟨rfl, rfl, rfl, rfl, fun hl => by rw [h _ hl]⟩

theorem steady_occupy (hr : r.Consistent) (name : String) : r.Steady (r.occupy name).2 :=
  fun _ hl => place_occupy_of_lt (hl.lt hr)

theorem carried_vacate (hr : r.Consistent) {name other : String} {old : Handle}
    (ho : r.occupant name = some old) (hf : r.free? = some other) (c : Cpu) :
    Carried r ((r.relocate old other).occupy name).2 c (c.setReg other (c.regs name)) := by
  refine ⟨rfl, rfl, rfl, rfl, fun {k} hk => ?_⟩
  by_cases hko : k = old
  · subst hko
    rw [place_vacate_self (hr.known ho), hr.placed ho]
    exact c.regs_setReg_self _ _
  · rw [place_vacate_of_ne (hk.lt hr) hko]
    refine c.regs_setReg_of_ne _ ?_
    intro he
    rw [Live, he, (free?_eq_some hf).2] at hk
    cases hk

theorem fresh_spec (hr : r.Sound) {s : Step Handle} (h : r.fresh = .ok s) :
    Evolves r s.registers ∧ (Value.reg s.result).Own r s.registers ∧ r.Steady s.registers := by
  unfold fresh at h
  split at h
  · cases h
  · rename_i name hf
    cases h
    obtain ⟨hp, hn⟩ := free?_eq_some hf
    exact ⟨evolves_occupy hr hp hn, ⟨live_occupy_new r name, not_live_new hr.toConsistent⟩,
      steady_occupy hr.toConsistent name⟩

/-- A value that is moved into a register of its own. -/
theorem load_spec (hr : r.Sound) {v : Value} (hv : v.Live r) {s : Step Handle}
    (h : r.load v = .ok s) :
    Evolves r s.registers ∧ (Value.reg s.result).Own r s.registers ∧ r.Steady s.registers
      ∧ ∀ c, ∃ c', execAll P t s.instrs c = .ok c' ∧ Carried r s.registers c c'
        ∧ c'.regs (s.registers.place s.result) = c.read (r.operand v)
        ∧ ∀ x ∉ r.pool, c'.regs x = c.regs x := by
  unfold load at h
  cases hf : r.fresh with
  | error e =>
    rw [hf] at h
    cases h
  | ok f =>
    rw [hf] at h
    cases h
    obtain ⟨he, hown, hst⟩ := fresh_spec hr hf
    refine ⟨he, hown, hst, fun c => ?_⟩
    have hread := (hst.carried c).read_operand hv
    refine ⟨c.setReg (f.registers.place f.result) (c.read (r.operand v)), ?_, ?_, ?_, ?_⟩
    · rw [← hread]
      simp only [execAll]
      rw [operand, Asm.exec_move_reg]
    · exact (hst.carried c).setOwn he hown _
    · exact c.regs_setReg_self _ _
    · intro x hx
      have hmem := he.sound.pooled hown.1
      rw [he.pool] at hmem
      exact c.regs_setReg_of_ne _ fun he => hx (he ▸ hmem)

/-- A value in a named register. Its occupant keeps its contents elsewhere. -/
theorem bind_spec (hr : r.Sound) {name : String} (hname : name ∈ r.pool) {s : Step Handle}
    (h : r.bind name = .ok s) :
    Evolves r s.registers ∧ (Value.reg s.result).Own r s.registers
      ∧ s.registers.place s.result = name
      ∧ ∀ c, ∃ c', execAll P t s.instrs c = .ok c' ∧ Carried r s.registers c c' := by
  unfold bind at h
  split at h
  · rename_i hn
    cases h
    exact ⟨evolves_occupy hr hname hn, ⟨live_occupy_new r name, not_live_new hr.toConsistent⟩,
      place_occupy_new r name, fun c => ⟨c, rfl, (steady_occupy hr.toConsistent name).carried c⟩⟩
  · rename_i old ho
    split at h
    · cases h
    · rename_i other hf
      cases h
      have hnew : (⟨(r.relocate old other).places.length⟩ : Handle) = ⟨r.places.length⟩ := by
        rw [length_places_relocate]
      exact ⟨evolves_vacate hr ho hf,
        ⟨live_occupy_new _ name, hnew ▸ not_live_new hr.toConsistent⟩, place_occupy_new _ name,
        fun c => ⟨_, rfl, carried_vacate hr.toConsistent ho hf c⟩⟩

/-- A value that is no constant, the same as before. -/
theorem nonImmediate_spec (hr : r.Sound) {v : Value} (hv : v.Live r) {s : Step Value}
    (h : r.nonImmediate v = .ok s) :
    Evolves r s.registers ∧ s.result.Live s.registers ∧ r.Steady s.registers
      ∧ (s.registers.operand s.result).isImm = false
      ∧ ∀ c, ∃ c', execAll P t s.instrs c = .ok c' ∧ Carried r s.registers c c'
        ∧ c'.read (s.registers.operand s.result) = c.read (r.operand v)
        ∧ ∀ x ∉ r.pool, c'.regs x = c.regs x := by
  cases v with
  | imm w =>
    simp only [nonImmediate] at h
    cases hl : r.load (.imm w) with
    | error e =>
      rw [hl] at h
      cases h
    | ok f =>
      rw [hl] at h
      cases h
      obtain ⟨he, hown, hst, hc⟩ := load_spec (P := P) (t := t) hr hv hl
      exact ⟨he, hown.1, hst, rfl, hc⟩
  | cell x =>
    cases h
    refine ⟨.refl hr, trivial, fun _ _ => rfl, rfl, fun c => ?_⟩
    exact ⟨c, rfl, .refl r c, rfl, fun _ _ => rfl⟩
  | reg k =>
    cases h
    exact ⟨.refl hr, hv, fun _ _ => rfl, rfl, fun c => ⟨c, rfl, .refl r c, rfl, fun _ _ => rfl⟩⟩

end Registers

end WhileAsm.Lowering
