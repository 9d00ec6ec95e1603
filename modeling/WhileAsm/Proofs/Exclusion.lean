import WhileAsm.Proofs.Allocation

/-!
# A register holds one value, and a value is in one register

The register file of a session is driven by requests (`Request`), in any order and for any register,
also one that is not of the pool. Each request that is met leaves every register in use with a value
that is said to be there (`Tidy.step`), and one that is not met changes nothing. So after any number
of requests no value is in two registers, whatever was moved to make room for another and whatever
was given back.

`requests_orderly` says this of every run of requests, and for each kind of request when it fails
and which register a new value gets.
-/

namespace WhileAsm.Lowering

open Asm (Target)

/-! ## Requests -/

/-- What can be asked of the register file. -/
inductive Request where
  | fresh
  | bind (name : String)
  | nonImmediate (v : Value)
  /-- Makes a value known that is in a register without the doing of the file. -/
  | adopt (name : String)
  | freeAll
  deriving DecidableEq, Repr

namespace Request

/-- Carries a request out, and answers the value that was asked for. -/
def perform : Request → Gen (Option Value)
  | .fresh => do return some (.reg (← Gen.fresh))
  | .bind name => do return some (.reg (← Gen.bindTo name))
  | .nonImmediate v => do return some (← Gen.nonImmediate v)
  | .adopt name => modifyGet fun s =>
    let (h, registers) := s.registers.adopt name
    (some (.reg h), { s with registers })
  | .freeAll => do
    Gen.freeAll
    return none

/-- What a request does to the register file, and the value that it answers. -/
def step : Request → Registers → Except Exhausted (Step (Option Value))
  | .fresh, r => r.fresh.map fun st => { st with result := some (.reg st.result) }
  | .bind name, r => (r.bind name).map fun st => { st with result := some (.reg st.result) }
  | .nonImmediate v, r => (r.nonImmediate v).map fun st => { st with result := some st.result }
  | .adopt name, r => .ok { result := some (.reg (r.adopt name).1), registers := (r.adopt name).2 }
  | .freeAll, r => .ok { r.freeAll with result := none }

/-- A request that is carried out step by step does what it does to the register file, and nothing
if it fails. -/
theorem perform_eq (q : Request) : q.perform = Gen.allocate q.step := by
  cases q with
  | fresh =>
    rw [perform, Gen.fresh_eq]
    exact Gen.map_allocate _ _
  | bind name =>
    rw [perform, Gen.bindTo_eq]
    exact Gen.map_allocate _ _
  | nonImmediate v =>
    rw [perform, Gen.nonImmediate_eq]
    exact Gen.map_allocate _ _
  | adopt name => rfl
  | freeAll => rfl

/-- The session after requests, some of which may have failed. -/
def performAll (qs : List Request) (s : Session) : Session :=
  qs.foldl (fun s q => q.perform.leaves s) s

def Fails (q : Request) (s : Session) : Prop := ∃ e s', q.perform.run s = .error e s'

end Request

/-- Every register of the pool is in use. -/
def Registers.Full (r : Registers) : Prop := ∀ name ∈ r.pool, (r.occupant name).isSome

/-- The register file of a session holds its values apart, and answers requests in order. -/
structure Session.Orderly (s : Session) : Prop where
  /-- A value is said to be in the register that holds it. -/
  placed : ∀ {name h}, s.registers.occupant name = some h → s.registers.place h = name
  /-- No value is in two registers. -/
  single : ∀ {name name' h}, s.registers.occupant name = some h →
    s.registers.occupant name' = some h → name = name'
  /-- No register is listed twice. -/
  listed : s.registers.used.Nodup
  /-- A request that fails found no free register, and all is as it was. -/
  unchanged : ∀ {q : Request} {e s'}, q.perform.run s = .error e s' →
    s' = s ∧ ∃ leaving, e = .exhausted ⟨s.registers.pool.length, leaving⟩
  fresh_fails : Request.fresh.Fails s ↔ s.registers.Full
  bind_fails : ∀ name, (Request.bind name).Fails s
    ↔ (s.registers.occupant name).isSome ∧ s.registers.Full
  nonImmediate_fails : ∀ v, (Request.nonImmediate v).Fails s
    ↔ (∃ w, v = .imm w) ∧ s.registers.Full
  /-- A new value gets the first register of the pool that is not in use. -/
  fresh_first : ∀ {front name back}, s.registers.pool = front ++ name :: back →
    (∀ x ∈ front, (s.registers.occupant x).isSome) → s.registers.occupant name = none →
      ∃ h s', Request.fresh.perform.run s = .ok (some (.reg h)) s' ∧ s'.registers.place h = name
        ∧ ∀ x, s'.registers.occupant x
          = if x = name then some h else s.registers.occupant x

/-! ## What a request keeps -/

namespace Registers

/-- Every register in use is listed once and holds a value that is said to be there. -/
structure Tidy (r : Registers) : Prop extends r.Consistent where
  nodup : r.used.Nodup

variable {r : Registers} {name other : String} {old h : Handle}

theorem tidy_ofPool (pool : List String) : (ofPool pool).Tidy where
  toConsistent := (sound_ofPool pool).toConsistent
  nodup := List.nodup_nil

theorem Tidy.occupy (hr : r.Tidy) : (r.occupy name).2.Tidy where
  toConsistent := hr.toConsistent.occupy
  nodup := nodup_used_hold (r := (r.adopt name).2) hr.nodup

theorem Tidy.vacate (hr : r.Tidy) (ho : r.occupant name = some old) :
    ((r.relocate old other).occupy name).2.Tidy where
  toConsistent := hr.toConsistent.vacate ho
  nodup := nodup_used_hold (r := ((r.relocate old other).adopt name).2)
    (nodup_used_hold (r := { r with places := r.places.set old.number other }) hr.nodup)

theorem Tidy.fresh (hr : r.Tidy) {st : Step Handle} (h : r.fresh = .ok st) :
    st.registers.Tidy ∧ st.registers.pool = r.pool := by
  unfold Registers.fresh at h
  split at h
  · cases h
  · cases h
    exact ⟨hr.occupy, rfl⟩

theorem Tidy.bind (hr : r.Tidy) {st : Step Handle} (h : r.bind name = .ok st) :
    st.registers.Tidy ∧ st.registers.pool = r.pool := by
  unfold Registers.bind at h
  split at h
  · cases h
    exact ⟨hr.occupy, rfl⟩
  · rename_i old ho
    split at h
    · cases h
    · cases h
      exact ⟨hr.vacate ho, rfl⟩

theorem map_eq_error_iff {α β : Type} {x : Except Exhausted α} {f : α → β} {e : Exhausted} :
    x.map f = .error e ↔ x = .error e := by
  cases x <;> simp [Except.map]

theorem Tidy.nonImmediate (hr : r.Tidy) {v : Value} {st : Step Value}
    (h : r.nonImmediate v = .ok st) : st.registers.Tidy ∧ st.registers.pool = r.pool := by
  cases v with
  | imm w =>
    obtain ⟨st', hl, rfl⟩ := map_eq_ok (x := r.load (.imm w)) h
    obtain ⟨st'', hf, rfl⟩ := map_eq_ok (x := r.fresh) hl
    exact hr.fresh hf
  | cell x =>
    cases h
    exact ⟨hr, rfl⟩
  | reg k =>
    cases h
    exact ⟨hr, rfl⟩

theorem Tidy.adopt (hr : r.Tidy) : (r.adopt name).2.Tidy := by
  refine ⟨⟨?_, ?_⟩, hr.nodup⟩
  · intro x h hx
    have hlt := hr.known hx
    simp [Registers.adopt]
    omega
  · intro x h hx
    have hlt := hr.known hx
    have hp := hr.placed hx
    simpa [Registers.adopt, place, List.getElem?_append_left hlt] using hp

theorem Tidy.step (hr : r.Tidy) {q : Request} {st : Step (Option Value)}
    (h : q.step r = .ok st) : st.registers.Tidy ∧ st.registers.pool = r.pool := by
  cases q with
  | fresh =>
    obtain ⟨st', hf, rfl⟩ := map_eq_ok h
    exact hr.fresh hf
  | bind name =>
    obtain ⟨st', hb, rfl⟩ := map_eq_ok h
    exact hr.bind hb
  | nonImmediate v =>
    obtain ⟨st', hn, rfl⟩ := map_eq_ok h
    exact hr.nonImmediate hn
  | adopt name =>
    cases h
    exact ⟨hr.adopt, rfl⟩
  | freeAll =>
    cases h
    exact ⟨⟨(sound_freeAll r).toConsistent, List.nodup_nil⟩, rfl⟩

/-! ## When a request fails -/

theorem fresh_eq_error_iff {e : Exhausted} :
    r.fresh = .error e ↔ r.Full ∧ e = ⟨r.pool.length, none⟩ := by
  rw [Full, ← free?_eq_none_iff, Registers.fresh]
  cases r.free? with
  | none => simp [eq_comm]
  | some x => simp

theorem bind_eq_error_iff {e : Exhausted} : r.bind name = .error e
    ↔ ((r.occupant name).isSome ∧ r.Full) ∧ e = ⟨r.pool.length, some name⟩ := by
  rw [Full, ← free?_eq_none_iff, Registers.bind]
  cases r.occupant name with
  | none => simp
  | some old =>
    cases r.free? with
    | none => simp [eq_comm]
    | some x => simp

theorem nonImmediate_eq_error_iff {v : Value} {e : Exhausted} : r.nonImmediate v = .error e
    ↔ ((∃ w, v = .imm w) ∧ r.Full) ∧ e = ⟨r.pool.length, none⟩ := by
  cases v with
  | imm w =>
    have hload : r.nonImmediate (.imm w) = .error e ↔ r.fresh = .error e :=
      (map_eq_error_iff (x := r.load (.imm w))).trans (map_eq_error_iff (x := r.fresh))
    rw [hload, fresh_eq_error_iff]
    simp
  | cell x => simp [Registers.nonImmediate]
  | reg k => simp [Registers.nonImmediate]

end Registers

namespace Request

variable {s s' : Session} {q : Request}

theorem fails_iff : q.Fails s ↔ ∃ e, q.step s.registers = .error e := by
  unfold Fails
  rw [perform_eq, Gen.run_allocate]
  cases q.step s.registers <;> simp

theorem step_eq_error {r : Registers} {e : Exhausted} (h : q.step r = .error e) :
    ∃ leaving, e = ⟨r.pool.length, leaving⟩ := by
  cases q with
  | fresh => exact ⟨_, (Registers.fresh_eq_error_iff.1 (Registers.map_eq_error_iff.1 h)).2⟩
  | bind name => exact ⟨_, (Registers.bind_eq_error_iff.1 (Registers.map_eq_error_iff.1 h)).2⟩
  | nonImmediate v =>
    exact ⟨_, (Registers.nonImmediate_eq_error_iff.1 (Registers.map_eq_error_iff.1 h)).2⟩
  | adopt name => cases h
  | freeAll => cases h

theorem perform_eq_error {e : GenError} (h : q.perform.run s = .error e s') :
    s' = s ∧ ∃ leaving, e = .exhausted ⟨s.registers.pool.length, leaving⟩ := by
  rw [perform_eq, Gen.run_allocate] at h
  cases hstep : q.step s.registers with
  | ok st =>
    rw [hstep] at h
    cases h
  | error e' =>
    rw [hstep] at h
    cases h
    obtain ⟨leaving, rfl⟩ := step_eq_error hstep
    exact ⟨rfl, leaving, rfl⟩

/-- What one request keeps. -/
theorem tidy_leaves (hs : s.registers.Tidy) (q : Request) :
    (q.perform.leaves s).registers.Tidy
      ∧ (q.perform.leaves s).registers.pool = s.registers.pool := by
  unfold Gen.leaves
  rw [perform_eq, Gen.run_allocate]
  cases hstep : q.step s.registers with
  | ok st => exact hs.step hstep
  | error e => exact ⟨hs, rfl⟩

/-- What any number of requests keeps. -/
theorem tidy_performAll : ∀ (qs : List Request) {s : Session}, s.registers.Tidy →
    (performAll qs s).registers.Tidy ∧ (performAll qs s).registers.pool = s.registers.pool
  | [], s, hs => ⟨hs, rfl⟩
  | q :: qs, s, hs => by
    obtain ⟨hq, hpool⟩ := tidy_leaves hs q
    obtain ⟨hqs, hpool'⟩ := tidy_performAll qs hq
    exact ⟨hqs, hpool'.trans hpool⟩

theorem fresh_takes_first {front back : List String} {name : String}
    (hpool : s.registers.pool = front ++ name :: back)
    (hfront : ∀ x ∈ front, (s.registers.occupant x).isSome)
    (hname : s.registers.occupant name = none) :
    ∃ h s', Request.fresh.perform.run s = .ok (some (.reg h)) s' ∧ s'.registers.place h = name
      ∧ ∀ x, s'.registers.occupant x = if x = name then some h else s.registers.occupant x := by
  have hfree : s.registers.free? = some name := by
    rw [Registers.free?, hpool, List.find?_append]
    have hnone : front.find? (fun x => (s.registers.occupant x).isNone) = none := by
      rw [List.find?_eq_none]
      intro x hx
      have := hfront x hx
      simp [Option.isSome_iff_ne_none.1 this]
    rw [hnone]
    simp [hname]
  have hstep : ∃ st, Request.fresh.step s.registers = .ok st
      ∧ st.result = some (.reg ⟨s.registers.places.length⟩)
      ∧ st.registers = (s.registers.occupy name).2 := by
    simp only [step, Registers.fresh, hfree, Except.map]
    exact ⟨_, rfl, rfl, rfl⟩
  obtain ⟨st, hst, hresult, hregs⟩ := hstep
  refine ⟨⟨s.registers.places.length⟩, s.commit st, ?_, ?_, ?_⟩
  · rw [perform_eq, Gen.run_allocate, hst, ← hresult]
  · rw [show (s.commit st).registers = _ from hregs]
    exact Registers.place_occupy_new _ _
  · rw [show (s.commit st).registers = _ from hregs]
    exact Registers.occupant_occupy _ _

end Request

/-- After any requests, met or not, to a register file that starts with nothing in use, no value is
in two registers, and the next request is answered in order. -/
theorem requests_orderly (t : Target) (qs : List Request) :
    (Request.performAll qs (.start t)).registers.pool = t.scratch
      ∧ (Request.performAll qs (.start t)).Orderly := by
  obtain ⟨htidy, hpool⟩ := Request.tidy_performAll qs (s := .start t)
    (Registers.tidy_ofPool t.scratch)
  generalize Request.performAll qs (.start t) = s at htidy hpool
  refine ⟨hpool, ?_⟩
  constructor
  case placed => exact htidy.placed
  case single =>
    intro name name' h hn hn'
    exact (htidy.placed hn).symm.trans (htidy.placed hn')
  case listed => exact htidy.nodup
  case unchanged => exact Request.perform_eq_error
  case fresh_fails =>
    simp [Request.fails_iff, Request.step, Registers.map_eq_error_iff, Registers.fresh_eq_error_iff]
  case bind_fails =>
    simp [Request.fails_iff, Request.step, Registers.map_eq_error_iff, Registers.bind_eq_error_iff]
  case nonImmediate_fails =>
    simp [Request.fails_iff, Request.step, Registers.map_eq_error_iff,
      Registers.nonImmediate_eq_error_iff]
  case fresh_first => exact Request.fresh_takes_first

end WhileAsm.Lowering
