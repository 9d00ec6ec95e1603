import WhileAsm.Proofs.Exclusion

/-!
# Values that make room keep their contents

A request for a register may send the value that is in it to another one. The instructions of a
request are moves to registers, and whatever the registers hold when they are run, every value that
was bound has its contents afterwards in the register that is now said to hold it (`Saves`). This
needs no more than a consistent file: the pool may list a register twice, and the register asked for
need not be of the pool. A value moves only if it was in the register that was asked for.

So after any requests the next one loses nothing (`Request.Spares`), and as long as nothing is given
back, each request for a register that is met puts one more into use (`inUse_performAll`).
-/

namespace WhileAsm.Lowering

open Asm (Cpu Instr Platform Target execAll)

namespace Request

def takes : Request → Bool
  | .fresh | .bind _ | .nonImmediate (.imm _) => true
  | _ => false

/-- How many registers are asked for and given, if requests are made one after the other. -/
def granted : List Request → Session → ℕ
  | [], _ => 0
  | q :: qs, s =>
    granted qs (q.perform.leaves s) +
      match q.perform.run s with
      | .ok _ _ => q.takes.toNat
      | .error _ _ => 0

/-- A request that led from `s` to `s'` and was answered with `v` has lost no value. -/
structure Spares (q : Request) (s : Session) (v : Option Value) (s' : Session) : Prop where
  /-- What was bound is still bound. -/
  bound : ∀ {name h}, s.registers.occupant name = some h →
    s'.registers.occupant (s'.registers.place h) = some h
  /-- The new lines are moves to registers, after which each value is in its register of now. A
  constant that was to go into a register is there. -/
  contents : ∃ is, s'.code = s.code ++ is.map .instr ∧ (∀ i ∈ is, ∃ o x, i = .move o (.reg x))
    ∧ ∀ P t c, ∃ c', execAll P t is c = .ok c'
      ∧ (∀ {name h}, s.registers.occupant name = some h →
        c'.regs (s'.registers.place h) = c.regs name)
      ∧ ∀ w h, q = .nonImmediate (.imm w) → v = some (.reg h) →
        c'.regs (s'.registers.place h) = w
  /-- Of the values so far, only the one in the register that was asked for moves. -/
  moved : ∀ {h}, h.number < s.registers.places.length →
    s'.registers.place h ≠ s.registers.place h →
      ∃ name, q = .bind name ∧ s.registers.occupant name = some h
  /-- The value that was asked for is a new one, and it is bound. -/
  new : q.takes → ∃ h, v = some (.reg h) ∧ s.registers.places.length ≤ h.number
    ∧ (∀ name, s.registers.occupant name ≠ some h)
    ∧ s'.registers.occupant (s'.registers.place h) = some h

end Request

/-! ## What a request does to the file -/

namespace Registers

/-- The ways in which a request is met: its answer, its instructions, and the file afterwards. -/
inductive Effect (r : Registers) : Request → Option Value → List Instr → Registers → Prop where
  | fresh {name} : r.free? = some name →
    Effect r .fresh (some (.reg ⟨r.places.length⟩)) [] (r.occupy name).2
  | bind {name} : r.occupant name = none →
    Effect r (.bind name) (some (.reg ⟨r.places.length⟩)) [] (r.occupy name).2
  | vacate {name old other} : r.occupant name = some old → r.free? = some other →
    Effect r (.bind name) (some (.reg ⟨r.places.length⟩)) [.move (.reg name) (.reg other)]
      ((r.relocate old other).occupy name).2
  | load {w name} : r.free? = some name →
    Effect r (.nonImmediate (.imm w)) (some (.reg ⟨r.places.length⟩))
      [.move (.imm w) (.reg name)] (r.occupy name).2
  | asIs {v} : (∀ w, v ≠ .imm w) → Effect r (.nonImmediate v) (some v) [] r
  | adopt {name} :
    Effect r (.adopt name) (some (.reg ⟨r.places.length⟩)) [] (r.adopt name).2
  | freeAll : Effect r .freeAll none [] r.freeAll.registers

variable {r r' : Registers} {q : Request} {v : Option Value} {is : List Instr}
  {name other : String} {old h : Handle}

theorem fresh_eq_ok {st : Step Handle} (h : r.fresh = .ok st) :
    ∃ name, r.free? = some name ∧ st.result = ⟨r.places.length⟩ ∧ st.instrs = []
      ∧ st.registers = (r.occupy name).2 := by
  unfold fresh at h
  split at h
  · cases h
  · rename_i name hname
    cases h
    exact ⟨name, hname, rfl, rfl, rfl⟩

theorem effect_of_step {st : Step (Option Value)} (h : q.step r = .ok st) :
    r.Effect q st.result st.instrs st.registers := by
  cases q with
  | fresh =>
    obtain ⟨st', hf, rfl⟩ := map_eq_ok h
    obtain ⟨name, hname, hresult, hinstrs, hregs⟩ := fresh_eq_ok hf
    simp only [hresult, hinstrs, hregs]
    exact .fresh hname
  | bind name =>
    obtain ⟨st', hb, rfl⟩ := map_eq_ok h
    unfold Registers.bind at hb
    split at hb
    · rename_i hnone
      cases hb
      exact .bind hnone
    · rename_i old ho
      split at hb
      · cases hb
      · rename_i other hf
        cases hb
        have hvacate := Effect.vacate ho hf
        rwa [← length_places_relocate r old other] at hvacate
  | nonImmediate v =>
    obtain ⟨st', hn, rfl⟩ := map_eq_ok h
    cases v with
    | imm w =>
      obtain ⟨st₁, hl, rfl⟩ := map_eq_ok (x := r.load (.imm w)) hn
      obtain ⟨st₂, hf, rfl⟩ := map_eq_ok (x := r.fresh) hl
      obtain ⟨name, hname, hresult, -, hregs⟩ := fresh_eq_ok hf
      simp only [hresult, hregs, operand, place_occupy_new]
      exact .load hname
    | cell x =>
      cases hn
      exact .asIs (by simp)
    | reg k =>
      cases hn
      exact .asIs (by simp)
  | adopt name =>
    cases h
    exact .adopt
  | freeAll =>
    cases h
    exact .freeAll

/-- From `r` to `r'`, instructions that only move to registers carry every live value along. -/
structure Saves (r : Registers) (is : List Instr) (r' : Registers) : Prop where
  live : ∀ {h}, r.Live h → r'.Live h
  moves : ∀ i ∈ is, ∃ o x, i = .move o (.reg x)
  carried : ∀ P t c, ∃ c', execAll P t is c = .ok c' ∧ Carried r r' c c'

theorem saves_occupy (hr : r.Consistent) (hn : r.occupant name = none) :
    r.Saves [] (r.occupy name).2 where
  live := Live.occupy hr hn
  moves := by simp
  carried P t c := ⟨c, rfl, (steady_occupy hr name).carried c⟩

/-- The occupant takes its contents along to a register that was not in use. -/
theorem saves_vacate (hr : r.Consistent) (ho : r.occupant name = some old)
    (hf : r.free? = some other) :
    r.Saves [.move (.reg name) (.reg other)] ((r.relocate old other).occupy name).2 where
  live := Live.vacate hr ho (free?_eq_some hf).2
  moves := by simp
  carried P t c := by
    refine ⟨c.setReg other (c.regs name), ?_, carried_vacate hr ho hf c⟩
    simp only [execAll, Asm.exec_move_reg]
    rfl

theorem saves_load (hr : r.Consistent) (hn : r.occupant name = none) (w : Int64) :
    r.Saves [.move (.imm w) (.reg name)] (r.occupy name).2 where
  live := Live.occupy hr hn
  moves := by simp
  carried P t c := by
    refine ⟨c.setReg name w, ?_, ((steady_occupy hr name).carried c).setReg ?_ w⟩
    · simp only [execAll, Asm.exec_move_reg]
      rfl
    · intro k hk hp
      rw [steady_occupy hr name k hk] at hp
      rw [Live, hp, hn] at hk
      cases hk

theorem place_adopt_of_lt (hh : h.number < r.places.length) :
    (r.adopt name).2.place h = r.place h := by
  simp [adopt, place, List.getElem?_append_left hh]

theorem saves_adopt (hr : r.Consistent) : r.Saves [] (r.adopt name).2 where
  live {h} hl := by
    rw [Live, place_adopt_of_lt (hl.lt hr)]
    exact hl
  moves := by simp
  carried P t c := by
    have hsteady : r.Steady (r.adopt name).2 := fun k hk => place_adopt_of_lt (hk.lt hr)
    exact ⟨c, rfl, hsteady.carried c⟩

theorem Effect.saves (h : r.Effect q v is r') (hr : r.Consistent) (hq : q ≠ .freeAll) :
    r.Saves is r' := by
  cases h with
  | fresh hf => exact saves_occupy hr (free?_eq_some hf).2
  | bind hn => exact saves_occupy hr hn
  | vacate ho hf => exact saves_vacate hr ho hf
  | load hf => exact saves_load hr (free?_eq_some hf).2 _
  | asIs => exact ⟨id, by simp, fun _ _ c => ⟨c, rfl, .refl r c⟩⟩
  | adopt => exact saves_adopt hr
  | freeAll => exact absurd rfl hq

theorem Effect.place_eq (hm : r.Effect q v is r') (hh : h.number < r.places.length)
    (hp : r'.place h ≠ r.place h) : ∃ name, q = .bind name ∧ r.occupant name = some h := by
  cases hm with
  | fresh | bind | load => exact absurd (place_occupy_of_lt hh) hp
  | @vacate name old other ho hf =>
    refine ⟨name, rfl, ?_⟩
    by_cases hold : h = old
    · rw [hold]
      exact ho
    · exact absurd (place_vacate_of_ne hh hold) hp
  | asIs | freeAll => exact absurd rfl hp
  | adopt => exact absurd (place_adopt_of_lt hh) hp

theorem Effect.new (hm : r.Effect q v is r') (hq : q.takes) :
    v = some (.reg ⟨r.places.length⟩) ∧ r'.Live ⟨r.places.length⟩ := by
  cases hm with
  | fresh | bind | load => exact ⟨rfl, live_occupy_new r _⟩
  | @vacate name old other ho hf =>
    have hlive := live_occupy_new (r.relocate old other) name
    rw [length_places_relocate] at hlive
    exact ⟨rfl, hlive⟩
  | @asIs v hv =>
    cases v with
    | imm w => exact absurd rfl (hv w)
    | cell x => cases hq
    | reg k => cases hq
  | adopt | freeAll => cases hq

theorem Effect.constant {w : Int64} (hm : r.Effect (.nonImmediate (.imm w)) v is r')
    (hv : v = some (.reg h)) {P : Platform} {t : Target} {c c' : Cpu}
    (hx : execAll P t is c = .ok c') : c'.regs (r'.place h) = w := by
  cases hm with
  | load hf =>
    cases hv
    simp only [execAll, Asm.exec_move_reg, Except.ok.injEq] at hx
    rw [← hx, place_occupy_new]
    exact c.regs_setReg_self _ _
  | asIs hne => exact absurd rfl (hne w)

theorem Effect.inUse_eq (hm : r.Effect q v is r') (hr : r.used.Nodup) (hq : q ≠ .freeAll) :
    r'.inUse = r.inUse + q.takes.toNat := by
  cases hm with
  | fresh hf | load hf =>
    exact inUse_occupy_of_notMem (occupant_eq_none_iff.1 (free?_eq_some hf).2)
  | bind hn => exact inUse_occupy_of_notMem (occupant_eq_none_iff.1 hn)
  | @vacate name old other ho hf =>
    have hname : name ∈ r.used := by
      by_contra hnot
      rw [occupant_eq_none_iff.2 hnot] at ho
      cases ho
    exact inUse_vacate hr hname (occupant_eq_none_iff.1 (free?_eq_some hf).2)
  | @asIs v hv =>
    cases v with
    | imm w => exact absurd rfl (hv w)
    | cell x => rfl
    | reg k => rfl
  | adopt => rfl
  | freeAll => exact absurd rfl hq

end Registers

/-! ## Runs of requests -/

namespace Request

variable {s s' : Session} {q : Request} {v : Option Value}

theorem perform_ok (h : q.perform.run s = .ok v s') :
    ∃ is, s.registers.Effect q v is s'.registers ∧ s'.code = s.code ++ is.map .instr := by
  obtain ⟨st, hst, rfl, rfl⟩ := Gen.run_allocate_ok (perform_eq q ▸ h)
  exact ⟨st.instrs, Registers.effect_of_step hst, s.code_commit st⟩

theorem spares_of_perform (hs : s.registers.Consistent) (hq : q ≠ .freeAll)
    (h : q.perform.run s = .ok v s') : q.Spares s v s' := by
  obtain ⟨is, heffect, hcode⟩ := perform_ok h
  have hsaves := heffect.saves hs hq
  refine ⟨fun hk => hsaves.live (hs.live hk), ⟨is, hcode, hsaves.moves, fun P t c => ?_⟩,
    heffect.place_eq, fun htakes => ?_⟩
  · obtain ⟨c', hx, hcarried⟩ := hsaves.carried P t c
    refine ⟨c', hx, fun {name k} hk => ?_, ?_⟩
    · rw [hcarried.regs (hs.live hk), hs.placed hk]
    · rintro w k rfl hv
      exact heffect.constant hv hx
  · obtain ⟨hv, hnew⟩ := heffect.new htakes
    refine ⟨_, hv, Nat.le_refl _, fun name hk => ?_, hnew⟩
    exact Nat.lt_irrefl _ (hs.known hk)

/-- Each request for a register that is met puts one more into use, as long as none is given
back. -/
theorem inUse_performAll : ∀ (qs : List Request) {s : Session}, s.registers.Tidy →
    .freeAll ∉ qs → (performAll qs s).registers.inUse = s.registers.inUse + granted qs s
  | [], s, _, _ => rfl
  | q :: qs, s, hs, hqs => by
    obtain ⟨hq, hqs⟩ := not_or.1 (mt List.mem_cons.2 hqs)
    have ih := inUse_performAll qs (tidy_leaves hs q).1 hqs
    have hstep : (q.perform.leaves s).registers.inUse = s.registers.inUse
        + match q.perform.run s with
          | .ok _ _ => q.takes.toNat
          | .error _ _ => 0 := by
      unfold Gen.leaves
      cases hrun : q.perform.run s with
      | ok v s' =>
        obtain ⟨is, heffect, -⟩ := perform_ok hrun
        exact heffect.inUse_eq hs.nodup (Ne.symm hq)
      | error e s' =>
        obtain ⟨rfl, -⟩ := perform_eq_error hrun
        rfl
    rw [show performAll (q :: qs) s = performAll qs (q.perform.leaves s) from rfl, ih, hstep,
      granted]
    omega

end Request

/-- After any requests to a register file that starts with nothing in use, the next request that is
met loses no value unless it gives all registers back, and until then the registers in use grow by
one with each request for a register that is met. -/
theorem requests_lose_nothing (t : Target) (qs : List Request) :
    (∀ (q : Request) v s', q ≠ .freeAll →
      q.perform.run (Request.performAll qs (.start t)) = .ok v s' →
        q.Spares (Request.performAll qs (.start t)) v s')
    ∧ ∀ qs', .freeAll ∉ qs' →
      (Request.performAll (qs ++ qs') (.start t)).registers.inUse
        = (Request.performAll qs (.start t)).registers.inUse
          + Request.granted qs' (Request.performAll qs (.start t)) := by
  obtain ⟨htidy, -⟩ := Request.tidy_performAll qs (s := .start t)
    (Registers.tidy_ofPool t.scratch)
  refine ⟨fun q v s' hq h => Request.spares_of_perform htidy.toConsistent hq h, fun qs' hqs' => ?_⟩
  rw [Request.performAll, List.foldl_append]
  exact Request.inUse_performAll qs' htidy hqs'

/-- A register that is not of the pool is vacated to one that is. -/
theorem requests_lose_nothing_vacated :
    let s := Request.performAll [.bind "rdx"] (.start { Target.host with scratch := ["rax"] })
    ∃ v s', (Request.bind "rdx").perform.run s = .ok v s'
      ∧ s'.registers.place ⟨0⟩ = "rax" ∧ s'.registers.place ⟨1⟩ = "rdx"
      ∧ s'.registers.inUse = 2 ∧ (Request.bind "rdx").Spares s v s' := by
  intro s
  have hrun : (Request.bind "rdx").perform.run s = .ok (some (.reg ⟨1⟩)) _ := rfl
  exact ⟨_, _, hrun, by decide, by decide, by decide,
    (requests_lose_nothing _ _).1 _ _ _ (by decide) hrun⟩

end WhileAsm.Lowering
