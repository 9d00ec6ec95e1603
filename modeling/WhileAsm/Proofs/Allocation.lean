import WhileAsm.Proofs.Demand
import WhileAsm.Proofs.Generation
import WhileAsm.Proofs.RegisterFile

/-!
# When there are enough registers

The registers in use are different registers of the pool (`Counted`), so there is a free one
exactly if fewer are in use than there are. A step that takes a register takes one more (`Takes`),
also where the register is a named one: if that is in use, the value in it needs a free register.

Generation then does what serving the demands of the tree says (`Meets`): it succeeds if they are
all met, and it fails with the reason of the first one that is not. `generate_succeeds_iff` puts
this together with the counter of the tree.
-/

namespace WhileAsm.Lowering

open Asm (Instr Line Target)
open Demand (meet serve registerIf ofRef serve_append)

/-! ## The registers in use -/

namespace Registers

def used (r : Registers) : List String := r.bound.map (·.1)

/-- The registers in use are different registers of the pool. -/
structure Counted (pool : List String) (r : Registers) : Prop where
  pool_eq : r.pool = pool
  nodup : r.used.Nodup
  subset : r.used ⊆ pool

variable {pool : List String} {r : Registers} {name : String} {h : Handle}

theorem length_used (r : Registers) : r.used.length = r.inUse := List.length_map _

theorem occupant_eq_none_iff : r.occupant name = none ↔ name ∉ r.used := by
  simp only [occupant, used, Option.map_eq_none_iff, List.find?_eq_none, List.mem_map, beq_iff_eq]
  constructor
  · rintro hall ⟨b, hb, he⟩
    exact hall b hb he
  · intro hnot b hb he
    exact hnot ⟨b, hb, he⟩

theorem used_hold : (r.hold name h).used = name :: r.used.filter (· != name) := by
  simp [used, hold, List.filter_map, Function.comp_def]

theorem nodup_used_hold (hr : r.used.Nodup) : (r.hold name h).used.Nodup := by
  rw [used_hold]
  exact List.nodup_cons.2 ⟨by simp, hr.filter _⟩

theorem Counted.hold (hr : r.Counted pool) (hn : name ∈ pool) : (r.hold name h).Counted pool := by
  refine ⟨hr.pool_eq, nodup_used_hold hr.nodup, ?_⟩
  rw [used_hold]
  exact List.cons_subset.2 ⟨hn, fun x hx => hr.subset (List.mem_filter.1 hx).1⟩

theorem inUse_hold_of_notMem (hn : name ∉ r.used) : (r.hold name h).inUse = r.inUse + 1 := by
  have hkeep : r.used.filter (· != name) = r.used := by
    refine List.filter_eq_self.2 fun x hx => ?_
    have : x ≠ name := fun he => hn (he ▸ hx)
    simpa using this
  rw [← length_used, used_hold, hkeep, List.length_cons, length_used]

theorem inUse_hold_of_mem (hr : r.used.Nodup) (hn : name ∈ r.used) :
    (r.hold name h).inUse = r.inUse := by
  have hpos : 0 < r.used.length := List.length_pos_of_mem hn
  rw [← length_used, used_hold, ← hr.erase_eq_filter, List.length_cons,
    List.length_erase_of_mem hn, Nat.sub_add_cancel hpos, length_used]

theorem counted_ofPool (pool : List String) : (ofPool pool).Counted pool :=
  ⟨rfl, List.nodup_nil, List.nil_subset _⟩

/-- A pool without a free register is used up. -/
theorem Counted.lt_iff_free? (hr : r.Counted pool) (hpool : pool.Nodup) :
    r.inUse < pool.length ↔ ∃ name, r.free? = some name := by
  rw [← Option.ne_none_iff_exists', Ne, free?_eq_none_iff, hr.pool_eq, ← length_used]
  constructor
  · intro hlt hall
    have hsub : pool ⊆ r.used := fun x hx => by
      have := hall x hx
      rw [Option.isSome_iff_ne_none, Ne, occupant_eq_none_iff, not_not] at this
      exact this
    have := hpool.length_le_of_subset hsub
    omega
  · intro hne
    push Not at hne
    obtain ⟨x, hx, hfree⟩ := hne
    have hnot : x ∉ r.used := occupant_eq_none_iff.1 (by simpa using hfree)
    have hsub : x :: r.used ⊆ pool := List.cons_subset.2 ⟨hx, hr.subset⟩
    exact (List.nodup_cons.2 ⟨hnot, hr.nodup⟩).length_le_of_subset hsub

theorem Counted.free?_eq_none (hr : r.Counted pool) (hpool : pool.Nodup)
    (hfull : ¬ r.inUse < pool.length) : r.free? = none := by
  rw [hr.lt_iff_free? hpool] at hfull
  exact Option.eq_none_iff_forall_ne_some.2 fun name hs => hfull ⟨name, hs⟩

theorem Counted.freeAll (hr : r.Counted pool) : r.freeAll.registers.Counted pool :=
  ⟨hr.pool_eq, List.nodup_nil, List.nil_subset _⟩

theorem Counted.occupy (hr : r.Counted pool) (hn : name ∈ pool) :
    (r.occupy name).2.Counted pool :=
  hold (r := { r with places := r.places ++ [name] }) ⟨hr.pool_eq, hr.nodup, hr.subset⟩ hn

theorem inUse_occupy_of_notMem (hn : name ∉ r.used) : (r.occupy name).2.inUse = r.inUse + 1 :=
  inUse_hold_of_notMem (r := { r with places := r.places ++ [name] }) hn

theorem inUse_occupy_of_mem (hr : r.used.Nodup) (hn : name ∈ r.used) :
    (r.occupy name).2.inUse = r.inUse :=
  inUse_hold_of_mem (r := { r with places := r.places ++ [name] }) hr hn

/-- A value that makes room for another one takes a register that was not in use. -/
theorem inUse_vacate {other : String} {old : Handle} (hr : r.used.Nodup) (hname : name ∈ r.used)
    (hother : other ∉ r.used) : ((r.relocate old other).occupy name).2.inUse = r.inUse + 1 := by
  have hin : (r.relocate old other).inUse = r.inUse + 1 :=
    inUse_hold_of_notMem (r := { r with places := r.places.set old.number other }) hother
  have hnodup : (r.relocate old other).used.Nodup :=
    nodup_used_hold (r := { r with places := r.places.set old.number other }) hr
  have hstill : name ∈ (r.relocate old other).used := by
    have hne : name ≠ other := fun he => hother (he ▸ hname)
    have hused : (r.relocate old other).used = other :: r.used.filter (· != other) := used_hold
    rw [hused]
    simp [hne, hname]
  rw [inUse_occupy_of_mem hnodup hstill, hin]

/-! ## Steps that take a register -/

/-- The step takes one more register of the pool, and fails if there is none. -/
def Takes {α : Type} (pool : List String) (leaving : Option String)
    (step : Registers → Except Exhausted (Step α)) : Prop :=
  ∀ r : Registers, r.Counted pool →
    if r.inUse < pool.length then
      ∃ st, step r = .ok st ∧ st.registers.Counted pool ∧ st.registers.inUse = r.inUse + 1
    else step r = .error ⟨pool.length, leaving⟩

theorem takes_fresh (hpool : pool.Nodup) : Takes pool none fresh := by
  intro r hr
  split_ifs with hlt
  · obtain ⟨name, hfree⟩ := (hr.lt_iff_free? hpool).1 hlt
    obtain ⟨hmem, hnone⟩ := free?_eq_some hfree
    have hstep : ∃ st, r.fresh = .ok st ∧ st.registers = (r.occupy name).2 := by
      simp only [fresh, hfree]
      exact ⟨_, rfl, rfl⟩
    obtain ⟨st, hst, hregs⟩ := hstep
    refine ⟨st, hst, hregs ▸ hr.occupy (hr.pool_eq ▸ hmem), ?_⟩
    rw [hregs, inUse_occupy_of_notMem (occupant_eq_none_iff.1 hnone)]
  · simp only [fresh, hr.free?_eq_none hpool hlt, hr.pool_eq]

theorem Takes.bind {α β : Type} {step : Registers → Except Exhausted (Step α)}
    {leaving : Option String} (hs : Takes pool leaving step) (f : Step α → Step β)
    (hf : ∀ st, (f st).registers = st.registers) :
    Takes pool leaving (fun r => (step r).map f) := by
  intro r hr
  have := hs r hr
  split_ifs at this ⊢ with hlt
  · obtain ⟨st, hst, hc, hu⟩ := this
    refine ⟨f st, ?_, ?_, ?_⟩
    · simp only [hst, Except.map]
    · rw [hf]
      exact hc
    · rw [hf]
      exact hu
  · simp only [this, Except.map]

theorem takes_load (hpool : pool.Nodup) (v : Value) : Takes pool none (·.load v) :=
  (takes_fresh hpool).bind _ fun _ => rfl

/-- All registers are in use, so the named one is, or there is a free one for its value. -/
theorem takes_bind (hpool : pool.Nodup) (hname : name ∈ pool) :
    Takes pool (some name) (·.bind name) := by
  intro r hr
  cases hocc : r.occupant name with
  | none =>
    have hnot : name ∉ r.used := occupant_eq_none_iff.1 hocc
    have hlt : r.inUse < pool.length := by
      have hsub : name :: r.used ⊆ pool := List.cons_subset.2 ⟨hname, hr.subset⟩
      rw [← length_used]
      exact (List.nodup_cons.2 ⟨hnot, hr.nodup⟩).length_le_of_subset hsub
    rw [if_pos hlt]
    have hstep : ∃ st, r.bind name = .ok st ∧ st.registers = (r.occupy name).2 := by
      simp only [bind, hocc]
      exact ⟨_, rfl, rfl⟩
    obtain ⟨st, hst, hregs⟩ := hstep
    refine ⟨st, hst, hregs ▸ hr.occupy hname, ?_⟩
    rw [hregs, inUse_occupy_of_notMem hnot]
  | some old =>
    have hused : name ∈ r.used := by
      by_contra hnot
      rw [occupant_eq_none_iff.2 hnot] at hocc
      cases hocc
    split_ifs with hlt
    · obtain ⟨other, hfree⟩ := (hr.lt_iff_free? hpool).1 hlt
      obtain ⟨hmem, hnone⟩ := free?_eq_some hfree
      have hother : other ∉ r.used := occupant_eq_none_iff.1 hnone
      have hr' : (r.relocate old other).Counted pool :=
        Counted.hold (r := { r with places := r.places.set old.number other })
          ⟨hr.pool_eq, hr.nodup, hr.subset⟩ (hr.pool_eq ▸ hmem)
      have hstep : ∃ st, r.bind name = .ok st
          ∧ st.registers = ((r.relocate old other).occupy name).2 := by
        simp only [bind, hocc, hfree]
        exact ⟨_, rfl, rfl⟩
      obtain ⟨st, hst, hregs⟩ := hstep
      refine ⟨st, hst, hregs ▸ hr'.occupy hname, ?_⟩
      rw [hregs, inUse_vacate hr.nodup hused hother]
    · simp only [bind, hocc, hr.free?_eq_none hpool hlt, hr.pool_eq]

end Registers

/-! ## Generation meets demands -/

section Meets

variable {t : Target} {α β : Type} {ds es : List Demand} {Q : α → Prop} {R : β → Prop}

/-- Generation does what serving demands says, and answers what `Q` says. -/
def Meets (t : Target) (x : Gen α) (ds : List Demand) (Q : α → Prop) : Prop :=
  ∀ s : Session, s.registers.Counted t.scratch →
    match serve t.scratch.length ds s.registers.inUse with
    | .ok k => ∃ a s', x.run s = .ok a s' ∧ s'.registers.Counted t.scratch
        ∧ s'.registers.inUse = k ∧ Q a
    | .error e => ∃ s', x.run s = .error e s'

theorem Meets.bind {x : Gen α} {f : α → Gen β} (hx : Meets t x ds Q)
    (hf : ∀ a, Q a → Meets t (f a) es R) : Meets t (x >>= f) (ds ++ es) R := by
  intro s hs
  have h := hx s hs
  rw [serve_append]
  cases hd : serve t.scratch.length ds s.registers.inUse with
  | error e =>
    rw [hd] at h
    obtain ⟨s', hrun⟩ := h
    exact ⟨s', by rw [EStateM.run_bind, hrun]⟩
  | ok k =>
    rw [hd] at h
    obtain ⟨a, s', hrun, hs', rfl, hQ⟩ := h
    have h := hf a hQ s' hs'
    rw [EStateM.run_bind, hrun]
    exact h

/-- What is generated at last asks for nothing more. -/
theorem Meets.andThen {x : Gen α} {f : α → Gen β} (hx : Meets t x ds Q)
    (hf : ∀ a, Q a → Meets t (f a) [] R) : Meets t (x >>= f) ds R := by
  have := hx.bind hf
  rwa [List.append_nil] at this

theorem meets_pure {a : α} (h : Q a) : Meets t (pure a) [] Q :=
  fun s hs => ⟨a, s, rfl, hs, rfl, h⟩

theorem meets_reject (what : Unknown) : Meets t (Gen.reject what) (.reject what :: ds) Q :=
  fun s _ => ⟨s, rfl⟩

theorem meets_line (l : Line) : Meets t (Gen.line l) [] fun _ => True :=
  fun s hs => ⟨(), s.push l, rfl, hs, rfl, trivial⟩

theorem meets_instr (i : Instr) : Meets t (Gen.instr i) [] fun _ => True := meets_line (.instr i)

theorem meets_operand (v : Value) : Meets t (Gen.operand v) [] fun _ => True :=
  fun s hs => ⟨_, s, rfl, hs, rfl, trivial⟩

theorem meets_drawLabel : Meets t Gen.drawLabel [] fun _ => True :=
  fun s hs => ⟨_, { s with labels := s.labels + 1 }, rfl, hs, rfl, trivial⟩

theorem meets_freeAll : Meets t Gen.freeAll [.release] fun _ => True :=
  fun s hs => ⟨(), s.commit s.registers.freeAll, rfl, hs.freeAll, rfl, trivial⟩

theorem meets_allocate {leaving : Option String} {step : Registers → Except Exhausted (Step α)}
    (h : Registers.Takes t.scratch leaving step) :
    Meets t (Gen.allocate step) [.register leaving] fun _ => True := by
  intro s hs
  have hstep := h s.registers hs
  rw [Demand.serve_cons, meet]
  split_ifs at hstep ⊢ with hlt
  · obtain ⟨st, hst, hc, hu⟩ := hstep
    exact ⟨st.result, s.commit st, by rw [Gen.run_allocate, hst], hc, hu, trivial⟩
  · exact ⟨s, by rw [Gen.run_allocate, hstep]⟩

theorem meets_cell (ref : Option VarRef) :
    Meets t (Gen.cell ref) (ofRef ref .reference) fun _ => True := by
  intro s hs
  rcases ref with _ | ⟨name, _ | d, pos⟩
  · exact ⟨s, rfl⟩
  · exact ⟨s, rfl⟩
  · have hregs := s.registers_refer name d.place
    refine ⟨_, s.refer name d.place, Gen.run_cell name d pos, ?_, ?_, trivial⟩
    · rw [hregs]
      exact hs
    · rw [hregs]

/-! ## Expressions -/

def Value.isImm : Value → Bool
  | .imm _ => true
  | _ => false

def Value.isCell : Value → Bool
  | .cell _ => true
  | _ => false

/-- The place of a value tells whether the expression is a literal or a variable. -/
def Value.Suits (e : Expr) (v : Value) : Prop := v.isImm = e.isLiteral ∧ v.isCell = e.isVar

theorem meets_instr_pure {i : Instr} {a : α} (h : Q a) :
    Meets t (do Gen.instr i; pure a) [] Q :=
  (meets_instr i).andThen fun _ _ => meets_pure h

section Exprs

variable (hpool : t.scratch.Nodup) (hdiv : t.dividendReg ∈ t.scratch)
include hpool

theorem meets_load (v : Value) : Meets t (Gen.load v) [.register none] fun _ => True := by
  rw [Gen.load_eq]
  exact meets_allocate (Registers.takes_load hpool v)

theorem meets_intoRegister (v : Value) :
    Meets t (Gen.intoRegister v) (registerIf (v.isImm || v.isCell)) fun _ => True := by
  cases v with
  | imm a => exact meets_load hpool (.imm a)
  | cell x => exact meets_load hpool (.cell x)
  | reg h => exact meets_pure trivial

theorem meets_nonImmediate (v : Value) :
    Meets t (Gen.nonImmediate v) (registerIf v.isImm) fun _ => True := by
  cases v with
  | imm a => exact (meets_load hpool (.imm a)).andThen fun _ _ => meets_pure trivial
  | cell x => exact meets_pure trivial
  | reg h => exact meets_pure trivial

theorem meets_stage (v : Value) :
    Meets t (Gen.stage v) (registerIf v.isCell) fun _ => True := by
  cases v with
  | imm a => exact meets_pure trivial
  | cell x => exact (meets_load hpool (.cell x)).andThen fun _ _ => meets_pure trivial
  | reg h => exact meets_pure trivial

include hdiv in
theorem meets_divide (l r : Value) :
    Meets t (Gen.divide t l r) (.register (some t.dividendReg) :: registerIf r.isImm)
      fun v => v.isImm = false ∧ v.isCell = false := by
  have hbind : Meets t (Gen.bindTo t.dividendReg) [.register (some t.dividendReg)]
      fun _ => True := by
    rw [Gen.bindTo_eq]
    exact meets_allocate (Registers.takes_bind hpool hdiv)
  refine hbind.bind fun result _ => ?_
  refine (meets_operand l).bind fun source _ => ?_
  refine (meets_operand (.reg result)).bind fun dest _ => ?_
  refine (meets_instr _).bind fun _ _ => ?_
  refine (meets_instr _).bind fun _ _ => ?_
  refine (meets_nonImmediate hpool r).andThen fun divisor _ => ?_
  refine (meets_operand divisor).bind fun d _ => ?_
  exact meets_instr_pure ⟨rfl, rfl⟩

include hdiv in
theorem meets_expr : ∀ e : Expr, Meets t (Gen.expr t e) (e.demands t) (Value.Suits e)
  | .int _ _ => meets_pure ⟨rfl, rfl⟩
  | .bool _ true => meets_pure ⟨rfl, rfl⟩
  | .bool _ false => meets_pure ⟨rfl, rfl⟩
  | .var ref => (meets_cell (some ref)).andThen fun _ _ => meets_pure ⟨rfl, rfl⟩
  | .gap g => meets_reject _
  | .unary pos op x => by
    have hx : ∀ apply : Asm.Operand → Instr, Meets t (do
        let v ← Gen.expr t x
        let result ← Gen.intoRegister v
        Gen.instr (apply (← Gen.operand (.reg result)))
        return Value.reg result) (x.demands t ++ registerIf x.isAtom)
        (Value.Suits (.unary pos op x)) := by
      intro apply
      refine (meets_expr x).bind fun v hv => ?_
      rw [Expr.isAtom, ← hv.1, ← hv.2]
      refine (meets_intoRegister hpool v).andThen fun result _ => ?_
      exact (meets_operand _).bind fun o _ => meets_instr_pure ⟨rfl, rfl⟩
    cases op with
    | neg => exact hx _
    | not => exact hx _
    | other c => exact meets_reject _
  | .binary pos op l r => by
    have harith : ∀ arith, Meets t (do
        let left ← Gen.expr t l
        let right ← Gen.expr t r
        let result ← Gen.intoRegister left
        Gen.instr (.arith arith (← Gen.operand right) (← Gen.operand (.reg result)))
        return Value.reg result) (l.demands t ++ (r.demands t ++ registerIf l.isAtom))
        (Value.Suits (.binary pos op l r)) := by
      intro arith
      refine (meets_expr l).bind fun left hleft => (meets_expr r).bind fun right _ => ?_
      rw [Expr.isAtom, ← hleft.1, ← hleft.2]
      refine (meets_intoRegister hpool left).andThen fun result _ => ?_
      refine (meets_operand _).bind fun s _ => (meets_operand _).bind fun d _ => ?_
      exact meets_instr_pure ⟨rfl, rfl⟩
    cases op with
    | add | sub | mul => exact harith _
    | div =>
      refine (meets_expr l).bind fun left _ => (meets_expr r).bind fun right hright => ?_
      rw [← hright.1]
      exact meets_divide hpool hdiv left right
    | other c => exact meets_reject _

end Exprs

/-! ## Statements -/

section Stmts

variable (hpool : t.scratch.Nodup) (hdiv : t.dividendReg ∈ t.scratch)
  (hargs : 2 ≤ t.argRegs.length)

include hargs in
theorem argRegs_eq : ∃ formatReg valueReg rest, t.argRegs = formatReg :: valueReg :: rest := by
  match h : t.argRegs, hargs with
  | formatReg :: valueReg :: rest, _ => exact ⟨formatReg, valueReg, rest, rfl⟩

theorem meets_libraryCall (formatReg format function : String) :
    Meets t (Gen.libraryCall t formatReg format function) [] fun _ => True :=
  (meets_instr _).bind fun _ _ => (meets_instr _).bind fun _ _ => meets_instr _

include hargs in
theorem meets_readVars : ∀ refs : List (Option VarRef),
    Meets t (Gen.readVars t refs) (refs.flatMap (ofRef · .reference)) fun _ => True
  | [] => meets_pure trivial
  | ref :: refs => by
    have hread : Meets t (Gen.readVar t ref) (ofRef ref .reference) fun _ => True := by
      obtain ⟨formatReg, valueReg, rest, hregs⟩ := argRegs_eq hargs
      unfold Gen.readVar
      rw [hregs]
      refine (meets_cell ref).andThen fun c _ => ?_
      exact (meets_instr _).bind fun _ _ => meets_libraryCall _ _ _
    exact hread.bind fun _ _ => meets_readVars refs

include hpool hdiv hargs in
theorem meets_writeExprs : ∀ es : List Expr,
    Meets t (Gen.writeExprs t es) (es.flatMap (Expr.demands t)) fun _ => True
  | [] => meets_pure trivial
  | e :: es => by
    have hwrite : Meets t (Gen.writeExpr t e) (e.demands t) fun _ => True := by
      obtain ⟨formatReg, valueReg, rest, hregs⟩ := argRegs_eq hargs
      unfold Gen.writeExpr
      rw [hregs]
      refine (meets_expr hpool hdiv e).andThen fun v _ => ?_
      refine (meets_operand v).bind fun source _ => ?_
      exact (meets_instr _).bind fun _ _ => meets_libraryCall _ _ _
    exact hwrite.bind fun _ _ => meets_writeExprs es

theorem meets_assignTarget (target : Option VarRef) :
    Meets t (Gen.assignTarget target) (ofRef target (VarRef.missing target)) fun _ => True := by
  cases target with
  | none => exact meets_reject _
  | some ref => exact meets_cell (some ref)

include hpool hdiv in
theorem meets_assign (target : Option VarRef) (source : Expr) :
    Meets t (Gen.assign t target source)
      (source.demands t ++ (ofRef target (VarRef.missing target) ++ registerIf source.isVar))
      fun _ => True := by
  refine (meets_expr hpool hdiv source).bind fun v hv => ?_
  refine (meets_assignTarget target).bind fun c _ => ?_
  rw [← hv.2]
  refine (meets_stage hpool v).andThen fun v' _ => ?_
  exact (meets_operand v').bind fun o _ => meets_instr _

include hpool in
theorem meets_jumpIfFalse (v : Value) (label : String) :
    Meets t (Gen.jumpIfFalse v label) (registerIf v.isImm) fun _ => True := by
  refine (meets_nonImmediate hpool v).andThen fun v' _ => ?_
  refine (meets_operand v').bind fun o _ => ?_
  exact (meets_instr _).bind fun _ _ => meets_instr _

include hpool hdiv in
/-- A loop asks for what its condition and its body ask for. -/
theorem meets_loop {pos : Position} {cond : Expr} {body : Option Block} {ds : List Demand}
    (hbody : Meets t (Gen.blockOf t body) ds fun _ => True) :
    Meets t (Gen.stmt t (.loop pos cond body))
      (cond.demands t ++ (registerIf cond.isLiteral ++ (.release :: ds))) fun _ => True := by
  refine meets_drawLabel.bind fun top _ => meets_drawLabel.bind fun bottom _ => ?_
  refine (meets_line _).bind fun _ _ => ?_
  refine (meets_expr hpool hdiv cond).bind fun v hv => ?_
  rw [← hv.1]
  refine (meets_jumpIfFalse hpool v bottom).bind fun _ _ => ?_
  refine meets_freeAll.bind fun _ _ => ?_
  refine hbody.andThen fun _ _ => ?_
  exact (meets_instr _).bind fun _ _ => meets_line _

end Stmts

mutual

theorem meets_stmt (hpool : t.scratch.Nodup) (hdiv : t.dividendReg ∈ t.scratch)
    (hargs : 2 ≤ t.argRegs.length) :
    ∀ st : Stmt, Meets t (Gen.stmt t st) (st.demands t) fun _ => True
  | .block b => meets_block hpool hdiv hargs b
  | .decl _ => meets_pure trivial
  | .assign _ target source => meets_assign hpool hdiv target source
  | .read _ refs => meets_readVars hargs refs
  | .write _ es => meets_writeExprs hpool hdiv hargs es
  | .loop _ _ (some b) => meets_loop hpool hdiv (meets_block hpool hdiv hargs b)
  | .loop _ _ none => meets_loop hpool hdiv (meets_reject _)
  | .gap _ => meets_reject _

theorem meets_block (hpool : t.scratch.Nodup) (hdiv : t.dividendReg ∈ t.scratch)
    (hargs : 2 ≤ t.argRegs.length) :
    ∀ b : Block, Meets t (Gen.block t b) (b.demands t) fun _ => True
  | .mk _ ss => (meets_stmts hpool hdiv hargs ss).bind fun _ _ => meets_freeAll

theorem meets_stmts (hpool : t.scratch.Nodup) (hdiv : t.dividendReg ∈ t.scratch)
    (hargs : 2 ≤ t.argRegs.length) :
    ∀ ss : List Stmt, Meets t (Gen.stmts t ss) (Stmt.demandsOf t ss) fun _ => True
  | [] => meets_pure trivial
  | s :: ss =>
    (meets_stmt hpool hdiv hargs s).bind fun _ _ => meets_stmts hpool hdiv hargs ss

end

/-! ## Programs -/

section Programs

variable (hpool : t.scratch.Nodup) (hdiv : t.dividendReg ∈ t.scratch)
  (hargs : 2 ≤ t.argRegs.length)

/-- A session starts with all registers free. -/
theorem meets_restart : Meets t (Gen.restart t) [.release] fun _ => True :=
  fun s _ => ⟨(), { Session.start t with events := s.events }, rfl,
    Registers.counted_ofPool t.scratch, rfl, trivial⟩

theorem meets_report (e : Journal.Event) : Meets t (Gen.report e) [] fun _ => True :=
  fun s hs => ⟨(), { s with events := s.events.push e }, rfl, hs, rfl, trivial⟩

theorem meets_dataSection : Meets t (Gen.dataSection t) [] fun _ => True :=
  fun s hs => ⟨(), { s with lines := s.lines ++ Gen.dataLines t s.used }, rfl, hs, rfl, trivial⟩

include hpool hdiv hargs in
theorem meets_programBody (p : Program) :
    Meets t (Gen.programBody t p) (Program.demands t (some p)) fun _ => True := by
  have hblock : Meets t (Gen.blockOf t p.block) (Program.demands t (some p)) fun _ => True := by
    rcases p with ⟨pos, _ | b⟩
    · exact meets_reject _
    · exact meets_block hpool hdiv hargs b
  refine (meets_line _).bind fun _ _ => (meets_line _).bind fun _ _ => ?_
  refine (meets_line _).bind fun _ _ => (meets_instr _).bind fun _ _ => ?_
  refine hblock.andThen fun _ _ => ?_
  exact (meets_instr _).bind fun _ _ => meets_instr _

include hpool hdiv hargs in
theorem meets_program (p : Option Program) :
    Meets t (Gen.program t p) (.release :: Program.demands t p) fun _ => True := by
  refine meets_restart.bind fun _ _ => ?_
  cases p with
  | none => exact meets_reject _
  | some p =>
    refine (meets_report _).bind fun _ _ => ?_
    refine (meets_programBody hpool hdiv hargs p).andThen fun _ _ => ?_
    refine meets_dataSection.bind fun _ _ => ?_
    have hget : Meets t (get : Gen Session) [] fun _ => True :=
      fun s hs => ⟨s, s, rfl, hs, rfl, trivial⟩
    refine hget.bind fun s _ => ?_
    exact (meets_report _).bind fun _ _ => meets_pure trivial

include hpool hdiv hargs in
/-- Generation ends as serving the demands of the program does. -/
theorem generate_eq_serve (p : Option Program) :
    match serve t.scratch.length (Program.demands t p) 0 with
    | .ok _ => ∃ text, generate t p = .ok text
    | .error e => generate t p = .error e := by
  have h := meets_program hpool hdiv hargs p (.start t) (Registers.counted_ofPool t.scratch)
  rw [Demand.serve_release] at h
  unfold generate
  split at h
  · obtain ⟨text, s, hrun, -⟩ := h
    exact ⟨text, by rw [hrun]⟩
  · obtain ⟨s, hrun⟩ := h
    rw [hrun]

end Programs

end Meets

/-- A program has code exactly if it is of the language and never has more registers in use than
there are. A program without code is reported with what generation came upon first: a place that is
not of the language, or a register that was not to be had. -/
theorem generate_succeeds_iff {t : Target} (hpool : t.scratch.Nodup)
    (hdiv : t.dividendReg ∈ t.scratch) (hargs : 2 ≤ t.argRegs.length) (p : Option Program) :
    ((∃ text, generate t p = .ok text)
      ↔ ∃ q, p = some q ∧ q.wellFormed ∧ q.peak ≤ t.scratch.length)
    ∧ ∀ e, generate t p = .error e ↔ ∃ front d back k, Program.demands t p = front ++ d :: back
      ∧ serve t.scratch.length front 0 = .ok k ∧ meet t.scratch.length k d = .error e := by
  have h := generate_eq_serve hpool hdiv hargs p
  constructor
  · rw [← serve_program t]
    split at h
    · rename_i k hk
      exact ⟨fun _ => ⟨k, hk⟩, fun _ => h⟩
    · rename_i e he
      rw [h, he]
      simp
  · intro e
    rw [← Demand.serve_eq_error_iff]
    split at h
    · rename_i k hk
      obtain ⟨text, htext⟩ := h
      rw [htext, hk]
      simp
    · rename_i e' he
      rw [h, he]
      simp

/-- Writes a sum of `n + 1` terms that is nested to the right: each left term waits in a register
for the rest. -/
def rightSum (n : ℕ) : Program :=
  let term : Expr := .int ⟨1, 1⟩ 1
  ⟨⟨1, 1⟩, some (.mk ⟨1, 1⟩ [.write ⟨1, 1⟩ [n.repeat (.binary ⟨1, 1⟩ .add term) term]])⟩

/-- Six registers are enough for seven terms and not for eight. -/
theorem generate_succeeds_iff_rightSum :
    (∃ text, generate (.x86_64 .linux) (some (rightSum 6)) = .ok text)
      ∧ generate (.x86_64 .linux) (some (rightSum 7)) = .error (.exhausted ⟨6, none⟩) := by
  have h := generate_succeeds_iff (t := .x86_64 .linux) (by decide) (by decide) (by decide)
  constructor
  · exact (h (some (rightSum 6))).1.2 ⟨rightSum 6, rfl, by decide, by decide⟩
  · refine ((h (some (rightSum 7))).2 _).2 ?_
    exact ⟨List.replicate 6 (.register none), .register none, [.release], 6, by decide, rfl, rfl⟩

end WhileAsm.Lowering
