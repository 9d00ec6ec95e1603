import WhileAsm.Proofs.Acceptance
import WhileAsm.Proofs.Listings

/-!
# Constants that an instruction has to encode

Only a move to a register has room for a constant of 64 bits; every other instruction extends one of
32 bits (`Instr.shortImmediates`). A literal is answered as a constant, and the instruction that
uses it is known from the tree: an assigned literal is moved to memory, the right operand of a sum,
a difference or a product goes into the operation, and all others go through a register. So the
short constants of a listing are those of its program, in the same order (`shorts_block`), and a
listing can be encoded exactly if they are small enough (`generate_encodable_iff`). Nothing sees to
that: a document may assign a literal that is not (`generate_wide_literal`).
-/

namespace WhileAsm

namespace Asm

def Operand.constant? : Operand → Option Int64
  | .imm v => some v
  | _ => none

/-- The constants of an instruction that are encoded in 32 bits. -/
def Instr.shortImmediates : Instr → List Int64
  | .move _ (.reg _) => []
  | i => i.operands.filterMap Operand.constant?

def Line.shortImmediates : Line → List Int64
  | .instr i => i.shortImmediates
  | _ => []

/-- A constant that 32 bits extend to. -/
def FitsShort (v : Int64) : Prop := -2 ^ 31 ≤ v.toInt ∧ v.toInt < 2 ^ 31

instance (v : Int64) : Decidable (FitsShort v) := inferInstanceAs (Decidable (_ ∧ _))

end Asm

/-! ## Constants of a tree -/

def Expr.literal? : Expr → Option Int64
  | .int _ v => some v
  | .bool _ true => some 1
  | .bool _ false => some 0
  | _ => none

/-- The constants that the operations of an expression take as they are: the right operand of a sum,
a difference or a product, and the one that negates a truth value. -/
def Expr.immediates : Expr → List Int64
  | .unary _ .not x => x.immediates ++ [1]
  | .unary _ _ x => x.immediates
  | .binary _ .div l r => l.immediates ++ r.immediates
  | .binary _ _ l r => l.immediates ++ (r.immediates ++ r.literal?.toList)
  | _ => []

mutual

/-- The constants that a statement takes as they are: a literal that is assigned, and the zero that
a condition is compared with. -/
def Stmt.immediates : Stmt → List Int64
  | .block b => b.immediates
  | .assign _ _ source => source.immediates ++ source.literal?.toList
  | .write _ es => es.flatMap Expr.immediates
  | .loop _ cond (some b) => cond.immediates ++ (0 :: b.immediates)
  | _ => []

def Block.immediates : Block → List Int64
  | .mk _ ss => Stmt.immediatesOf ss

def Stmt.immediatesOf : List Stmt → List Int64
  | [] => []
  | s :: ss => s.immediates ++ Stmt.immediatesOf ss

end

def Program.immediates (p : Program) : List Int64 := (p.block.map Block.immediates).getD []

namespace Lowering

open Asm (FitsShort Instr Line Operand Target)

/-! ## Constants in the code -/

def Session.shorts (s : Session) : List Int64 := s.code.flatMap Line.shortImmediates

def Value.constant? : Value → Option Int64
  | .imm v => some v
  | _ => none

def Moves (is : List Instr) : Prop := ∀ i ∈ is, ∃ o x, i = .move o (.reg x)

theorem Moves.shorts {is : List Instr} (h : Moves is) : is.flatMap Instr.shortImmediates = [] := by
  rw [List.flatMap_eq_nil_iff]
  intro i hi
  obtain ⟨o, x, rfl⟩ := h i hi
  rfl

section Registers

variable {r : Registers} {v : Value}

theorem constant?_operand (r : Registers) (v : Value) : (r.operand v).constant? = v.constant? := by
  cases v <;> rfl

theorem moves_load {st : Step Handle} (h : r.load v = .ok st) : Moves st.instrs := by
  obtain ⟨f, -, rfl⟩ := Registers.map_eq_ok (x := r.fresh) h
  intro i hi
  exact ⟨_, _, List.mem_singleton.1 hi⟩

theorem moves_bind {name : String} {st : Step Handle} (h : r.bind name = .ok st) :
    Moves st.instrs := by
  unfold Registers.bind at h
  split at h
  · cases h
    simp [Moves]
  · split at h
    · cases h
    · cases h
      intro i hi
      exact ⟨_, _, List.mem_singleton.1 hi⟩

theorem moves_nonImmediate {st : Step Value} (h : r.nonImmediate v = .ok st) :
    Moves st.instrs ∧ st.result.constant? = none := by
  cases v with
  | imm w =>
    obtain ⟨f, hl, rfl⟩ := Registers.map_eq_ok (x := r.load (.imm w)) h
    exact ⟨moves_load hl, rfl⟩
  | cell x =>
    cases h
    exact ⟨by simp [Moves], rfl⟩
  | reg k =>
    cases h
    exact ⟨by simp [Moves], rfl⟩

end Registers

section Steps

variable {t : Target} {s s' : Session} {v w : Value}

theorem shorts_push (s : Session) (l : Line) :
    (s.push l).shorts = s.shorts ++ l.shortImmediates := by
  simp [Session.shorts]

theorem shorts_of_code (h : s'.code = s.code) : s'.shorts = s.shorts := by
  rw [Session.shorts, h, Session.shorts]

theorem Emits.shorts {is : List Instr} (h : Emits s s' is) :
    s'.shorts = s.shorts ++ is.flatMap Instr.shortImmediates := by
  rw [Session.shorts, h.code, List.flatMap_append, List.flatMap_map]
  rfl

theorem shorts_commit {α : Type} {st : Step α} (h : Moves st.instrs) :
    (s.commit st).shorts = s.shorts := by
  rw [(Emits.commit s st).shorts, h.shorts, List.append_nil]

theorem shorts_cell {ref : Option VarRef} {x : String} (h : (Gen.cell ref).run s = .ok x s') :
    s'.shorts = s.shorts := by
  obtain ⟨-, -, -, -, -, -, hcode, -⟩ := Gen.run_cell_ok h
  exact shorts_of_code hcode

theorem shorts_intoRegister {k : Handle} (h : (Gen.intoRegister v).run s = .ok k s') :
    s'.shorts = s.shorts := by
  unfold Gen.intoRegister at h
  split at h
  · cases h
    rfl
  · obtain ⟨st, hst, rfl, rfl⟩ := Gen.run_load_ok h
    exact shorts_commit (moves_load hst)

theorem shorts_divide {l r : Value} (h : (Gen.divide t l r).run s = .ok v s') :
    s'.shorts = s.shorts ∧ v.constant? = none := by
  obtain ⟨st, st', hst, hst', rfl, -, hem⟩ := run_divide_ok h
  obtain ⟨hmoves, hresult⟩ := moves_nonImmediate hst'
  refine ⟨?_, rfl⟩
  have hdivide : (Instr.divide (st'.registers.operand st'.result)).shortImmediates = [] := by
    simp [Instr.shortImmediates, Instr.operands, constant?_operand, hresult]
  have hmove : (Instr.move (st.registers.operand l)
      (st.registers.operand (.reg st.result))).shortImmediates = [] := rfl
  have hextend : Instr.signExtend.shortImmediates = [] := rfl
  rw [hem.shorts]
  simp [(moves_bind hst).shorts, hmoves.shorts, hdivide, hmove, hextend]

theorem shorts_arith (op : Asm.ArithOp) (r : Registers) (v : Value) (k : Handle) :
    (Line.instr (.arith op (r.operand v) (r.operand (.reg k)))).shortImmediates
      = v.constant?.toList := by
  cases v <;> rfl

theorem shorts_compare (v : Int64) {o : Operand} (h : o.constant? = none) :
    (Instr.compare v o).shortImmediates = [v] := by
  cases o with
  | imm w => cases h
  | _ => rfl

/-- What the code of an expression adds, and whether it is answered with a constant. -/
theorem shorts_expr : ∀ (e : Expr) {s s' : Session} {v : Value},
    (Gen.expr t e).run s = .ok v s' →
      s'.shorts = s.shorts ++ e.immediates ∧ v.constant? = e.literal?
  | .int _ w, s, s', v, h => by
    cases h
    simp [Expr.immediates, Expr.literal?, Value.constant?]
  | .bool _ true, s, s', v, h => by
    cases h
    simp [Expr.immediates, Expr.literal?, Value.constant?]
  | .bool _ false, s, s', v, h => by
    cases h
    simp [Expr.immediates, Expr.literal?, Value.constant?]
  | .var ref, s, s', v, h => by
    rw [Gen.expr] at h
    obtain ⟨x, s₁, hcell, hret⟩ := Gen.run_bind_ok.1 h
    cases hret
    simp [Expr.immediates, Expr.literal?, Value.constant?, shorts_cell hcell]
  | .unary pos op x, s, s', v, h => by
    rw [Gen.expr] at h
    split at h
    · cases h
    · rename_i f hop
      obtain ⟨v₁, s₁, hx, h⟩ := Gen.run_bind_ok.1 h
      obtain ⟨k, s₂, hk, h⟩ := Gen.run_bind_ok.1 h
      simp only [Gen.run_operand_bind, Gen.run_instr_bind] at h
      cases h
      obtain ⟨hs₁, -⟩ := shorts_expr x hx
      refine ⟨?_, rfl⟩
      rw [shorts_push, shorts_intoRegister hk, hs₁, List.append_assoc]
      cases op with
      | neg =>
        cases hop
        exact congrArg (s.shorts ++ ·) (List.append_nil _)
      | not =>
        cases hop
        rfl
      | other _ => cases hop
  | .binary pos op l r, s, s', v, h => by
    by_cases hop : op = .div
    · subst hop
      rw [Gen.expr] at h
      obtain ⟨v₁, s₁, hl, h⟩ := Gen.run_bind_ok.1 h
      obtain ⟨v₂, s₂, hr, h⟩ := Gen.run_bind_ok.1 h
      obtain ⟨hs₁, -⟩ := shorts_expr l hl
      obtain ⟨hs₂, -⟩ := shorts_expr r hr
      obtain ⟨hs₃, hv⟩ := shorts_divide h
      exact ⟨by rw [hs₃, hs₂, hs₁, Expr.immediates, List.append_assoc], hv⟩
    · rw [Gen.expr] at h
      · split at h
        · cases h
        · rename_i arith harith
          obtain ⟨v₁, s₁, hl, h⟩ := Gen.run_bind_ok.1 h
          obtain ⟨v₂, s₂, hr, h⟩ := Gen.run_bind_ok.1 h
          obtain ⟨k, s₃, hk, h⟩ := Gen.run_bind_ok.1 h
          simp only [Gen.run_operand_bind, Gen.run_instr_bind] at h
          cases h
          obtain ⟨hs₁, -⟩ := shorts_expr l hl
          obtain ⟨hs₂, hv₂⟩ := shorts_expr r hr
          refine ⟨?_, rfl⟩
          rw [shorts_push, shorts_intoRegister hk, hs₂, hs₁, List.append_assoc, List.append_assoc,
            shorts_arith, hv₂, Expr.immediates]
          exact hop
      · exact hop
  | .gap g, s, s', v, h => by cases h

theorem shorts_assign {target : Option VarRef} {source : Expr}
    (h : (Gen.assign t target source).run s = .ok () s') :
    s'.shorts = s.shorts ++ (source.immediates ++ source.literal?.toList) := by
  unfold Gen.assign at h
  obtain ⟨v, s₁, hv, h⟩ := Gen.run_bind_ok.1 h
  obtain ⟨x, s₂, hx, h⟩ := Gen.run_bind_ok.1 h
  obtain ⟨w, s₃, hw, h⟩ := Gen.run_bind_ok.1 h
  rw [Gen.run_operand_bind, Gen.run_instr] at h
  cases h
  obtain ⟨hs₁, hv₁⟩ := shorts_expr source hv
  have hs₂ : s₂.shorts = s₁.shorts := by
    cases target with
    | none => cases hx
    | some ref => exact shorts_cell hx
  obtain ⟨hs₃, hw₃⟩ : s₃.shorts = s₂.shorts ∧ w.constant? = v.constant? := by
    unfold Gen.stage at hw
    split at hw
    · obtain ⟨k, s₄, hk, hret⟩ := Gen.run_bind_ok.1 hw
      cases hret
      obtain ⟨st, hst, rfl, rfl⟩ := Gen.run_load_ok hk
      exact ⟨shorts_commit (moves_load hst), rfl⟩
    · cases hw
      exact ⟨rfl, rfl⟩
  have hmove : (Line.instr (.move (s₃.registers.operand w) (.mem x))).shortImmediates
      = w.constant?.toList := by
    cases w <;> rfl
  rw [shorts_push, hmove, hs₃, hs₂, hs₁, hw₃, hv₁, List.append_assoc]

theorem shorts_libraryCall {formatReg format f : String}
    (h : (Gen.libraryCall t formatReg format f).run s = .ok () s') : s'.shorts = s.shorts := by
  simp only [Gen.libraryCall, Gen.run_instr_bind, Gen.run_instr] at h
  cases h
  simp [shorts_push, Line.shortImmediates, Instr.shortImmediates, Instr.operands, Operand.constant?]

theorem shorts_readVars : ∀ (refs : List (Option VarRef)) {s s' : Session},
    (Gen.readVars t refs).run s = .ok () s' → s'.shorts = s.shorts
  | [], s, s', h => by
    cases h
    rfl
  | ref :: refs, s, s', h => by
    rw [Gen.readVars] at h
    obtain ⟨_, s₁, href, hrefs⟩ := Gen.run_bind_ok.1 h
    rw [shorts_readVars refs hrefs]
    unfold Gen.readVar at href
    obtain ⟨x, s₂, hx, href⟩ := Gen.run_bind_ok.1 href
    split at href
    · rw [Gen.run_instr_bind] at href
      rw [shorts_libraryCall href, shorts_push, shorts_cell hx]
      exact List.append_nil _
    · cases href

theorem shorts_writeExprs : ∀ (es : List Expr) {s s' : Session},
    (Gen.writeExprs t es).run s = .ok () s' → s'.shorts = s.shorts ++ es.flatMap Expr.immediates
  | [], s, s', h => by
    cases h
    simp
  | e :: es, s, s', h => by
    rw [Gen.writeExprs] at h
    obtain ⟨_, s₁, he, hes⟩ := Gen.run_bind_ok.1 h
    rw [shorts_writeExprs es hes, List.flatMap_cons, ← List.append_assoc]
    unfold Gen.writeExpr at he
    obtain ⟨v, s₂, hv, he⟩ := Gen.run_bind_ok.1 he
    split at he
    · rw [Gen.run_operand_bind, Gen.run_instr_bind] at he
      rw [shorts_libraryCall he, shorts_push, (shorts_expr e hv).1]
      exact congrArg (· ++ _) (List.append_nil _)
    · cases he

theorem shorts_freeAll (s : Session) : (s.commit s.registers.freeAll).shorts = s.shorts :=
  shorts_commit (by simp [Moves, Registers.freeAll])

mutual

/-- The short constants of a statement's code are those of the statement. -/
theorem shorts_stmt : ∀ (st : Stmt) {s s' : Session}, (Gen.stmt t st).run s = .ok () s' →
    s'.shorts = s.shorts ++ st.immediates
  | .block b, s, s', h => by
    rw [Gen.stmt] at h
    rw [Stmt.immediates, shorts_block b h]
  | .decl d, s, s', h => by
    cases h
    simp [Stmt.immediates]
  | .assign pos target source, s, s', h => by
    rw [Gen.stmt] at h
    rw [Stmt.immediates, shorts_assign h]
  | .read pos refs, s, s', h => by
    rw [Gen.stmt] at h
    rw [Stmt.immediates, shorts_readVars refs h, List.append_nil]
    all_goals simp
  | .write pos es, s, s', h => by
    rw [Gen.stmt] at h
    rw [Stmt.immediates, shorts_writeExprs es h]
  | .loop pos cond none, s, s', h => by
    obtain ⟨v, s₁, st, s₂, hv, hst, hb, rfl⟩ := run_loop_ok h
    cases hb
  | .loop pos cond (some b), s, s', h => by
    obtain ⟨v, s₁, st, s₂, hv, hst, hb, rfl⟩ := run_loop_ok h
    rw [Gen.blockOf] at hb
    obtain ⟨hmoves, hresult⟩ := moves_nonImmediate hst
    have htest : (s₁.loopBody st (labelAt (s.labels + 1))).shorts = s₁.shorts ++ [0] := by
      have hcompare := shorts_compare 0 ((constant?_operand st.registers st.result).trans hresult)
      have hjump : (Instr.jumpIfEqual (labelAt (s.labels + 1))).shortImmediates = [] := rfl
      rw [(Emits.loopBody s₁ st _).shorts]
      simp [hmoves.shorts, hcompare, hjump]
    have hhead : s.loopHead.shorts = s.shorts := by
      rw [Session.loopHead, shorts_push]
      exact List.append_nil _
    rw [Session.loopEnd, shorts_push, shorts_push, shorts_block b hb, htest,
      (shorts_expr cond hv).1, hhead, Stmt.immediates]
    simp [Line.shortImmediates, Instr.shortImmediates, Instr.operands]
  | .gap g, s, s', h => by cases h

theorem shorts_block : ∀ (b : Block) {s s' : Session}, (Gen.block t b).run s = .ok () s' →
    s'.shorts = s.shorts ++ b.immediates
  | .mk pos ss, s, s', h => by
    rw [Gen.block] at h
    obtain ⟨_, s₁, hss, h⟩ := Gen.run_bind_ok.1 h
    cases h
    rw [Block.immediates, ← shorts_stmts ss hss]
    exact shorts_freeAll s₁

theorem shorts_stmts : ∀ (ss : List Stmt) {s s' : Session}, (Gen.stmts t ss).run s = .ok () s' →
    s'.shorts = s.shorts ++ Stmt.immediatesOf ss
  | [], s, s', h => by
    cases h
    simp [Stmt.immediatesOf]
  | st :: ss, s, s', h => by
    rw [Gen.stmts] at h
    obtain ⟨_, s₁, hst, hss⟩ := Gen.run_bind_ok.1 h
    rw [Stmt.immediatesOf, shorts_stmts ss hss, shorts_stmt st hst, List.append_assoc]

end

end Steps

/-- The short constants of a listing are those of its program. -/
theorem immediates_of_generate {t : Target} {p : Program} {text : String}
    (h : generate t (some p) = .ok text) :
    ∃ s, generated t (some p) = .ok s ∧ text = Asm.listingText s.code
      ∧ s.code.flatMap Line.shortImmediates = p.immediates := by
  obtain ⟨b, s₁, s, hblock, hrun, hgen, htext, hcode, -⟩ := generate_ok h
  have hdata : (epilogue t s₁.used).flatMap Line.shortImmediates = [] := by
    simp [epilogue, Gen.dataLines, Line.shortImmediates, Instr.shortImmediates, Instr.operands,
      Operand.constant?, List.flatMap_map]
  refine ⟨s, hgen, htext, ?_⟩
  rw [hcode, List.flatMap_append, hdata, List.append_nil]
  simp only [Program.immediates, hblock]
  exact shorts_block b hrun

/-- The constants of a listing that are encoded in 32 bits are the literals of its program that are
assigned or are the right operand of a sum, a difference or a product, with a one for each truth
value that is negated and a zero for each condition. The listing can be encoded exactly if all of
them are numbers of 32 bits. -/
theorem generate_encodable_iff {os : Asm.OS} {p : Program} {text : String}
    (h : generate (.x86_64 os) (some p) = .ok text) :
    ∃ s, generated (.x86_64 os) (some p) = .ok s ∧ text = Asm.listingText s.code
      ∧ Asm.readListing text = some s.code
      ∧ s.code.flatMap Line.shortImmediates = p.immediates
      ∧ ((∀ i, .instr i ∈ s.code → ∀ v ∈ i.shortImmediates, FitsShort v)
        ↔ ∀ v ∈ p.immediates, FitsShort v) := by
  obtain ⟨s, hgen, htext, hshorts⟩ := immediates_of_generate h
  refine ⟨s, hgen, htext, read_generate h hgen, hshorts, ?_⟩
  rw [← hshorts]
  constructor
  · intro hfit v hv
    obtain ⟨l, hl, hv⟩ := List.mem_flatMap.1 hv
    cases l with
    | instr i => exact hfit i hl v hv
    | _ => cases hv
  · intro hfit i hi v hv
    exact hfit v (List.mem_flatMap.2 ⟨_, hi, hv⟩)

theorem generate_encodable_iff_countdown :
    ∃ text s, generate (.x86_64 .linux) (some countdown) = .ok text
      ∧ generated (.x86_64 .linux) (some countdown) = .ok s
      ∧ Asm.readListing text = some s.code
      ∧ s.code.flatMap Line.shortImmediates = [0, 2, 1]
      ∧ ∀ i, .instr i ∈ s.code → ∀ v ∈ i.shortImmediates, FitsShort v := by
  have hok : (generate (.x86_64 .linux) (some countdown)).isOk := by decide +kernel
  have himm : countdown.immediates = [0, 2, 1] := rfl
  cases hgen : generate (.x86_64 .linux) (some countdown) with
  | error e =>
    rw [hgen] at hok
    cases hok
  | ok text =>
    obtain ⟨s, hs, -, hread, hshorts, hiff⟩ := generate_encodable_iff hgen
    rw [himm] at hshorts hiff
    refine ⟨text, s, rfl, hs, hread, hshorts, hiff.2 ?_⟩
    rw [← List.forall_iff_forall_mem]
    exact ⟨by decide, by decide, by decide⟩

/-- Assigns the smallest number that is too large. -/
def wideLiteral : String :=
  "declarations:\n- name: x\n  type: int\nstatements:\n- assign:\n    target: x\n" ++
    "    source:\n      int: 2147483648\n"

/-- A document that loads, and whose listing has a constant that no instruction of its kind can
encode. -/
theorem generate_wide_literal :
    ∃ p text s, load wideLiteral.toUTF8 = .ok p ∧ generate (.x86_64 .linux) (some p) = .ok text
      ∧ generated (.x86_64 .linux) (some p) = .ok s ∧ text = Asm.listingText s.code
      ∧ Asm.readListing text = some s.code
      ∧ ∃ i, .instr i ∈ s.code ∧ ∃ v ∈ i.shortImmediates, ¬ FitsShort v := by
  have hload : (load wideLiteral.toUTF8).toOption.map (fun p => (p.immediates, p.peak))
      = some ([2147483648], 0) := by decide +kernel
  cases hp : load wideLiteral.toUTF8 with
  | error e =>
    rw [hp] at hload
    cases hload
  | ok p =>
    rw [hp] at hload
    obtain ⟨himm, hpeak⟩ := Prod.mk.inj (Option.some.inj hload)
    have hgen := generate_of_wellFormed (t := .x86_64 .linux) (by decide) (by decide) (by decide)
      (wellFormed_of_load hp)
    rcases hgen with ⟨-, text, htext⟩ | ⟨hlt, -⟩
    · obtain ⟨s, hs, hlisting, hshorts⟩ := immediates_of_generate htext
      have hmem : (2147483648 : Int64) ∈ s.code.flatMap Line.shortImmediates := by
        rw [hshorts, himm]
        exact List.mem_singleton_self _
      obtain ⟨l, hl, hv⟩ := List.mem_flatMap.1 hmem
      cases l with
      | instr i =>
        exact ⟨p, text, s, rfl, htext, hs, hlisting, read_generate htext hs, i, hl, _, hv,
          by decide⟩
      | _ => cases hv
    · have hpool : (Target.x86_64 .linux).scratch.length = 6 := rfl
      omega

end Lowering

end WhileAsm
