import WhileAsm.Proofs.Legible
import WhileAsm.Proofs.Machine

/-!
# Operands that an instruction can have

The processor has no instruction with two operands in memory and none that leaves its result in a
constant (`Instr.Legal`). Which registers an instruction names can be read off its text: they are
the words after a percent sign (`registersNamed`), if no other name has one and every name ends
where a word does (`Instr.registersNamed_text`).
-/

namespace WhileAsm.Asm

/-! ## Operands -/

/-- The operands of an instruction as they are written. The address of a cell is a constant, and no
operand. -/
def Instr.operands : Instr → List Operand
  | .move s d | .arith _ s d => [s, d]
  | .moveAddress _ r | .push r | .pop r => [.reg r]
  | .loadAddress x r => [.mem x, .reg r]
  | .clear r => [.reg r, .reg r]
  | .negate o | .divide o => [o]
  | .compare v o => [.imm v, o]
  | .signExtend | .jumpIfEqual _ | .jump _ | .call _ | .ret => []

/-- The operand that takes the result, if it is written. -/
def Instr.destination? : Instr → Option Operand
  | .move _ d | .arith _ _ d | .negate d => some d
  | .moveAddress _ r | .loadAddress _ r | .clear r | .pop r => some (.reg r)
  | _ => none

structure Instr.Legal (i : Instr) : Prop where
  memory : i.operands.countP Operand.isMem ≤ 1
  destination : ∀ d, i.destination? = some d → d.isImm = false
  arith : ∀ op s d, i = .arith op s d → d.isReg
  negate : ∀ d, i = .negate d → d.isReg
  divide : ∀ d, i = .divide d → d.isImm = false
  compare : ∀ v d, i = .compare v d → d.isImm = false

/-- What is to be checked of an instruction so that its operands are legal. -/
def Instr.wellShaped : Instr → Bool
  | .move s d => !(s.isMem && d.isMem) && !d.isImm
  | .arith _ _ d | .negate d => d.isReg
  | .divide d | .compare _ d => !d.isImm
  | _ => true

theorem Instr.memory_of_wellShaped {i : Instr} (h : i.wellShaped) :
    i.operands.countP Operand.isMem ≤ 1 := by
  cases i with
  | move s d =>
    cases s <;> cases d <;> simp_all [wellShaped, operands, Operand.isMem, List.countP_cons]
  | arith op s d =>
    cases s <;> cases d <;>
      simp_all [wellShaped, operands, Operand.isReg, Operand.isMem, List.countP_cons]
  | compare v d => cases d <;> simp [operands, Operand.isMem, List.countP_cons]
  | clear r => simp [operands, Operand.isMem]
  | loadAddress x r => simp [operands, Operand.isMem, List.countP_cons]
  | _ => exact List.countP_le_length.trans (by simp [operands])

theorem Instr.legal_of_wellShaped {i : Instr} (h : i.wellShaped) : i.Legal where
  memory := memory_of_wellShaped h
  destination d hd := by
    cases i with
    | move s o =>
      cases hd
      simp_all [wellShaped]
    | arith | negate =>
      cases hd
      cases d <;> simp_all [wellShaped, Operand.isReg, Operand.isImm]
    | moveAddress | loadAddress | clear | pop =>
      cases hd
      rfl
    | _ => cases hd
  arith _ _ _ hi := by
    subst hi
    exact h
  negate _ hi := by
    subst hi
    exact h
  divide _ hi := by
    subst hi
    simpa [wellShaped] using h
  compare _ _ hi := by
    subst hi
    simpa [wellShaped] using h

/-! ## Registers in a text -/

def namedIn : List Char → List (List Char)
  | [] => []
  | c :: cs => if c = '%' then cs.takeWhile isWordChar :: namedIn cs else namedIn cs

def registersNamed (text : String) : List String := (namedIn text.toList).map String.ofList

theorem namedIn_of_notMem {cs : List Char} (h : '%' ∉ cs) : namedIn cs = [] := by
  induction cs with
  | nil => rfl
  | cons c cs ih =>
    rw [List.mem_cons, not_or] at h
    rw [namedIn, if_neg (Ne.symm h.1), ih h.2]

theorem takeWhile_append_of_ends {a b : List Char} (hb : WordEnds b) :
    (a ++ b).takeWhile isWordChar = a.takeWhile isWordChar := by
  induction a with
  | nil =>
    cases b with
    | nil => rfl
    | cons c b => simp [hb c rfl]
  | cons c a ih => simp only [List.cons_append, List.takeWhile_cons, ih]

/-- A text may be cut where no word goes on. -/
theorem namedIn_append {a b : List Char} (hb : WordEnds b) :
    namedIn (a ++ b) = namedIn a ++ namedIn b := by
  induction a with
  | nil => rfl
  | cons c a ih =>
    simp only [List.cons_append, namedIn, ih, takeWhile_append_of_ends hb]
    split_ifs <;> rfl

theorem wordEnds_args (args : List String) :
    WordEnds (args.flatMap fun b => [',', ' '] ++ b.toList) := by
  cases args with
  | nil => simp [WordEnds]
  | cons b args => exact wordEnds_cons (by decide)

theorem namedIn_args (args : List String) :
    namedIn (args.flatMap fun b => [',', ' '] ++ b.toList)
      = args.flatMap fun b => namedIn b.toList := by
  induction args with
  | nil => rfl
  | cons b args ih =>
    rw [List.flatMap_cons, List.flatMap_cons, namedIn_append (wordEnds_args args), ih]
    rfl

theorem registersNamed_instrText {mnemonic : String} (h : '%' ∉ mnemonic.toList)
    (args : List String) :
    registersNamed (instrText mnemonic args) = args.flatMap registersNamed := by
  have hfront : namedIn ('\t' :: mnemonic.toList) = [] := namedIn_of_notMem (by simpa using h)
  cases args with
  | nil =>
    have htext : (instrText mnemonic []).toList = '\t' :: mnemonic.toList := by simp [instrText]
    rw [registersNamed, htext, hfront]
    rfl
  | cons a args =>
    have hjoin : (", ".intercalate ((a :: args).map id)).toList
        = a.toList ++ args.flatMap fun b => [',', ' '] ++ b.toList :=
      toList_intercalate_cons a args
    rw [List.map_id] at hjoin
    have htext : (instrText mnemonic (a :: args)).toList = ('\t' :: mnemonic.toList)
        ++ ('\t' :: (a.toList ++ args.flatMap fun b => [',', ' '] ++ b.toList)) := by
      simp [instrText, hjoin]
    rw [registersNamed, htext, namedIn_append (wordEnds_cons (by decide)), hfront, List.nil_append,
      namedIn, if_neg (by decide), namedIn_append (wordEnds_args args), namedIn_args,
      List.map_append, List.map_flatMap]
    rfl

theorem registersNamed_of_notMem {x : String} (h : '%' ∉ x.toList) : registersNamed x = [] := by
  rw [registersNamed, namedIn_of_notMem h]
  rfl

theorem registersNamed_registerText {r : String} (h : ∀ c ∈ r.toList, isWordChar c) :
    registersNamed (registerText r) = [r] := by
  have hsign : '%' ∉ r.toList := fun hr => absurd (h _ hr) (by decide)
  have htext : (registerText r).toList = '%' :: r.toList := by simp [registerText]
  have hword : r.toList.takeWhile isWordChar = r.toList := by
    simpa using takeWhile_append_of_wordEnds (r := []) h (by simp [WordEnds])
  rw [registersNamed, htext, namedIn, if_pos rfl, namedIn_of_notMem hsign, hword]
  simp

theorem registersNamed_relativeText {x : String} (h : '%' ∉ x.toList) :
    registersNamed (relativeText x) = ["rip"] := by
  have htext : (relativeText x).toList = x.toList ++ ['(', '%', 'r', 'i', 'p', ')'] := by
    simp [relativeText]
  rw [registersNamed, htext, namedIn_append (wordEnds_cons (by decide)), namedIn_of_notMem h]
  decide

theorem notMem_toDigits (n : ℕ) : '%' ∉ Nat.toDigits 10 n :=
  fun h => absurd ((isWord_toDigits n).chars _ h) (by decide)

theorem notMem_toString_int (v : ℤ) : '%' ∉ (toString v).toList := by
  rw [toList_toString_int]
  split_ifs
  · simpa using notMem_toDigits v.natAbs
  · exact notMem_toDigits v.natAbs

/-! ## Registers of an instruction -/

def Operand.register? : Operand → Option String
  | .reg r => some r
  | _ => none

/-- The registers that an instruction names. The address of a label is relative to one. -/
def Instr.registers : Instr → List String
  | .loadAddress _ r => ["rip", r]
  | i => i.operands.filterMap Operand.register?

/-- The text of an operand shows where a name in it ends. -/
def Operand.Spelt : Operand → Prop
  | .imm _ => True
  | .reg r => ∀ c ∈ r.toList, isWordChar c
  | .mem x => '%' ∉ x.toList

/-- The names in an instruction that are not operands. -/
def Instr.labels : Instr → List String
  | .moveAddress x _ | .jumpIfEqual x | .jump x | .call x => [x]
  | _ => []

structure Instr.Spelt (i : Instr) : Prop where
  operands : ∀ o ∈ i.operands, o.Spelt
  labels : ∀ x ∈ i.labels, '%' ∉ x.toList

theorem Operand.registersNamed_text {o : Operand} (h : o.Spelt) :
    registersNamed o.text = o.register?.toList := by
  cases o with
  | imm v =>
    refine registersNamed_of_notMem ?_
    simpa [Operand.text] using notMem_toString_int v.toInt
  | reg r => exact registersNamed_registerText h
  | mem x => exact registersNamed_of_notMem h

theorem registersNamed_operands {mnemonic : String} (h : '%' ∉ mnemonic.toList) (os : List Operand)
    (hos : ∀ o ∈ os, o.Spelt) :
    registersNamed (instrText mnemonic (os.map Operand.text))
      = os.filterMap Operand.register? := by
  rw [registersNamed_instrText h]
  clear h
  induction os with
  | nil => rfl
  | cons o os ih =>
    rw [List.map_cons, List.flatMap_cons, ih fun o' ho' => hos o' (List.mem_cons_of_mem _ ho'),
      Operand.registersNamed_text (hos o List.mem_cons_self), List.filterMap_cons]
    cases o.register? <;> rfl

theorem Instr.registersNamed_text {i : Instr} (h : i.Spelt) :
    registersNamed i.text = i.registers := by
  cases i with
  | move s d => exact registersNamed_operands (by decide) [s, d] h.operands
  | clear r => exact registersNamed_operands (by decide) [.reg r, .reg r] h.operands
  | arith op s d =>
    have hop : '%' ∉ op.mnemonic.toList := by cases op <;> decide
    exact registersNamed_operands hop [s, d] h.operands
  | negate o | divide o => exact registersNamed_operands (by decide) [o] h.operands
  | compare v o => exact registersNamed_operands (by decide) [.imm v, o] h.operands
  | push r | pop r => exact registersNamed_operands (by decide) [.reg r] h.operands
  | signExtend | ret => exact registersNamed_operands (by decide) [] h.operands
  | moveAddress x r =>
    have hr := registersNamed_registerText (h.operands (.reg r) (by simp [operands]))
    have hx : '%' ∉ (addressText x).toList := by
      simpa [addressText] using h.labels x (by simp [labels])
    rw [text, registersNamed_instrText (by decide)]
    simp [registersNamed_of_notMem hx, hr, registers, operands, Operand.register?]
  | loadAddress x r =>
    have hr := registersNamed_registerText (h.operands (.reg r) (by simp [operands]))
    have hx := registersNamed_relativeText (h.operands (.mem x) (by simp [operands]))
    rw [text, registersNamed_instrText (by decide)]
    simp [hx, hr, registers]
  | jumpIfEqual x | call x =>
    rw [text, registersNamed_instrText (by decide)]
    simp [registersNamed_of_notMem (h.labels x (by simp [labels])), registers, operands]
  | jump x =>
    rw [text, jumpText, registersNamed_instrText (by decide)]
    simp [registersNamed_of_notMem (h.labels x (by simp [labels])), registers, operands]

end WhileAsm.Asm
