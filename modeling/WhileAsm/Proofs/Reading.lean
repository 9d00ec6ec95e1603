import WhileAsm.Proofs.Operands

/-!
# Listings read back from their text

What the text of a listing says is told by a reader of its own (`readListing`): lines end with a
line feed, the fields of a line are separated by tabs and the arguments of an instruction by commas.
A listing is read back as it was written (`readListing_listingText`), if every name in it is one
(`Line.Legible`). Each part of a line is written with characters other than the ones that separate
it from the next (`IsArgument`), so a text is cut where it was joined.
-/

namespace WhileAsm.Asm

/-! ## A reader of listings -/

/-- A name has letters, digits and underscores, and does not start with a digit. -/
def isName : List Char → Bool
  | [] => false
  | c :: cs => !c.isDigit && (c :: cs).all isWordChar

def readName (cs : List Char) : Option String :=
  if isName cs then some (.ofList cs) else none

def readNumber (cs : List Char) : Option ℕ :=
  if !cs.isEmpty && cs.all Char.isDigit then some (Nat.ofDigitChars 10 cs 0) else none

/-- A number of 64 bits with its sign. -/
def toWord (v : ℤ) : Option Int64 :=
  if -2 ^ 63 ≤ v ∧ v < 2 ^ 63 then some (.ofInt v) else none

def readInteger : List Char → Option Int64
  | '-' :: cs => (readNumber cs).bind fun n => toWord (-n)
  | cs => (readNumber cs).bind fun n => toWord n

def readRegister : List Char → Option String
  | '%' :: cs => readName cs
  | _ => none

/-- A constant with a dollar sign, a register with a percent sign, or the contents of a cell. -/
def readOperand : List Char → Option Operand
  | '$' :: cs => (readInteger cs).map .imm
  | '%' :: cs => (readName cs).map .reg
  | cs => (readName cs).map .mem

def readAddress : List Char → Option String
  | '$' :: cs => readName cs
  | _ => none

def readRelative (cs : List Char) : Option String :=
  match cs.splitOn '(' with
  | [name, ['%', 'r', 'i', 'p', ')']] => readName name
  | _ => none

/-- A move of a value, or of the address of a cell. -/
def readMove (source target : List Char) : Option Instr :=
  match readOperand source with
  | some s => (readOperand target).map (.move s)
  | none => do return .moveAddress (← readAddress source) (← readRegister target)

def readArith (op : ArithOp) (source target : List Char) : Option Instr := do
  return .arith op (← readOperand source) (← readOperand target)

/-- A register that is combined with itself is cleared. -/
def readClear (source target : List Char) : Option Instr :=
  if source = target then (readRegister source).map .clear else none

def readCompare (value operand : List Char) : Option Instr := do
  match ← readOperand value with
  | .imm v => return .compare v (← readOperand operand)
  | _ => none

def readUnary (arg : List Char) : String → Option Instr
  | "negq" => (readOperand arg).map .negate
  | "idivq" => (readOperand arg).map .divide
  | "je" => (readName arg).map .jumpIfEqual
  | "jmp" => (readName arg).map .jump
  | "call" => (readName arg).map .call
  | "push" => (readRegister arg).map .push
  | "pop" => (readRegister arg).map .pop
  | _ => none

def readBinary (source target : List Char) : String → Option Instr
  | "movq" => readMove source target
  | "lea" => do return .loadAddress (← readRelative source) (← readRegister target)
  | "xor" => readClear source target
  | "addq" => readArith .add source target
  | "subq" => readArith .sub source target
  | "imulq" => readArith .mul source target
  | "xorq" => readArith .xor source target
  | "cmpq" => readCompare source target
  | _ => none

/-- An instruction from its mnemonic and its arguments. -/
def readInstr (mnemonic : String) : List (List Char) → Option Instr
  | [] =>
    match mnemonic with
    | "cqto" => some .signExtend
    | "ret" => some .ret
    | _ => none
  | [arg] => readUnary arg mnemonic
  | [source, target] => readBinary source target mnemonic
  | _ => none

def readDirective : String → List (List Char) → Option Line
  | ".globl", [s] => (readName s).map .global
  | ".text", [] => some .textSection
  | ".data", [] => some .dataSection
  | _, _ => none

/-- A directive starts with a dot, an instruction does not. -/
def readCommand (mnemonic : String) (args : List (List Char)) : Option Line :=
  if mnemonic.toList.head? = some '.' then readDirective mnemonic args
  else (readInstr mnemonic args).map .instr

/-- What is set up under a name in the data section. -/
def readDatum (name : String) : String → String → Option Line
  | ".ascii", "\"%d\\0\\0\"" => some (.readFormat name)
  | ".ascii", "\"%d\\n\\0\"" => some (.writeFormat name)
  | ".quad", "0" => some (.cell name)
  | _, _ => none

/-- Arguments stand between commas; blanks before them do not count. -/
def readArguments (cs : List Char) : List (List Char) :=
  (cs.splitOn ',').map (·.dropWhile (· == ' '))

def readLabel (cs : List Char) : Option String :=
  match cs.splitOn ':' with
  | [name, []] => readName name
  | _ => none

/-- A line from its fields. The first one is the label, or it is empty. -/
def readFields : List (List Char) → Option Line
  | [label] => (readLabel label).map .label
  | [label, mnemonic] =>
    if label.isEmpty then readCommand (.ofList mnemonic) [] else none
  | [label, word, rest] =>
    if label.isEmpty then readCommand (.ofList word) (readArguments rest)
    else do readDatum (← readLabel label) (.ofList word) (.ofList rest)
  | _ => none

def readLine (cs : List Char) : Option Line := readFields (cs.splitOn '\t')

/-- Lines, of which nothing comes after the last one. -/
def readLines : List (List Char) → Option (List Line)
  | [] => none
  | [cs] => if cs.isEmpty then some [] else none
  | cs :: rest => do return (← readLine cs) :: (← readLines rest)

/-- The lines that a text says, each of which ends with a line feed. -/
def readListing (text : String) : Option (List Line) := readLines (text.toList.splitOn '\n')

/-! ## Names and numbers -/

theorem notMem_of_forall {p : Char → Bool} {cs : List Char} (h : ∀ c ∈ cs, p c) {c : Char}
    (hc : p c = false) : c ∉ cs := by
  intro hmem
  rw [h c hmem] at hc
  cases hc

/-- The characters of the arguments of an instruction. -/
def isArgumentChar (c : Char) : Bool := isWordChar c || ['$', '%', '-', '(', ')'].contains c

/-- The text of an argument has nothing that separates arguments, fields or lines. -/
def IsArgument (cs : List Char) : Prop := ∀ c ∈ cs, isArgumentChar c

theorem IsArgument.notMem {cs : List Char} (h : IsArgument cs) {c : Char}
    (hc : isArgumentChar c = false) : c ∉ cs :=
  notMem_of_forall h hc

theorem isArgument_cons {c : Char} {cs : List Char} (hc : isArgumentChar c) (h : IsArgument cs) :
    IsArgument (c :: cs) :=
  List.forall_mem_cons.2 ⟨hc, h⟩

theorem isArgument_of_word {cs : List Char} (h : ∀ c ∈ cs, isWordChar c) : IsArgument cs := by
  intro c hc
  simp [isArgumentChar, h c hc]

/-- A name as it is written. -/
def IsName (x : String) : Prop := isName x.toList

instance (x : String) : Decidable (IsName x) := inferInstanceAs (Decidable (_ = true))

namespace IsName

variable {x : String}

theorem word (h : IsName x) : ∀ c ∈ x.toList, isWordChar c := by
  unfold IsName isName at h
  split at h
  · cases h
  · rename_i c cs hx
    rw [hx]
    rw [Bool.and_eq_true, List.all_eq_true] at h
    exact h.2

theorem isArgument (h : IsName x) : IsArgument x.toList := isArgument_of_word h.word

theorem notMem (h : IsName x) {c : Char} (hc : isWordChar c = false) : c ∉ x.toList :=
  notMem_of_forall h.word hc

/-- A name starts with none of the marks of an operand. -/
theorem ne_cons (h : IsName x) {c : Char} (hc : isWordChar c = false) (cs : List Char) :
    x.toList ≠ c :: cs := by
  intro heq
  exact h.notMem hc (heq ▸ List.mem_cons_self)

theorem readName (h : IsName x) : readName x.toList = some x := by
  have hname : isName x.toList := h
  rw [Asm.readName, if_pos hname, String.ofList_toList]

/-- A number after a name belongs to it. -/
theorem numbered (h : IsName x) (n : ℕ) : IsName (x ++ toString n) := by
  have hdigits : (Nat.toDigits 10 n).all isWordChar := List.all_eq_true.2 (isWord_toDigits n).chars
  have htext : (x ++ toString n).toList = x.toList ++ Nat.toDigits 10 n := by simp
  unfold IsName at h ⊢
  rw [htext]
  cases hx : x.toList with
  | nil =>
    rw [hx] at h
    cases h
  | cons c cs =>
    rw [hx, isName, Bool.and_eq_true] at h
    rw [List.cons_append, isName, Bool.and_eq_true, ← List.cons_append, List.all_append,
      Bool.and_eq_true]
    exact ⟨h.1, h.2, hdigits⟩

end IsName

theorem readNumber_toDigits (n : ℕ) : readNumber (Nat.toDigits 10 n) = some n := by
  have hdigits : (Nat.toDigits 10 n).all Char.isDigit := by
    rw [List.all_eq_true]
    intro c hc
    exact Nat.isDigit_of_mem_toDigits (by decide) (by decide) hc
  simp [readNumber, hdigits]

theorem toWord_toInt (v : Int64) : toWord v.toInt = some v := by
  rw [toWord, if_pos ⟨v.le_toInt, v.toInt_lt⟩, Int64.ofInt_toInt]

theorem readInteger_of_ne_minus {cs : List Char} (h : ∀ ds, cs ≠ '-' :: ds) :
    readInteger cs = (readNumber cs).bind fun n => toWord n := by
  unfold readInteger
  split
  · rename_i ds
    exact absurd rfl (h ds)
  · rfl

theorem readInteger_text (v : Int64) : readInteger (toString v.toInt).toList = some v := by
  rw [toList_toString_int]
  split_ifs with hneg
  · have hv : -(v.toInt.natAbs : ℤ) = v.toInt := by omega
    rw [readInteger, readNumber_toDigits, Option.bind_some, hv, toWord_toInt]
  · have hv : (v.toInt.natAbs : ℤ) = v.toInt := by omega
    -- No digit is a sign, so the number is read without one.
    have hsign : ∀ ds, Nat.toDigits 10 v.toInt.natAbs ≠ '-' :: ds := by
      intro ds heq
      have hmem := (isWord_toDigits v.toInt.natAbs).chars '-' (heq ▸ List.mem_cons_self)
      exact absurd hmem (by decide)
    rw [readInteger_of_ne_minus hsign, readNumber_toDigits, Option.bind_some, hv, toWord_toInt]

theorem isArgument_toString_int (v : ℤ) : IsArgument (toString v).toList := by
  have hdigits := isArgument_of_word (isWord_toDigits v.natAbs).chars
  rw [toList_toString_int]
  split_ifs
  · exact isArgument_cons (by decide) hdigits
  · exact hdigits

/-- A name is no number. -/
theorem IsName.readInteger {x : String} (h : IsName x) : readInteger x.toList = none := by
  rw [readInteger_of_ne_minus (h.ne_cons (by decide))]
  unfold IsName isName at h
  split at h
  · cases h
  · rename_i c cs hx
    rw [Bool.and_eq_true, Bool.not_eq_true'] at h
    simp [readNumber, hx, h.1]

/-! ## Operands -/

/-- The name in an operand is one. -/
def Operand.Legible : Operand → Prop
  | .imm _ => True
  | .reg x | .mem x => IsName x

section Operands

variable {o : Operand} {x : String}

theorem toList_registerText (x : String) : (registerText x).toList = '%' :: x.toList := by
  simp [registerText]

theorem toList_addressText (x : String) : (addressText x).toList = '$' :: x.toList := by
  simp [addressText]

theorem toList_relativeText (x : String) :
    (relativeText x).toList = x.toList ++ '(' :: ['%', 'r', 'i', 'p', ')'] := by
  simp [relativeText]

theorem toList_immText (v : Int64) :
    (Operand.imm v).text.toList = '$' :: (toString v.toInt).toList := by
  simp [Operand.text]

theorem readRegister_text (h : IsName x) : readRegister (registerText x).toList = some x := by
  rw [toList_registerText, readRegister, h.readName]

theorem isArgument_registerText (h : IsName x) : IsArgument (registerText x).toList := by
  rw [toList_registerText]
  exact isArgument_cons (by decide) h.isArgument

theorem readAddress_text (h : IsName x) : readAddress (addressText x).toList = some x := by
  rw [toList_addressText, readAddress, h.readName]

/-- An address is no operand. -/
theorem readOperand_addressText (h : IsName x) : readOperand (addressText x).toList = none := by
  rw [toList_addressText, readOperand, h.readInteger]
  rfl

theorem isArgument_addressText (h : IsName x) : IsArgument (addressText x).toList := by
  rw [toList_addressText]
  exact isArgument_cons (by decide) h.isArgument

theorem readRelative_text (h : IsName x) : readRelative (relativeText x).toList = some x := by
  have hsplit : (relativeText x).toList.splitOn '(' = [x.toList, ['%', 'r', 'i', 'p', ')']] := by
    rw [toList_relativeText, List.splitOn_append_cons_self_of_not_mem (h.notMem (by decide)),
      List.splitOn_eq_singleton (by decide)]
  rw [readRelative, hsplit]
  exact h.readName

theorem isArgument_relativeText (h : IsName x) : IsArgument (relativeText x).toList := by
  have hbase : ['(', '%', 'r', 'i', 'p', ')'].all isArgumentChar := by decide
  rw [toList_relativeText]
  exact List.forall_mem_append.2 ⟨h.isArgument, List.all_eq_true.1 hbase⟩

theorem Operand.readOperand_text (h : o.Legible) : readOperand o.text.toList = some o := by
  cases o with
  | imm v =>
    rw [toList_immText, readOperand, readInteger_text]
    rfl
  | reg x =>
    rw [Operand.text, toList_registerText, readOperand, IsName.readName h]
    rfl
  | mem x =>
    have hx : IsName x := h
    rw [Operand.text]
    unfold readOperand
    -- A name starts with none of the signs of a constant and of a register.
    split
    · rename_i cs heq
      exact absurd heq (hx.ne_cons (by decide) cs)
    · rename_i cs heq
      exact absurd heq (hx.ne_cons (by decide) cs)
    · rw [hx.readName]
      rfl

theorem Operand.isArgument_text (h : o.Legible) : IsArgument o.text.toList := by
  cases o with
  | imm v =>
    rw [toList_immText]
    exact isArgument_cons (by decide) (isArgument_toString_int v.toInt)
  | reg x => exact isArgument_registerText h
  | mem x => exact IsName.isArgument h

theorem Operand.Legible.spelt (h : o.Legible) : o.Spelt := by
  cases o with
  | imm v => trivial
  | reg x => exact IsName.word h
  | mem x => exact IsName.notMem h (by decide)

end Operands

/-! ## Instructions -/

/-- The names in an instruction are names. -/
structure Instr.Legible (i : Instr) : Prop where
  operands : i.operands.Forall Operand.Legible
  labels : i.labels.Forall IsName

theorem Instr.Legible.spelt {i : Instr} (h : i.Legible) : i.Spelt where
  operands o ho := (List.forall_iff_forall_mem.1 h.operands o ho).spelt
  labels x hx := (List.forall_iff_forall_mem.1 h.labels x hx).notMem (by decide)

def Instr.mnemonic : Instr → String
  | .move .. | .moveAddress .. => "movq"
  | .loadAddress .. => "lea"
  | .clear _ => "xor"
  | .arith op .. => op.mnemonic
  | .negate _ => "negq"
  | .signExtend => "cqto"
  | .divide _ => "idivq"
  | .compare .. => "cmpq"
  | .jumpIfEqual _ => "je"
  | .jump _ => "jmp"
  | .call _ => "call"
  | .push _ => "push"
  | .pop _ => "pop"
  | .ret => "ret"

def Instr.arguments : Instr → List String
  | .move s d | .arith _ s d => [s.text, d.text]
  | .moveAddress x r => [addressText x, registerText r]
  | .loadAddress x r => [relativeText x, registerText r]
  | .clear r => [registerText r, registerText r]
  | .negate o | .divide o => [o.text]
  | .compare v o => [(Operand.imm v).text, o.text]
  | .jumpIfEqual x | .jump x | .call x => [x]
  | .push r | .pop r => [registerText r]
  | .signExtend | .ret => []

section Instr

variable {i : Instr}

theorem Instr.text_eq (i : Instr) : i.text = instrText i.mnemonic i.arguments := by
  cases i <;> rfl

theorem Instr.isArgument_arguments (h : i.Legible) :
    i.arguments.Forall fun a => IsArgument a.toList := by
  obtain ⟨ho, hl⟩ := h
  cases i with
  | move s d | arith _ s d => exact ⟨Operand.isArgument_text ho.1, Operand.isArgument_text ho.2⟩
  | moveAddress x r => exact ⟨isArgument_addressText hl, isArgument_registerText ho⟩
  | loadAddress x r => exact ⟨isArgument_relativeText ho.1, isArgument_registerText ho.2⟩
  | clear r => exact ⟨isArgument_registerText ho.1, isArgument_registerText ho.2⟩
  | negate o | divide o => exact Operand.isArgument_text ho
  | compare v o => exact ⟨Operand.isArgument_text ho.1, Operand.isArgument_text ho.2⟩
  | jumpIfEqual x | jump x | call x => exact IsName.isArgument hl
  | push r | pop r => exact isArgument_registerText ho
  | signExtend | ret => trivial

theorem Instr.readInstr_text (h : i.Legible) :
    readInstr i.mnemonic (i.arguments.map String.toList) = some i := by
  obtain ⟨ho, hl⟩ := h
  cases i with
  | move s d =>
    simp [mnemonic, arguments, readInstr, readBinary, readMove, Operand.readOperand_text ho.1,
      Operand.readOperand_text ho.2]
  | moveAddress x r =>
    simp [mnemonic, arguments, readInstr, readBinary, readMove, readOperand_addressText hl,
      readAddress_text hl, readRegister_text ho]
  | loadAddress x r =>
    simp [mnemonic, arguments, readInstr, readBinary, readRelative_text ho.1,
      readRegister_text ho.2]
  | clear r => simp [mnemonic, arguments, readInstr, readBinary, readClear, readRegister_text ho.1]
  | arith op s d =>
    cases op <;> simp [mnemonic, ArithOp.mnemonic, arguments, readInstr, readBinary, readArith,
      Operand.readOperand_text ho.1, Operand.readOperand_text ho.2]
  | negate o | divide o =>
    simp [mnemonic, arguments, readInstr, readUnary, Operand.readOperand_text ho]
  | compare v o =>
    simp [mnemonic, arguments, readInstr, readBinary, readCompare, Operand.readOperand_text ho.1,
      Operand.readOperand_text ho.2]
  | jumpIfEqual x | jump x | call x =>
    simp [mnemonic, arguments, readInstr, readUnary, IsName.readName hl]
  | push r | pop r => simp [mnemonic, arguments, readInstr, readUnary, readRegister_text ho]
  | signExtend | ret => rfl

end Instr

/-! ## Lines -/

/-- The names in a line are names. -/
def Line.Legible : Line → Prop
  | .global x | .label x | .readFormat x | .writeFormat x | .cell x => IsName x
  | .instr i => i.Legible
  | .textSection | .dataSection => True

section Lines

variable {mnemonic : String} {args : List String} {l : Line} {x : String}

theorem splitOn_arguments : ∀ {args : List String} {cs : List Char}, ',' ∉ cs →
    (args.Forall fun a => IsArgument a.toList) →
    (cs ++ args.flatMap fun a => [',', ' '] ++ a.toList).splitOn ','
      = cs :: args.map fun a => ' ' :: a.toList
  | [], cs, hcs, _ => by simp [List.splitOn_eq_singleton hcs]
  | a :: args, cs, hcs, h => by
    rw [List.forall_cons] at h
    have ha : ',' ∉ ' ' :: a.toList := by simpa using h.1.notMem (by decide)
    have hrest := splitOn_arguments ha h.2
    rw [List.flatMap_cons, List.append_assoc, List.cons_append,
      List.splitOn_append_cons_self_of_not_mem hcs, List.map_cons]
    rw [List.cons_append] at hrest
    exact congrArg _ hrest

theorem IsArgument.dropWhile {cs : List Char} (h : IsArgument cs) :
    cs.dropWhile (· == ' ') = cs := by
  cases cs with
  | nil => rfl
  | cons c cs =>
    have hc : c ≠ ' ' := by
      rintro rfl
      exact h.notMem (c := ' ') (by decide) List.mem_cons_self
    simp [hc]

theorem toList_args (a : String) (args : List String) :
    (", ".intercalate (a :: args)).toList
      = a.toList ++ args.flatMap fun b => [',', ' '] ++ b.toList := by
  have := @toList_intercalate_cons String id a args
  rwa [List.map_id] at this

theorem readArguments_text {a : String} (h : (a :: args).Forall fun a => IsArgument a.toList) :
    readArguments (", ".intercalate (a :: args)).toList = (a :: args).map String.toList := by
  rw [List.forall_cons] at h
  have hdrop : ∀ b ∈ args, b.toList.dropWhile (· == ' ') = b.toList :=
    fun b hb => (List.forall_iff_forall_mem.1 h.2 b hb).dropWhile
  rw [readArguments, toList_args, splitOn_arguments (h.1.notMem (by decide)) h.2]
  simpa [h.1.dropWhile, Function.comp_def] using hdrop

/-- A character that separates fields or lines is not in the arguments. -/
theorem notMem_args {c : Char} (hc : c ∉ [',', ' ']) (harg : isArgumentChar c = false)
    (h : args.Forall fun a => IsArgument a.toList) : c ∉ (", ".intercalate args).toList := by
  cases args with
  | nil => simp
  | cons a args =>
    rw [List.forall_cons, List.forall_iff_forall_mem] at h
    rw [toList_args, List.mem_append, List.mem_flatMap]
    rintro (hmem | ⟨b, hb, hmem⟩)
    · exact h.1.notMem harg hmem
    · rcases List.mem_append.1 hmem with hmem | hmem
      · exact hc hmem
      · exact (h.2 b hb).notMem harg hmem

theorem toList_instrText_cons (a : String) : (instrText mnemonic (a :: args)).toList
    = [] ++ '\t' :: (mnemonic.toList ++ '\t' :: (", ".intercalate (a :: args)).toList) := by
  simp [instrText]

/-- The fields of an instruction or a directive are its name and its arguments. -/
theorem readLine_instrText (hmnemonic : '\t' ∉ mnemonic.toList)
    (h : args.Forall fun a => IsArgument a.toList) :
    readLine (instrText mnemonic args).toList = readCommand mnemonic (args.map String.toList) := by
  cases args with
  | nil =>
    have htext : (instrText mnemonic []).toList = [] ++ '\t' :: mnemonic.toList := by
      simp [instrText]
    rw [readLine, htext, List.splitOn_append_cons_self_of_not_mem (by simp),
      List.splitOn_eq_singleton hmnemonic]
    simp [readFields]
  | cons a args =>
    have hargs := notMem_args (c := '\t') (by decide) (by decide) h
    rw [readLine, toList_instrText_cons, List.splitOn_append_cons_self_of_not_mem (by simp),
      List.splitOn_append_cons_self_of_not_mem hmnemonic, List.splitOn_eq_singleton hargs,
      readFields, if_pos List.isEmpty_nil, String.ofList_toList, readArguments_text h]

theorem newline_notMem_instrText (hmnemonic : '\n' ∉ mnemonic.toList)
    (h : args.Forall fun a => IsArgument a.toList) : '\n' ∉ (instrText mnemonic args).toList := by
  have hargs := notMem_args (c := '\n') (by decide) (by decide) h
  cases args with
  | nil => simpa [instrText] using hmnemonic
  | cons a args =>
    rw [toList_instrText_cons]
    simp only [List.nil_append, List.mem_cons, List.mem_append, hmnemonic, hargs, Char.reduceEq,
      or_self, not_false_eq_true]

theorem readLabel_text (h : IsName x) : readLabel (x.toList ++ [':']) = some x := by
  rw [readLabel, List.splitOn_append_cons_self_of_not_mem (h.notMem (by decide))]
  exact h.readName

/-- The fields of a line of data are its label, what it is and its value. -/
theorem readLine_datum (h : IsName x) {directive value : String}
    (hdirective : '\t' ∉ directive.toList) (hvalue : '\t' ∉ value.toList) :
    readLine (x ++ ":\t" ++ directive ++ "\t" ++ value).toList = readDatum x directive value := by
  have hlabel : '\t' ∉ x.toList ++ [':'] := by simpa using h.notMem (by decide)
  have htext : (x ++ ":\t" ++ directive ++ "\t" ++ value).toList
      = (x.toList ++ [':']) ++ '\t' :: (directive.toList ++ '\t' :: value.toList) := by
    simp
  rw [readLine, htext, List.splitOn_append_cons_self_of_not_mem hlabel,
    List.splitOn_append_cons_self_of_not_mem hdirective, List.splitOn_eq_singleton hvalue]
  simp [readFields, readLabel_text h]

theorem Instr.notMem_mnemonic (i : Instr) {c : Char} (hc : isWordChar c = false) :
    c ∉ i.mnemonic.toList := by
  have hword : ∀ c ∈ i.mnemonic.toList, isWordChar c := by
    cases i with
    | arith op s d => cases op <;> (simp [mnemonic, ArithOp.mnemonic]; decide)
    | _ => simp [mnemonic]; decide
  exact notMem_of_forall hword hc

theorem Instr.readCommand_text {i : Instr} (h : i.Legible) :
    readCommand i.mnemonic (i.arguments.map String.toList) = some (.instr i) := by
  have hdot : i.mnemonic.toList.head? ≠ some '.' := fun heq =>
    i.notMem_mnemonic (by decide) (List.mem_of_mem_head? heq)
  rw [readCommand, if_neg hdot, Instr.readInstr_text h]
  rfl

theorem Line.readLine_text (h : l.Legible) : readLine l.text.toList = some l := by
  cases l with
  | global x =>
    have hx : [x].Forall fun a => IsArgument a.toList := IsName.isArgument h
    rw [text, readLine_instrText (by decide) hx]
    simp [readCommand, readDirective, IsName.readName h]
  | textSection | dataSection => exact readLine_instrText (by decide) trivial
  | label x =>
    have hx : '\t' ∉ x.toList ++ [':'] := by simpa using IsName.notMem h (by decide)
    have htext : (Line.label x).text.toList = x.toList ++ [':'] := by simp [text, labelText]
    rw [htext, readLine, List.splitOn_eq_singleton hx, readFields, readLabel_text h]
    rfl
  | instr i =>
    rw [text, Instr.text_eq, readLine_instrText (i.notMem_mnemonic (by decide))
      (Instr.isArgument_arguments h), Instr.readCommand_text h]
  | readFormat x =>
    have htext : text (.readFormat x) = x ++ ":\t" ++ ".ascii" ++ "\t" ++ "\"%d\\0\\0\"" := by
      simp [text, String.append_assoc]
    rw [htext, readLine_datum h (by decide) (by decide)]
    rfl
  | writeFormat x =>
    have htext : text (.writeFormat x) = x ++ ":\t" ++ ".ascii" ++ "\t" ++ "\"%d\\n\\0\"" := by
      simp [text, String.append_assoc]
    rw [htext, readLine_datum h (by decide) (by decide)]
    rfl
  | cell x =>
    have htext : text (.cell x) = x ++ ":\t" ++ ".quad" ++ "\t" ++ "0" := by
      simp [text, String.append_assoc]
    rw [htext, readLine_datum h (by decide) (by decide)]
    rfl

theorem Line.newline_notMem_text (h : l.Legible) : '\n' ∉ l.text.toList := by
  cases l with
  | global x =>
    have hx : [x].Forall fun a => IsArgument a.toList := IsName.isArgument h
    exact newline_notMem_instrText (by decide) hx
  | textSection | dataSection => exact newline_notMem_instrText (by decide) trivial
  | instr i =>
    rw [text, Instr.text_eq]
    exact newline_notMem_instrText (i.notMem_mnemonic (by decide)) (Instr.isArgument_arguments h)
  | label x | readFormat x | writeFormat x | cell x =>
    have hx : '\n' ∉ x.toList := IsName.notMem h (by decide)
    simp [text, labelText, hx]

end Lines

/-! ## Listings -/

theorem joinLines_eq : ∀ ls : List String, joinLines ls = String.join (ls.map (· ++ "\n"))
  | [] => rfl
  | [l] => by simp [joinLines]
  | l :: l' :: ls => by
    have ih := joinLines_eq (l' :: ls)
    simp only [joinLines, List.isEmpty_cons, Bool.false_eq_true, if_false] at ih ⊢
    rw [String.intercalate_cons_cons, String.append_assoc, ih]
    simp only [List.map_cons, String.join_cons]

/-- Every line of a listing ends with a line feed. -/
theorem listingText_eq (code : List Line) :
    listingText code = String.join (code.map fun l => l.text ++ "\n") := by
  rw [listingText, joinLines_eq, List.map_map]
  rfl

theorem listingText_append (code code' : List Line) :
    listingText (code ++ code') = listingText code ++ listingText code' := by
  rw [listingText_eq, List.map_append, String.join_append, ← listingText_eq, ← listingText_eq]

theorem toList_listingText (code : List Line) :
    (listingText code).toList = code.flatMap fun l => l.text.toList ++ ['\n'] := by
  rw [listingText_eq, String.toList_join, List.flatMap_map]
  simp

/-- A listing whose names are names is read back from its text. -/
theorem readListing_listingText {code : List Line} (h : ∀ l ∈ code, l.Legible) :
    readListing (listingText code) = some code := by
  rw [readListing, toList_listingText]
  induction code with
  | nil => rfl
  | cons l code ih =>
    obtain ⟨hl, hcode⟩ := List.forall_mem_cons.1 h
    have hrest := ih hcode
    rw [List.flatMap_cons, List.append_assoc, List.singleton_append,
      List.splitOn_append_cons_self_of_not_mem (Line.newline_notMem_text hl)]
    -- What follows is cut in the same way, into one piece at least: so this line is not the last.
    cases hlines : (code.flatMap fun l => l.text.toList ++ ['\n']).splitOn '\n' with
    | nil => exact absurd hlines (List.splitOn_ne_nil _ _)
    | cons cs rest =>
      rw [hlines] at hrest
      rw [readLines, Line.readLine_text hl, hrest]
      · rfl
      · simp

example : readListing "\tsubq\t$-2, %rax\n_v1:\t.quad\t0\n"
    = some [.instr (.arith .sub (.imm (-2)) (.reg "rax")), .cell "_v1"] := by
  decide +kernel

end WhileAsm.Asm
