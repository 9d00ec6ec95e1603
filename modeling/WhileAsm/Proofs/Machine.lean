import Mathlib.Algebra.Group.Int.Defs
import Mathlib.Data.Set.Function
import Mathlib.Data.Stream.Defs
import Mathlib.Logic.Function.Basic
import WhileAsm.Asm.Line
import WhileAsm.Asm.Target

/-!
# The machine

A processor with 64-bit registers, one 64-bit word for each storage cell, a zero flag and a stack
that runs the lines of a listing. What the code cannot know is left open in a `Platform`: where the
symbols are in memory, what a library routine leaves in the registers, and what an instruction that
leaves the flag undefined does to it.

Instructions that do not jump act on the processor alone (`Instr.exec`); a listing is run from
line to line (`step`). Code without jumps is run by `execAll`, and `after_of_execAll` and
`after_of_execAll_error` say that a listing which holds it does the same.
-/

namespace WhileAsm.Asm

structure Cpu where
  regs : String → Int64
  cells : String → Int64
  zero : Bool
  /-- What was pushed since the program was entered, the last first. -/
  stack : List Int64
  input : Stream' Int64
  output : List Int64

/-- What a program finds and does not decide. -/
structure Platform where
  address : String → Int64
  /-- The registers after a library routine has returned. -/
  regsAfterCall : Cpu → String → Int64
  /-- The zero flag after an operation that leaves it undefined. -/
  flagAfter : Cpu → Bool

inductive Trap where
  /-- The divisor is zero, or the quotient is not a 64-bit number. -/
  | divideError
  /-- No processor has this instruction, or it cannot go on. -/
  | illegal
  deriving DecidableEq, Repr

namespace Cpu

/-- The processor when a program is entered: the cells hold zero. -/
def start (regs : String → Int64) (zero : Bool) (input : Stream' Int64) : Cpu :=
  ⟨regs, fun _ => 0, zero, [], input, []⟩

def read (c : Cpu) : Operand → Int64
  | .imm v => v
  | .reg r => c.regs r
  | .mem x => c.cells x

def setReg (c : Cpu) (r : String) (v : Int64) : Cpu :=
  { c with regs := Function.update c.regs r v }

def setCell (c : Cpu) (x : String) (v : Int64) : Cpu :=
  { c with cells := Function.update c.cells x v }

@[simp] theorem regs_setReg_self (c : Cpu) (r : String) (v : Int64) :
    (c.setReg r v).regs r = v := Function.update_self _ _ _

theorem regs_setReg_of_ne (c : Cpu) {r x : String} (v : Int64) (h : x ≠ r) :
    (c.setReg r v).regs x = c.regs x := Function.update_of_ne h _ _

/-- Leaves a value in an operand; a constant takes none. -/
def write (c : Cpu) : Operand → Int64 → Except Trap Cpu
  | .imm _, _ => .error .illegal
  | .reg r, v => .ok (c.setReg r v)
  | .mem x, v => .ok (c.setCell x v)

/-- The number that a division divides: 128 bits in two registers. -/
def dividend (c : Cpu) : Int := (c.regs "rdx").toInt * 2 ^ 64 + (c.regs "rax").toUInt64.toNat

/-- Divides by `d`: the quotient and the remainder replace the dividend. -/
def divideBy (P : Platform) (c : Cpu) (d : Int64) : Except Trap Cpu :=
  let q := c.dividend.tdiv d.toInt
  if d = 0 ∨ q < -2 ^ 63 ∨ 2 ^ 63 ≤ q then .error .divideError
  else .ok { (c.setReg "rax" (Int64.ofInt q)).setReg "rdx" (Int64.ofInt (c.dividend.tmod d.toInt))
    with zero := P.flagAfter c }

/-- Whether a routine is called with a format and with no argument in a vector register. -/
def CalledWith (P : Platform) (c : Cpu) (format : String) : Prop :=
  c.regs "rdi" = P.address format ∧ c.regs "rax" = 0

instance (P : Platform) (c : Cpu) (format : String) : Decidable (c.CalledWith P format) :=
  inferInstanceAs (Decidable (_ ∧ _))

/-- A routine returns: it keeps the cells, the input and the output, and no register. -/
def returned (P : Platform) (c : Cpu) : Cpu :=
  { c with regs := P.regsAfterCall c, zero := P.flagAfter c }

/-- Puts the next number of the input into the cell whose address is in the second argument. -/
def scan (P : Platform) (c : Cpu) : Cpu :=
  { c.returned P with
    cells := fun x => if P.address x = c.regs "rsi" then c.input.head else c.cells x
    input := c.input.tail }

def print (P : Platform) (c : Cpu) : Cpu :=
  { c.returned P with output := c.output ++ [c.regs "rsi"] }

def call (P : Platform) (t : Target) (c : Cpu) (function : String) : Except Trap Cpu :=
  if function = t.scanFunc ∧ c.CalledWith P t.readFormat then .ok (c.scan P)
  else if function = t.printFunc ∧ c.CalledWith P t.writeFormat then .ok (c.print P)
  else .error .illegal

/-- The sign of the dividend fills the upper half. -/
def signExtend (c : Cpu) : Cpu := c.setReg "rdx" (if c.regs "rax" < 0 then -1 else 0)

end Cpu

def Operand.isMem : Operand → Bool
  | .mem _ => true
  | _ => false

def Operand.isReg : Operand → Bool
  | .reg _ => true
  | _ => false

def Operand.isImm : Operand → Bool
  | .imm _ => true
  | _ => false

/-- The operand that takes the result is the left one. -/
def ArithOp.apply : ArithOp → Int64 → Int64 → Int64
  | .add, a, b => a + b
  | .sub, a, b => a - b
  | .mul, a, b => a * b
  | .xor, a, b => a ^^^ b

def ArithOp.flag (P : Platform) (c : Cpu) (v : Int64) : ArithOp → Bool
  | .mul => P.flagAfter c
  | _ => v == 0

/-- What an instruction does to the processor. No instruction has two operands in memory, and a
product goes to a register. Jumps and the return are not among those that act on the processor
alone. -/
def Instr.exec (P : Platform) (t : Target) (c : Cpu) : Instr → Except Trap Cpu
  | .move s d => if s.isMem && d.isMem then .error .illegal else c.write d (c.read s)
  | .moveAddress x r => .ok (c.setReg r (P.address x))
  | .loadAddress x r => .ok (c.setReg r (P.address x))
  | .clear r => .ok { c.setReg r 0 with zero := true }
  | .arith op s d =>
    if (s.isMem && d.isMem) || (op == .mul && !d.isReg) then .error .illegal
    else
      let v := op.apply (c.read d) (c.read s)
      { c with zero := op.flag P c v }.write d v
  | .negate d => { c with zero := c.read d == 0 }.write d (-c.read d)
  | .signExtend => .ok c.signExtend
  | .divide d => if d.isImm then .error .illegal else c.divideBy P (c.read d)
  | .compare v d => if d.isImm then .error .illegal else .ok { c with zero := c.read d == v }
  | .call f => c.call P t f
  | .push r => .ok { c with stack := c.regs r :: c.stack }
  | .pop r =>
    match c.stack with
    | v :: stack => .ok { c.setReg r v with stack := stack }
    | [] => .error .illegal
  | .jumpIfEqual _ | .jump _ | .ret => .error .illegal

@[simp] theorem exec_move_reg (P : Platform) (t : Target) (c : Cpu) (s : Operand) (r : String) :
    (Instr.move s (.reg r)).exec P t c = .ok (c.setReg r (c.read s)) := by
  simp [Instr.exec, Operand.isMem, Cpu.write]

@[simp] theorem exec_arith_reg (P : Platform) (t : Target) (c : Cpu) (op : ArithOp) (s : Operand)
    (r : String) : (Instr.arith op s (.reg r)).exec P t c
      = .ok ({ c with zero := op.flag P c (op.apply (c.regs r) (c.read s)) }.setReg r
          (op.apply (c.regs r) (c.read s))) := by
  simp [Instr.exec, Operand.isMem, Operand.isReg, Cpu.write, Cpu.read]

/-- Instructions one after the other. A trap leaves the processor as it was before the instruction
that trapped. -/
def execAll (P : Platform) (t : Target) : List Instr → Cpu → Except (Trap × Cpu) Cpu
  | [], c => .ok c
  | i :: is, c =>
    match i.exec P t c with
    | .ok c => execAll P t is c
    | .error e => .error (e, c)

/-! ## Listings -/

structure Config where
  line : ℕ
  cpu : Cpu

def labelIndex (code : List Line) (label : String) : Option ℕ :=
  code.findIdx? (· == .label label)

def Config.goto (m : Config) (code : List Line) (label : String) : Option Config :=
  (labelIndex code label).map fun n => ⟨n, m.cpu⟩

/-- Runs one line. There is no next line after a trap, after the return and in the data. -/
def step (P : Platform) (t : Target) (code : List Line) (m : Config) : Option Config :=
  match code[m.line]? with
  | some (.label _) => some ⟨m.line + 1, m.cpu⟩
  | some (.instr (.jump l)) => m.goto code l
  | some (.instr (.jumpIfEqual l)) =>
    if m.cpu.zero then m.goto code l else some ⟨m.line + 1, m.cpu⟩
  | some (.instr i) => (i.exec P t m.cpu).toOption.map fun c => ⟨m.line + 1, c⟩
  | _ => none

def after (P : Platform) (t : Target) (code : List Line) : ℕ → Config → Option Config
  | 0, m => some m
  | n + 1, m => (step P t code m).bind (after P t code n)

/-- The machine is at a return, and the stack is as it was when the program was entered. -/
def AtReturn (code : List Line) (m : Config) : Prop :=
  code[m.line]? = some (.instr .ret) ∧ m.cpu.stack = []

/-- The machine is at a division that faults. -/
def AtFault (P : Platform) (t : Target) (code : List Line) (m : Config) : Prop :=
  ∃ d, code[m.line]? = some (.instr (.divide d))
    ∧ (Instr.divide d).exec P t m.cpu = .error .divideError

/-- The machine, entered at the entry label, reaches a return with a processor. -/
def Returns (P : Platform) (t : Target) (code : List Line) (c c' : Cpu) : Prop :=
  ∃ start n line, labelIndex code t.entryPoint = some start
    ∧ after P t code n ⟨start, c⟩ = some ⟨line, c'⟩ ∧ AtReturn code ⟨line, c'⟩

/-- The machine, entered at the entry label, faults at a division with a processor. -/
def FaultsAt (P : Platform) (t : Target) (code : List Line) (c c' : Cpu) : Prop :=
  ∃ start n line, labelIndex code t.entryPoint = some start
    ∧ after P t code n ⟨start, c⟩ = some ⟨line, c'⟩ ∧ AtFault P t code ⟨line, c'⟩

/-! ## Runs -/

section Runs

variable {P : Platform} {t : Target} {code : List Line}

theorem execAll_cons_ok {i : Instr} {is : List Instr} {c c' : Cpu} (h : i.exec P t c = .ok c') :
    execAll P t (i :: is) c = execAll P t is c' := by
  simp only [execAll, h]

theorem execAll_append_ok {is js : List Instr} {c c' : Cpu} (h : execAll P t is c = .ok c') :
    execAll P t (is ++ js) c = execAll P t js c' := by
  induction is generalizing c with
  | nil =>
    simp only [execAll, Except.ok.injEq] at h
    rw [h, List.nil_append]
  | cons i is ih =>
    simp only [execAll, List.cons_append] at h ⊢
    split at h
    · exact ih h
    · cases h

theorem execAll_append_error {is js : List Instr} {c : Cpu} {e : Trap × Cpu}
    (h : execAll P t is c = .error e) : execAll P t (is ++ js) c = .error e := by
  induction is generalizing c with
  | nil => simp [execAll] at h
  | cons i is ih =>
    simp only [execAll, List.cons_append] at h ⊢
    split at h
    · exact ih h
    · exact h

theorem after_add (m n : ℕ) (a : Config) :
    after P t code (m + n) a = (after P t code m a).bind (after P t code n) := by
  induction m generalizing a with
  | zero => simp [after]
  | succ m ih =>
    rw [Nat.succ_add]
    simp only [after]
    cases step P t code a with
    | none => rfl
    | some b => exact ih b

theorem after_trans {m n : ℕ} {a b d : Config} (h : after P t code m a = some b)
    (h' : after P t code n b = some d) : after P t code (m + n) a = some d := by
  rw [after_add, h]
  exact h'

theorem after_one {a b : Config} (h : step P t code a = some b) :
    after P t code 1 a = some b := by
  simp [after, h]

/-- A machine that has stopped was not followed any further. -/
theorem le_of_stopped {m n : ℕ} {a b d : Config} (hb : after P t code m a = some b)
    (hstop : step P t code b = none) (hd : after P t code n a = some d) : n ≤ m := by
  by_contra hlt
  obtain ⟨k, rfl⟩ : ∃ k, n = m + (k + 1) := ⟨n - m - 1, by omega⟩
  rw [after_add, hb] at hd
  simp [after, hstop] at hd

theorem eq_of_stopped {m n : ℕ} {a b d : Config} (hb : after P t code m a = some b)
    (hbs : step P t code b = none) (hd : after P t code n a = some d)
    (hds : step P t code d = none) : b = d := by
  have hmn : m = n := le_antisymm (le_of_stopped hd hds hb) (le_of_stopped hb hbs hd)
  subst hmn
  rw [hb] at hd
  exact Option.some.inj hd

theorem AtReturn.stopped {a : Config} (h : AtReturn code a) : step P t code a = none := by
  simp [step, h.1, Instr.exec, Except.toOption]

theorem AtFault.stopped {a : Config} (h : AtFault P t code a) : step P t code a = none := by
  obtain ⟨d, hl, he⟩ := h
  simp [step, hl, he, Except.toOption]

theorem AtFault.not_atReturn {a : Config} (h : AtFault P t code a) : ¬ AtReturn code a := by
  obtain ⟨d, hl, -⟩ := h
  rintro ⟨hr, -⟩
  rw [hl] at hr
  cases hr

/-- The machine, entered at the entry label, comes to stop before a line. -/
def Stops (P : Platform) (t : Target) (code : List Line) (c : Cpu) (m : Config) : Prop :=
  ∃ start n, labelIndex code t.entryPoint = some start ∧ after P t code n ⟨start, c⟩ = some m
    ∧ step P t code m = none

theorem Stops.unique {c : Cpu} {a b : Config} (ha : Stops P t code c a)
    (hb : Stops P t code c b) : a = b := by
  obtain ⟨start, m, hs, hm, hma⟩ := ha
  obtain ⟨start', n, hs', hn, hnb⟩ := hb
  obtain rfl : start = start' := Option.some.inj (hs.symm.trans hs')
  exact eq_of_stopped hm hma hn hnb

theorem Returns.stops {c c' : Cpu} (h : Returns P t code c c') :
    ∃ line, Stops P t code c ⟨line, c'⟩ ∧ AtReturn code ⟨line, c'⟩ := by
  obtain ⟨start, n, line, hs, hn, hat⟩ := h
  exact ⟨line, ⟨start, n, hs, hn, hat.stopped⟩, hat⟩

theorem FaultsAt.stops {c c' : Cpu} (h : FaultsAt P t code c c') :
    ∃ line, Stops P t code c ⟨line, c'⟩ ∧ AtFault P t code ⟨line, c'⟩ := by
  obtain ⟨start, n, line, hs, hn, hat⟩ := h
  exact ⟨line, ⟨start, n, hs, hn, hat.stopped⟩, hat⟩

end Runs

/-! ## Code in a listing -/

/-- The lines `ls` stand in a listing from line `n` on. -/
def Holds (code : List Line) (n : ℕ) (ls : List Line) : Prop := ls <+: code.drop n

section Code

variable {P : Platform} {t : Target} {code : List Line}

theorem holds_of_prefix {front ls : List Line} (h : front ++ ls <+: code) :
    Holds code front.length ls := by
  obtain ⟨rest, rfl⟩ := h
  exact ⟨rest, by rw [List.append_assoc, List.drop_left]⟩

theorem Holds.head {n : ℕ} {l : Line} {ls : List Line} (h : Holds code n (l :: ls)) :
    code[n]? = some l := by
  obtain ⟨rest, h⟩ := h
  have := congrArg (·[0]?) h
  simpa using this.symm

theorem Holds.tail {n : ℕ} {l : Line} {ls : List Line} (h : Holds code n (l :: ls)) :
    Holds code (n + 1) ls := by
  obtain ⟨rest, h⟩ := h
  refine ⟨rest, ?_⟩
  rw [← List.tail_drop, ← h]
  rfl

theorem step_of_exec {m : Config} {i : Instr} {c : Cpu} (hl : code[m.line]? = some (.instr i))
    (h : i.exec P t m.cpu = .ok c) : step P t code m = some ⟨m.line + 1, c⟩ := by
  unfold step
  rw [hl]
  cases i with
  | jumpIfEqual | jump | ret => cases h
  | _ => simp only [h, Except.toOption, Option.map_some]

/-- A listing that holds instructions does what they do. -/
theorem after_of_execAll {is : List Instr} {n : ℕ} {c c' : Cpu}
    (hl : Holds code n (is.map .instr)) (h : execAll P t is c = .ok c') :
    after P t code is.length ⟨n, c⟩ = some ⟨n + is.length, c'⟩ := by
  induction is generalizing n c with
  | nil =>
    simp only [execAll, Except.ok.injEq] at h
    simp [after, h]
  | cons i is ih =>
    simp only [execAll] at h
    split at h
    · rename_i d hd
      have h1 := after_one (step_of_exec (m := ⟨n, c⟩) hl.head hd)
      have h2 := after_trans h1 (ih hl.tail h)
      rw [List.length_cons, Nat.add_comm is.length 1, h2, Nat.add_assoc]
    · cases h

theorem Cpu.write_ne_divideError (c : Cpu) (d : Operand) (v : Int64) :
    c.write d v ≠ .error .divideError := by
  cases d <;> simp [Cpu.write]

/-- Only a division faults. -/
theorem divide_of_exec_error {i : Instr} {c : Cpu} (h : i.exec P t c = .error .divideError) :
    ∃ d, i = .divide d := by
  cases i with
  | divide d => exact ⟨d, rfl⟩
  | move s d | arith op s d =>
    simp only [Instr.exec] at h
    split_ifs at h
    · cases h
    · exact absurd h (Cpu.write_ne_divideError _ _ _)
  | negate d => exact absurd h (Cpu.write_ne_divideError _ _ _)
  | compare v d =>
    simp only [Instr.exec] at h
    split_ifs at h
    cases h
  | call f =>
    simp only [Instr.exec, Cpu.call] at h
    split_ifs at h
    cases h
  | pop r =>
    simp only [Instr.exec] at h
    split at h <;> cases h
  | moveAddress | loadAddress | clear | signExtend | jumpIfEqual | jump | push | ret => cases h

/-- A listing that holds instructions faults where they do. -/
theorem after_of_execAll_error {is : List Instr} {n : ℕ} {c c' : Cpu}
    (hl : Holds code n (is.map .instr)) (h : execAll P t is c = .error (.divideError, c')) :
    ∃ k, after P t code k ⟨n, c⟩ = some ⟨n + k, c'⟩ ∧ AtFault P t code ⟨n + k, c'⟩ := by
  induction is generalizing n c with
  | nil => simp [execAll] at h
  | cons i is ih =>
    simp only [execAll] at h
    split at h
    · rename_i d hd
      obtain ⟨k, hk, hf⟩ := ih hl.tail h
      have h1 := after_one (step_of_exec (m := ⟨n, c⟩) hl.head hd)
      refine ⟨1 + k, ?_, ?_⟩
      · rw [after_trans h1 hk, Nat.add_assoc]
      · rwa [← Nat.add_assoc]
    · rename_i e he
      simp only [Except.error.injEq, Prod.mk.injEq] at h
      obtain ⟨rfl, rfl⟩ := h
      obtain ⟨d, rfl⟩ := divide_of_exec_error he
      exact ⟨0, rfl, d, hl.head, he⟩

end Code

end WhileAsm.Asm
