/-!
# Assembly lines

The instructions and directives of a listing, and their text: operands in the order source,
destination, registers with a percent sign, constants and addresses with a dollar sign.
-/

namespace WhileAsm.Asm

/-- Where an instruction finds or leaves a value. -/
inductive Operand where
  | imm (value : Int64)
  | reg (name : String)
  /-- The contents of a storage cell. -/
  | mem (cell : String)
  deriving DecidableEq, Repr, Inhabited

def registerText (name : String) : String := "%" ++ name

/-- The address of a storage cell, as a constant. -/
def addressText (cell : String) : String := "$" ++ cell

/-- A label of the data section, addressed from the instruction that uses it. -/
def relativeText (label : String) : String := label ++ "(%rip)"

def Operand.text : Operand → String
  | .imm v => "$" ++ toString v.toInt
  | .reg name => registerText name
  | .mem cell => cell

/-- The operations of two operands that leave their result in the second. -/
inductive ArithOp where
  | add
  | sub
  | mul
  | xor
  deriving DecidableEq, Repr, Inhabited

def ArithOp.mnemonic : ArithOp → String
  | .add => "addq"
  | .sub => "subq"
  | .mul => "imulq"
  | .xor => "xorq"

inductive Instr where
  | move (source target : Operand)
  /-- Puts the address of a cell into a register. -/
  | moveAddress (cell register : String)
  /-- Puts the address of a label of the data section into a register. -/
  | loadAddress (label register : String)
  | clear (register : String)
  | arith (op : ArithOp) (source target : Operand)
  | negate (target : Operand)
  /-- Extends the sign of the dividend register into the remainder register. -/
  | signExtend
  | divide (divisor : Operand)
  | compare (value : Int64) (operand : Operand)
  | jumpIfEqual (label : String)
  | jump (label : String)
  | call (function : String)
  | push (register : String)
  | pop (register : String)
  | ret
  deriving DecidableEq, Repr, Inhabited

/-- An instruction or directive with its arguments. -/
def instrText (mnemonic : String) (args : List String) : String :=
  if args.isEmpty then "\t" ++ mnemonic
  else "\t" ++ mnemonic ++ "\t" ++ ", ".intercalate args

/-- An operation of two operands. -/
def binaryText (mnemonic : String) (source target : Operand) : String :=
  instrText mnemonic [source.text, target.text]

def moveText (source target : Operand) : String := binaryText "movq" source target

def jumpText (label : String) : String := instrText "jmp" [label]

/-- The definition of a label. -/
def labelText (label : String) : String := label ++ ":"

def Instr.text : Instr → String
  | .move s t => moveText s t
  | .moveAddress cell r => instrText "movq" [addressText cell, registerText r]
  | .loadAddress label r => instrText "lea" [relativeText label, registerText r]
  | .clear r => instrText "xor" [registerText r, registerText r]
  | .arith op s t => binaryText op.mnemonic s t
  | .negate t => instrText "negq" [t.text]
  | .signExtend => instrText "cqto" []
  | .divide d => instrText "idivq" [d.text]
  | .compare v o => binaryText "cmpq" (.imm v) o
  | .jumpIfEqual label => instrText "je" [label]
  | .jump label => jumpText label
  | .call f => instrText "call" [f]
  | .push r => instrText "push" [registerText r]
  | .pop r => instrText "pop" [registerText r]
  | .ret => instrText "ret" []

/-- A line of a listing. -/
inductive Line where
  | global (symbol : String)
  | textSection
  | dataSection
  | label (name : String)
  | instr (i : Instr)
  /-- The format of a number that is read, padded to four bytes. -/
  | readFormat (name : String)
  /-- The format of a number that is written, on a line of its own. -/
  | writeFormat (name : String)
  /-- A storage cell, zero at the start. -/
  | cell (name : String)
  deriving DecidableEq, Repr, Inhabited

def Line.text : Line → String
  | .global s => instrText ".globl" [s]
  | .textSection => instrText ".text" []
  | .dataSection => instrText ".data" []
  | .label name => labelText name
  | .instr i => i.text
  | .readFormat name => name ++ ":\t.ascii\t\"%d\\0\\0\""
  | .writeFormat name => name ++ ":\t.ascii\t\"%d\\n\\0\""
  | .cell name => name ++ ":\t.quad\t0"

/-- Lines as one text; each ends with a line feed. -/
def joinLines (lines : List String) : String :=
  if lines.isEmpty then "" else "\n".intercalate lines ++ "\n"

/-- The text of a listing. -/
def listingText (lines : List Line) : String := joinLines (lines.map Line.text)

end WhileAsm.Asm
