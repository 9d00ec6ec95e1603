/-!
# Targets

What a listing is written for: the registers by their roles, the routines that read and write, and
the labels of the data section. The operating system changes no line of a listing; it decides how
the listing is assembled and linked.
-/

namespace WhileAsm.Asm

inductive OS where
  | linux
  | darwin
  | unknown
  deriving DecidableEq, Repr, Inhabited

namespace OS

def ofCode : Int → OS
  | 0 => .linux
  | 1 => .darwin
  | _ => .unknown

def text : OS → String
  | .linux => "linux"
  | .darwin => "darwin"
  | .unknown => "unknown"

def ofText? : String → Option OS
  | "linux" => some .linux
  | "darwin" => some .darwin
  | _ => none

end OS

structure Target where
  os : OS
  /-- The global symbol of the program. -/
  entryPoint : String
  scanFunc : String
  printFunc : String
  /-- Cleared before a call with a variable number of arguments. -/
  returnReg : String
  /-- Saved while the program runs. -/
  basePointer : String
  /-- The registers of the first call arguments: a format, then a value or an address. -/
  argRegs : List String
  /-- Holds the dividend of a division, then the quotient. -/
  dividendReg : String
  remainderReg : String
  /-- The registers for intermediate values, in order of preference. -/
  scratch : List String
  readFormat : String
  writeFormat : String
  deriving DecidableEq, Repr, Inhabited

namespace Target

/-- The 64-bit target on an operating system. -/
def x86_64 (os : OS) : Target where
  os := os
  entryPoint := "_main"
  scanFunc := "scanf"
  printFunc := "_printf"
  returnReg := "rax"
  basePointer := "rbp"
  argRegs := ["rdi", "rsi"]
  dividendReg := "rax"
  remainderReg := "rdx"
  scratch := ["rax", "rcx", "r8", "r9", "r10", "r11"]
  readFormat := "READ"
  writeFormat := "WRITE"

/-- Why no target has some names. -/
inductive Unsupported where
  | os (name : String)
  | architecture (name : String)
  deriving DecidableEq, Repr, Inhabited

def Unsupported.message : Unsupported → String
  | .os name => "unsupported OS: " ++ name
  | .architecture name => "unsupported architecture: " ++ name

/-- The target with the given names; an unknown system is reported before an unknown machine. -/
def resolve (os architecture : String) : Except Unsupported Target :=
  match OS.ofText? os with
  | none => .error (.os os)
  | some os =>
    if architecture = "amd64" ∨ architecture = "x86_64" then .ok (x86_64 os)
    else .error (.architecture architecture)

/-- The target of this machine. -/
def host : Target := x86_64 .linux

end Target

/-! ## Files -/

def asmExtension : String := ".s"

def objectExtension : String := ".o"

def executableExtension : String := ""

end WhileAsm.Asm
