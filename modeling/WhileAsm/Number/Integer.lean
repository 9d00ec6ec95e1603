/-!
# Integer literals

Whole numbers in text: a sign, then digits in base two, eight, ten or sixteen, where `0b`, `0o`,
`0x` or a leading `0` announces the base.
-/

namespace WhileAsm.Number

/-- The value of a digit in bases up to thirty-six. -/
def digit? (c : Char) : Option Nat :=
  if c.isDigit then some (c.toNat - 48)
  else if 'a' ≤ c ∧ c ≤ 'z' then some (c.toNat - 87)
  else if 'A' ≤ c ∧ c ≤ 'Z' then some (c.toNat - 55)
  else none

/-- The value of a non-empty run of digits. -/
def digits? (base : Nat) (cs : List Char) : Option Nat :=
  if cs.isEmpty then none
  else cs.foldlM (fun n c => do
    let d ← digit? c
    if d < base then some (n * base + d) else none) 0

/-- An unsigned literal whose base is announced by how it starts. -/
def natural? : List Char → Option Nat
  | ['0'] => some 0
  | '0' :: c :: d :: rest =>
    match c.toLower with
    | 'b' => digits? 2 (d :: rest)
    | 'o' => digits? 8 (d :: rest)
    | 'x' => digits? 16 (d :: rest)
    | _ => digits? 8 (c :: d :: rest)
  | '0' :: rest => digits? 8 rest
  | cs => digits? 10 cs

/-- Reads a sign in front of what `unsigned?` reads. -/
def signed? (unsigned? : List Char → Option Nat) : List Char → Option Int
  | '-' :: cs => (unsigned? cs).map fun n => -(n : Int)
  | '+' :: cs => (unsigned? cs).map fun n => (n : Int)
  | cs => (unsigned? cs).map fun n => (n : Int)

/-- The least and the greatest 64-bit number. -/
def minInt64 : Int := -9223372036854775808

def maxInt64 : Int := 9223372036854775807

/-- A signed number, if it has 64 bits. -/
def int64? (v : Option Int) : Option Int :=
  v.filter fun n => decide (minInt64 ≤ n ∧ n ≤ maxInt64)

end WhileAsm.Number
