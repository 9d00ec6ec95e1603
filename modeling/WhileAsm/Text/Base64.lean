/-!
# Base64

Bytes written with the standard 64 characters, four for three bytes, padded with `=`.
-/

namespace WhileAsm.Text.Base64

def digit? (c : Char) : Option Nat :=
  if 'A' ≤ c ∧ c ≤ 'Z' then some (c.toNat - 65)
  else if 'a' ≤ c ∧ c ≤ 'z' then some (c.toNat - 71)
  else if '0' ≤ c ∧ c ≤ '9' then some (c.toNat + 4)
  else if c = '+' then some 62
  else if c = '/' then some 63
  else none

/-- The bytes of four characters; padding may stand for the last one or two. -/
def group? (a b c d : Char) : Option (List UInt8) := do
  let x ← digit? a
  let y ← digit? b
  let first := UInt8.ofNat (x * 4 + y / 16)
  if c = '=' then
    if d = '=' then return [first] else none
  else
    let z ← digit? c
    let second := UInt8.ofNat (y % 16 * 16 + z / 4)
    if d = '=' then return [first, second]
    else
      let w ← digit? d
      return [first, second, UInt8.ofNat (z % 4 * 64 + w)]

/-- Padding ends the text. -/
def groups? : List Char → Option (List UInt8)
  | [] => some []
  | a :: b :: c :: d :: rest => do
    let bytes ← group? a b c d
    if d = '=' then
      if rest.isEmpty then return bytes else none
    else return bytes ++ (← groups? rest)
  | _ => none

/-- The bytes that a text stands for; line breaks inside it are skipped. -/
def decode? (s : String) : Option ByteArray :=
  (groups? (s.toList.filter fun c => c ≠ '\r' ∧ c ≠ '\n')).map fun bytes => ⟨bytes.toArray⟩

end WhileAsm.Text.Base64
