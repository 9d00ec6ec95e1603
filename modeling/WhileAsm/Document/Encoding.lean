import WhileAsm.Document.Fault

/-!
# From bytes to characters

A document is UTF-8, or UTF-16 if a byte order mark says so; the mark itself is skipped. Bytes are
taken in blocks of 512, and a block with a byte sequence or a character that no document may hold is
refused as a whole, so a text may be good up to the block before.
-/

namespace WhileAsm.Document

/-- The characters that a document may hold. -/
def isAllowed (n : Nat) : Bool :=
  n == 0x9 || n == 0xa || n == 0xd || (0x20 ≤ n && n ≤ 0x7e) || n == 0x85
    || (0xa0 ≤ n && n ≤ 0xd7ff) || (0xe000 ≤ n && n ≤ 0xfffd) || (0x10000 ≤ n && n ≤ 0x10ffff)

/-- What one step of decoding finds at the head of some bytes. -/
inductive Decoded where
  | char (code width : Nat)
  /-- The bytes end inside a character. -/
  | short (problem : Problem)
  | bad (problem : Problem)
  deriving Repr, Inhabited

/-- The bytes of a character in UTF-8 by its first byte. -/
def utf8Width (b : Nat) : Nat :=
  if b < 0x80 then 1
  else if b / 0x20 = 0x6 then 2
  else if b / 0x10 = 0xe then 3
  else if b / 0x8 = 0x1e then 4
  else 0

/-- What the first byte of a character adds to its code. -/
def utf8Head : Nat → Nat → Nat
  | 1, b => b
  | 2, b => b % 0x20
  | 3, b => b % 0x10
  | _, b => b % 0x8

/-- The least code that needs `width` bytes. -/
def utf8Least : Nat → Nat
  | 1 => 0
  | 2 => 0x80
  | 3 => 0x800
  | _ => 0x10000

def decodeUtf8 : List UInt8 → Decoded
  | [] => .bad (.badEncoding "incomplete UTF-8 octet sequence")
  | b :: rest =>
    let width := utf8Width b.toNat
    if width = 0 then .bad (.badEncoding "invalid leading UTF-8 octet")
    else if (rest.take (width - 1)).length + 1 < width then .short (.badEncoding "incomplete UTF-8 octet sequence")
    else
      let tail := (rest.take (width - 1)).map UInt8.toNat
      if tail.any fun t => t / 0x40 ≠ 0x2 then .bad (.badEncoding "invalid trailing UTF-8 octet")
      else
        let code := tail.foldl (fun n t => n * 0x40 + t % 0x40) (utf8Head width b.toNat)
        if code < utf8Least width then .bad (.badEncoding "invalid length of a UTF-8 sequence")
        else if (0xd800 ≤ code && code ≤ 0xdfff) || 0x10ffff < code then
          .bad (.badEncoding "invalid Unicode character")
        else .char code width

/-- The 16-bit unit of two bytes. -/
def unit16 (bigEndian : Bool) (a b : UInt8) : Nat :=
  if bigEndian then a.toNat * 0x100 + b.toNat else b.toNat * 0x100 + a.toNat

def decodeUtf16 (bigEndian : Bool) : List UInt8 → Decoded
  | a :: b :: rest =>
    let u := unit16 bigEndian a b
    if 0xdc00 ≤ u && u ≤ 0xdfff then .bad (.badEncoding "unexpected low surrogate area")
    else if 0xd800 ≤ u && u ≤ 0xdbff then
      match rest with
      | c :: d :: _ =>
        let v := unit16 bigEndian c d
        if 0xdc00 ≤ v && v ≤ 0xdfff then
          .char (0x10000 + (u % 0x400) * 0x400 + v % 0x400) 4
        else .bad (.badEncoding "expected low surrogate area")
      | _ => .short (.badEncoding "incomplete UTF-16 surrogate pair")
    else .char u 2
  | _ => .short (.badEncoding "incomplete UTF-16 character")

/-- A decoded text: its characters, and the fault that a reader meets who asks for more. -/
structure Text where
  chars : List Char
  fault : Option Fault
  deriving Repr, Inhabited

/-- The characters that the bytes of one block complete, in reverse, with the bytes left over. -/
def decodeBlock (decode : List UInt8 → Decoded) :
    Nat → List UInt8 → List Char → Except Problem (List Char × List UInt8)
  | 0, bytes, acc => .ok (acc, bytes)
  | _, [], acc => .ok (acc, [])
  | fuel + 1, bytes, acc =>
    match decode bytes with
    | .char code width =>
      if isAllowed code then
        decodeBlock decode fuel (bytes.drop width) (Char.ofNat code :: acc)
      else .error .controlCharacter
    | .short _ => .ok (acc, bytes)
    | .bad p => .error p

/-- The size of the blocks in which bytes are taken. -/
def blockSize : Nat := 512

/-- Decodes block after block. `pending` holds the bytes of a character that the last block began,
and they count as part of the next one. -/
def decodeBlocks (decode : List UInt8 → Decoded) :
    Nat → List UInt8 → List UInt8 → List Char → Text
  | 0, _, _, acc => ⟨acc.reverse, none⟩
  | fuel + 1, pending, bytes, acc =>
    match bytes with
    | [] =>
      match pending, decode pending with
      | _ :: _, .short p => ⟨acc.reverse, some (.ofBytes p)⟩
      | _, _ => ⟨acc.reverse, none⟩
    | _ :: _ =>
      let size := blockSize - pending.length
      let block := pending ++ bytes.take size
      match decodeBlock decode block.length block acc with
      | .error p => ⟨acc.reverse, some (.ofBytes p)⟩
      | .ok (acc, pending) => decodeBlocks decode fuel pending (bytes.drop size) acc

/-- The text of a document. A byte order mark at its head chooses the encoding and counts towards
the first block. -/
def decodeText (bytes : List UInt8) : Text :=
  let (decode, mark) : (List UInt8 → Decoded) × Nat := match bytes with
    | 0xff :: 0xfe :: _ => (decodeUtf16 false, 2)
    | 0xfe :: 0xff :: _ => (decodeUtf16 true, 2)
    | 0xef :: 0xbb :: 0xbf :: _ => (decodeUtf8, 3)
    | _ => (decodeUtf8, 0)
  let first := (bytes.take blockSize).drop mark
  match decodeBlock decode first.length first [] with
  | .error p => ⟨[], some (.ofBytes p)⟩
  | .ok (acc, pending) =>
    decodeBlocks decode (bytes.length + 1) pending (bytes.drop blockSize) acc

end WhileAsm.Document
