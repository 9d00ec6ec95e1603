import WhileAsm.Document.Encoding
import WhileAsm.Document.Token.Scalar

/-!
# Anchors, tags and directives

The names that can stand in front of a node, and the lines in front of a document that say how its
tags are to be read.
-/

namespace WhileAsm.Document.Tag

/-- The name of an anchor or an alias, after its indicator. It ends at a blank, at a line break or
at an indicator. -/
def readName (c : Cursor) : Except Fault (String × Cursor) :=
  let (name, after) := c.next.span isNameChar
  let ends := Cursor.stops after.rest || after.peek.any fun ch =>
    ch == '?' || ch == ':' || ch == ',' || ch == ']' || ch == '\x7d' || ch == '%' || ch == '@'
      || ch == '\x60'
  if name.isEmpty || !ends then .error (.ofToken .badAnchorName c.mark after.mark)
  else .ok (String.ofList name, after)

/-- The characters of a tag besides those of names. -/
def isUriChar (c : Char) : Bool :=
  isNameChar c || ";/?:@&=+$.,!~*()[]%".toList.contains c || c == '\x27'

/-- One byte written as `%` and two digits of base sixteen. -/
def readOctet (cs : List Char) : Option Nat :=
  match cs with
  | '%' :: rest => Scalar.hexCode? 2 rest
  | _ => none

/-- The further bytes of a character, `n` of them, added to what its first byte gives. -/
def readTrailing : Nat → List Char → Nat → Except Problem Nat
  | 0, _, code => .ok code
  | n + 1, cs, code =>
    match readOctet cs with
    | none => .error (.badTag "did not find URI escaped octet")
    | some t =>
      if t / 0x40 ≠ 0x2 then .error (.badTag "found an incorrect trailing UTF-8 octet")
      else readTrailing n (cs.drop 3) (code * 0x40 + t % 0x40)

/-- A character written as the bytes of its UTF-8 form, and how many characters that takes. -/
def readEscaped (cs : List Char) : Except Problem (Char × Nat) :=
  match readOctet cs with
  | none => .error (.badTag "did not find URI escaped octet")
  | some b =>
    let width := utf8Width b
    if width = 0 then .error (.badTag "found an incorrect leading UTF-8 octet")
    else
      match readTrailing (width - 1) (cs.drop 3) (utf8Head width b) with
      | .error p => .error p
      | .ok code => .ok (Char.ofNat code, 3 * width)

/-- Reads the characters of a tag. -/
def readUriChars (start : Mark) : Nat → String → Cursor → Except Fault (String × Cursor)
  | 0, text, c => .ok (text, c)
  | fuel + 1, text, c =>
    match c.peek with
    | some '%' =>
      match readEscaped c.rest with
      | .error p => .error (.ofToken p start c.mark)
      | .ok (ch, n) => readUriChars start fuel (text.push ch) (c.skip n)
    | some ch =>
      if isUriChar ch then readUriChars start fuel (text.push ch) c.next else .ok (text, c)
    | none => .ok (text, c)

/-- The rest of a tag after `head`; a tag without a head needs at least one character. -/
def readUri (start : Mark) (head : String) (headed : Bool) (c : Cursor) :
    Except Fault (String × Cursor) :=
  match readUriChars start c.steps head c with
  | .error f => .error f
  | .ok (text, after) =>
    if !headed && after.mark.index == c.mark.index then
      .error (.ofToken (.badTag "did not find expected tag URI") start c.mark)
    else .ok (text, after)

/-- A handle: `!`, or name characters between two of them. The text may also be the beginning of a
tag without a handle, and then it does not end in `!`. -/
def readHandle (directive : Bool) (start : Mark) (c : Cursor) : Except Fault (String × Cursor) :=
  if c.peek ≠ some '!' then
    .error (.ofToken (.badTag "did not find expected '!'") start c.mark)
  else
    let (name, after) := c.next.span isNameChar
    if after.peek == some '!' then .ok (String.ofList ('!' :: name ++ ['!']), after.next)
    else if directive && !name.isEmpty then
      .error (.ofToken (.badTag "did not find expected '!'") start after.mark)
    else .ok (String.ofList ('!' :: name), after)

/-- A tag: `!<…>`, a suffix after a handle, or a suffix after a single `!`. The lone `!` is a suffix
without a handle. -/
def readTag (c : Cursor) : Except Fault (String × String × Cursor) :=
  let start := c.mark
  let body : Except Fault (String × String × Cursor) :=
    match c.rest with
    | '!' :: '<' :: _ =>
      match readUri start "" false c.next.next with
      | .error f => .error f
      | .ok (suffix, after) =>
        if after.peek == some '>' then .ok ("", suffix, after.next)
        else .error (.ofToken (.badTag "did not find the expected '>'") start after.mark)
    | _ =>
      match readHandle false start c with
      | .error f => .error f
      | .ok (handle, after) =>
        if handle.length > 1 && handle.endsWith "!" then
          match readUri start "" false after with
          | .error f => .error f
          | .ok (suffix, after) => .ok (handle, suffix, after)
        else
          match readUri start (String.ofList (handle.toList.drop 1)) true after with
          | .error f => .error f
          | .ok (suffix, after) =>
            if suffix.isEmpty then .ok ("", "!", after) else .ok ("!", suffix, after)
  match body with
  | .error f => .error f
  | .ok (handle, suffix, after) =>
    if Cursor.stops after.rest then .ok (handle, suffix, after)
    else .error
      (.ofToken (.badTag "did not find expected whitespace or line break") start after.mark)

/-! ## Directives -/

/-- A number of a version, of at most two digits. -/
def readVersionNumber (start : Mark) (c : Cursor) : Except Fault (Nat × Cursor) :=
  let (digits, after) := c.span Char.isDigit
  let fail (what : String) : Except Fault (Nat × Cursor) :=
    .error (.ofToken (.badDirective what) start after.mark)
  if digits.isEmpty then fail "did not find expected version number"
  else if digits.length > 2 then fail "found extremely long version number"
  else .ok (digits.foldl (fun n d => n * 10 + (d.toNat - 48)) 0, after)

def readVersion (start : Mark) (c : Cursor) : Except Fault (TokenKind × Cursor) :=
  match readVersionNumber start (c.skipWhile isBlank) with
  | .error f => .error f
  | .ok (major, c) =>
    if c.peek ≠ some '.' then
      .error (.ofToken (.badDirective "did not find expected digit or '.' character") start c.mark)
    else
      match readVersionNumber start c.next with
      | .error f => .error f
      | .ok (minor, c) => .ok (.version major minor, c)

def readHandleDefinition (start : Mark) (c : Cursor) : Except Fault (TokenKind × Cursor) :=
  match readHandle true start (c.skipWhile isBlank) with
  | .error f => .error f
  | .ok (handle, c) =>
    if !c.peek.any isBlank then
      .error (.ofToken (.badDirective "did not find expected whitespace") start c.mark)
    else
      match readUri start "" false (c.skipWhile isBlank) with
      | .error f => .error f
      | .ok (target, c) =>
        if Cursor.stops c.rest then .ok (.handle handle target, c)
        else .error (.ofToken
          (.badDirective "did not find expected whitespace or line break") start c.mark)

/-- A directive with the rest of its line. -/
def readDirective (c : Cursor) : Except Fault (TokenKind × Mark × Cursor) :=
  let start := c.mark
  let (name, after) := c.next.span isNameChar
  let fail (what : String) (c : Cursor) : Except Fault (TokenKind × Cursor) :=
    .error (.ofToken (.badDirective what) start c.mark)
  let body :=
    if name.isEmpty then fail "could not find expected directive name" after
    else if !Cursor.stops after.rest then
      fail "found unexpected non-alphabetical character" after
    else match String.ofList name with
      | "YAML" => readVersion start after
      | "TAG" => readHandleDefinition start after
      | _ => fail "found unknown directive name" after
  match body with
  | .error f => .error f
  | .ok (kind, c) =>
    let stop := c.mark
    let c := c.skipWhile isBlank
    let c := if c.peek == some '#' then c.skipWhile (!isBreak ·) else c
    match c.rest, c.lineBreak? with
    | [], _ => .ok (kind, stop, c)
    | _, some (_, after) => .ok (kind, stop, after)
    | _, none =>
      .error (.ofToken (.badDirective "did not find expected comment or line break") start c.mark)

end WhileAsm.Document.Tag
