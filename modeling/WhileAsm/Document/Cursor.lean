import WhileAsm.Tree.Basic

/-!
# Reading positions

A cursor is what is left of a text together with the point reached so far. Lines end at a carriage
return, a line feed, both in this order, a next-line character, or a line or paragraph separator.
-/

namespace WhileAsm.Document

/-- A point of a text: the characters, lines and columns before it. -/
structure Mark where
  index : Nat := 0
  line : Nat := 0
  column : Nat := 0
  deriving DecidableEq, Repr, Inhabited

/-- The point counted from one, as reports show it. -/
def Mark.position (m : Mark) : Position := ⟨m.line + 1, m.column + 1⟩

def isBlank (c : Char) : Bool := c == ' ' || c == '\t'

def isBreak (c : Char) : Bool :=
  c == '\n' || c == '\r' || c == '\x85' || c == '\u2028' || c == '\u2029'

/-- The characters of names: anchors, directives and tag handles. -/
def isNameChar (c : Char) : Bool := c.isAlphanum || c == '_' || c == '-'

structure Cursor where
  rest : List Char
  mark : Mark
  /-- The number of characters of the whole text. -/
  total : Nat
  deriving Repr, Inhabited

namespace Cursor

/-- The start of a text. -/
def ofText (chars : List Char) : Cursor := ⟨chars, {}, chars.length⟩

/-- More steps than there are characters left: what takes a character at each step ends before. -/
def steps (c : Cursor) : Nat := c.total - c.mark.index + 1

def peek (c : Cursor) : Option Char := c.rest.head?

def column (c : Cursor) : Nat := c.mark.column

/-- Whether a text stops here: at its end, at a blank or at a line break. -/
def stops : List Char → Bool
  | [] => true
  | ch :: _ => isBlank ch || isBreak ch

/-- Whether a line stops here. -/
def lineStops : List Char → Bool
  | [] => true
  | ch :: _ => isBreak ch

/-- Moves past one character. The first half of a two-character line break is part of its line. -/
def next (c : Cursor) : Cursor :=
  let m := c.mark
  match c.rest with
  | [] => c
  | '\r' :: '\n' :: rest => { c with rest := '\n' :: rest, mark := { m with index := m.index + 1 } }
  | ch :: rest =>
    if isBreak ch then { c with rest := rest, mark := ⟨m.index + 1, m.line + 1, 0⟩ }
    else { c with rest := rest, mark := ⟨m.index + 1, m.line, m.column + 1⟩ }

/-- Moves past `n` characters. -/
def skip : Nat → Cursor → Cursor
  | 0, c => c
  | n + 1, c => skip n c.next

/-- The characters from here on that satisfy `p`, and the point after them. -/
def span (p : Char → Bool) (c : Cursor) : List Char × Cursor :=
  let taken := c.rest.takeWhile p
  (taken, c.skip taken.length)

/-- Moves past the characters that satisfy `p`. -/
def skipWhile (p : Char → Bool) (c : Cursor) : Cursor := (c.span p).2

/-- Moves past one line break. Its text is a line feed, or the separator itself. -/
def lineBreak? (c : Cursor) : Option (Char × Cursor) :=
  match c.rest with
  | '\r' :: '\n' :: _ => some ('\n', c.next.next)
  | ch :: _ =>
    if !isBreak ch then none
    else some (if ch == '\u2028' || ch == '\u2029' then ch else '\n', c.next)
  | [] => none

/-- Whether a line starting here is a document indicator, `---` or `...`. -/
def atIndicator (c : Cursor) : Bool :=
  c.column == 0 &&
    match c.rest with
    | '-' :: '-' :: '-' :: rest => stops rest
    | '.' :: '.' :: '.' :: rest => stops rest
    | _ => false

end Cursor

end WhileAsm.Document
