import WhileAsm.Journal.Event
import WhileAsm.Text.Quoted

/-!
# Records

The line that shows an event: names and values joined by equals signs and set apart by blanks. A
value that would make the line ambiguous or hard to read is quoted.
-/

namespace WhileAsm.Journal

/-- Whether a character may stand in a value that is not quoted. -/
def isBare (c : Char) : Bool :=
  if c.toNat < 0x80 then !(c.toNat ≤ 0x20 || c == '=' || c == '\x22')
  else c != '\ufffd' && !Text.isSpace c && Text.isPrintable c

/-- A name or value inside a record. -/
def valueText (s : String) : String :=
  if s ≠ "" ∧ s.toList.all isBare then s else Text.quote s

def attributeText (a : String × String) : String := valueText a.1 ++ "=" ++ valueText a.2

/-- The record of an event, with its line feed. -/
def Event.record (e : Event) : String :=
  let attributes := [("level", e.level.text), ("msg", e.message)] ++ e.attributes
  " ".intercalate (attributes.map attributeText) ++ "\n"

end WhileAsm.Journal
