import WhileAsm.Document.Fault

/-!
# Tokens

The pieces of a document: indicators, scalars, and the starts and ends of block collections that
indentation implies.
-/

namespace WhileAsm.Document

inductive TokenKind where
  | streamEnd
  | version (major minor : Nat)
  | handle (name target : String)
  | documentStart
  | documentEnd
  | blockSequenceStart
  | blockMappingStart
  | blockEnd
  | flowSequenceStart
  | flowSequenceEnd
  | flowMappingStart
  | flowMappingEnd
  | blockEntry
  | flowEntry
  | key
  | value
  | aliased (name : String)
  | anchor (name : String)
  | tag (handle suffix : String)
  | scalar (text : String) (plain : Bool)
  | fault (f : Fault)
  deriving DecidableEq, Repr, Inhabited

/-- A token with the points where it starts and stops. -/
structure Token where
  kind : TokenKind
  start : Mark
  stop : Mark
  deriving Repr, Inhabited

end WhileAsm.Document
