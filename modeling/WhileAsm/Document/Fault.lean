import WhileAsm.Document.Cursor

/-!
# Malformed documents

Why a text is no document. A fault is found in the bytes, in the tokens or in the structure; its
message names the line on which the construct at fault begins, unless that is the first one.
-/

namespace WhileAsm.Document

/-- What is wrong with a text. -/
inductive Problem where
  | controlCharacter
  | badEncoding (what : String)
  | unreadable (why : String)
  | badTokenStart
  | keyNotFollowed
  | blockEntryMisplaced
  | keyMisplaced
  | valueMisplaced
  | tooDeep (limit : Nat)
  | badAnchorName
  | badTag (what : String)
  | badDirective (what : String)
  | badBlockHeader (what : String)
  | tabIndent (what : String)
  | unclosedQuote
  | indicatorInQuote
  | badEscape (what : String)
  | unexpected (what : String)
  | undefinedHandle
  | unknownAnchor (name : String)
  | duplicateDirective (name : String)
  | incompatibleVersion
  deriving DecidableEq, Repr, Inhabited

def Problem.text : Problem → String
  | .controlCharacter => "control characters are not allowed"
  | .badEncoding what => what
  | .unreadable why => "input error: " ++ why
  | .badTokenStart => "found character that cannot start any token"
  | .keyNotFollowed => "could not find expected ':'"
  | .blockEntryMisplaced => "block sequence entries are not allowed in this context"
  | .keyMisplaced => "mapping keys are not allowed in this context"
  | .valueMisplaced => "mapping values are not allowed in this context"
  | .tooDeep limit => "exceeded max depth of " ++ toString limit
  | .badAnchorName => "did not find expected alphabetic or numeric character"
  | .badTag what => what
  | .badDirective what => what
  | .badBlockHeader what => what
  | .tabIndent what => "found a tab character " ++ what
  | .unclosedQuote => "found unexpected end of stream"
  | .indicatorInQuote => "found unexpected document indicator"
  | .badEscape what => what
  | .unexpected what => "did not find expected " ++ what
  | .undefinedHandle => "found undefined tag handle"
  | .unknownAnchor name => "unknown anchor '" ++ name ++ "' referenced"
  | .duplicateDirective name => "found duplicate %" ++ name ++ " directive"
  | .incompatibleVersion => "found incompatible YAML document"

structure Fault where
  problem : Problem
  /-- The line of the construct at fault, counted from one; zero for none and for the first. -/
  line : Nat
  deriving DecidableEq, Repr, Inhabited

namespace Fault

/-- The first of two line numbers that is not zero. -/
def firstLine (a b : Nat) : Nat := if a ≠ 0 then a else b

/-- A fault of the bytes has no line. -/
def ofBytes (p : Problem) : Fault := ⟨p, 0⟩

/-- A fault met at `found` while reading a token that began at `context`. -/
def ofToken (p : Problem) (context found : Mark) : Fault :=
  let line := firstLine context.line found.line
  ⟨p, if line = 0 then 0 else line + 1⟩

/-- A fault of the structure, met at `found` inside a collection that began at `context`. -/
def ofStructure (p : Problem) (context found : Mark) : Fault :=
  ⟨p, firstLine context.line found.line⟩

def message (f : Fault) : String :=
  "yaml: " ++ (if f.line = 0 then "" else "line " ++ toString f.line ++ ": ") ++ f.problem.text

end Fault

end WhileAsm.Document
