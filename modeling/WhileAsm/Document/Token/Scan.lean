import WhileAsm.Document.Token.Tag

/-!
# From characters to tokens

The scanner reads a text token by token. In block context it keeps a stack of indentations and
turns their changes into starts and ends of collections. A scalar or flow collection is known to be
a key only when the `:` after it is met, on the same line and soon enough; the key token, and the
start of a mapping if this is its first key, are then put in front of it.

A fault is met by whoever looks two tokens ahead of it, or at a token that could still become a key.
-/

namespace WhileAsm.Document

/-- A token that may turn out to be a key. -/
structure KeyCandidate where
  /-- In block context at the current indentation nothing but a key can stand. -/
  required : Bool
  /-- The number of the token. -/
  number : Nat
  mark : Mark
  deriving Repr, Inhabited

/-- How far a key may reach. -/
def keyReach : Nat := 1024

/-- A key ends on the line where it starts, and soon. -/
def KeyCandidate.inReach (k : KeyCandidate) (m : Mark) : Bool :=
  k.mark.line == m.line && m.index ≤ k.mark.index + keyReach

structure Scanner where
  cursor : Cursor
  /-- The fault that lies behind the last character, if any. -/
  beyond : Option Fault
  /-- The depth of flow collections. -/
  flow : Nat := 0
  /-- The indentations of the open block collections, innermost first. -/
  indents : List Nat := []
  keyAllowed : Bool := true
  /-- The candidate of each flow level, innermost first. -/
  candidates : List (Option KeyCandidate) := [none]
  /-- The tokens so far, last first, and their number. -/
  tokens : List Token := []
  count : Nat := 0
  finished : Bool := false
  deriving Repr, Inhabited

namespace Scanner

/-- How deep collections may be nested. -/
def maxDepth : Nat := 10000

def mark (s : Scanner) : Mark := s.cursor.mark

def fail {α : Type} (s : Scanner) (p : Problem) (context : Mark) : Except Fault α :=
  .error (.ofToken p context s.mark)

def push (s : Scanner) (t : Token) : Scanner :=
  { s with tokens := t :: s.tokens, count := s.count + 1 }

/-- Puts a token in front of the one with the given number. -/
def insert (s : Scanner) (number : Nat) (t : Token) : Scanner :=
  let later := s.count - number
  { s with
    tokens := s.tokens.take later ++ t :: s.tokens.drop later
    count := s.count + 1 }

/-- Adds a token that takes the next `n` characters. -/
def take (s : Scanner) (n : Nat) (kind : TokenKind) : Scanner :=
  let after := s.cursor.skip n
  { s with cursor := after }.push ⟨kind, s.mark, after.mark⟩

/-! ## Blanks and comments -/

/-- If only blanks and line breaks stand between here and a comment, where that comment starts.
Here a line ends, and the search goes no further than the next 512 characters. -/
def nextComment? (c : Cursor) : Option Cursor :=
  match c.rest with
  | ch :: rest =>
    if ch == '\n' || ch == '\r' then
      let between := (rest.take 511).takeWhile fun ch => isBlank ch || ch == '\n' || ch == '\r'
      if between.length < 511 && (rest.drop between.length).head? == some '#' then
        some (c.skip (between.length + 1))
      else none
    else none
  | [] => none

/-- Moves past a comment and the comments on the lines after it. -/
def skipComments : Nat → Cursor → Cursor
  | 0, c => c
  | fuel + 1, c =>
    let c := c.skipWhile (!isBreak ·)
    match nextComment? c with
    | some c => skipComments fuel c
    | none => c

/-- Moves to the next token. A tab may not stand where a key may start; in block context every new
line is such a place. A byte order mark may start the text. -/
def skipToToken : Nat → Scanner → Scanner
  | 0, s => s
  | fuel + 1, s =>
    let tabs := s.flow > 0 || !s.keyAllowed
    let c := s.cursor
    let c := if c.mark.index == 0 && c.peek == some '\ufeff' then c.next else c
    let c := c.skipWhile fun ch => ch == ' ' || (tabs && ch == '\t')
    let c := if c.peek == some '#' then skipComments c.steps c else c
    match c.lineBreak? with
    | some (_, c) =>
      skipToToken fuel { s with cursor := c, keyAllowed := s.keyAllowed || s.flow == 0 }
    | none => { s with cursor := c }

/-- Moves past a comment on the line where a token ended. -/
def skipLineComment (s : Scanner) : Scanner :=
  let c := s.cursor.skipWhile isBlank
  if c.peek == some '#' && c.mark.index < s.mark.index + 512 then
    { s with cursor := c.skipWhile (!isBreak ·) }
  else s

/-! ## Indentation -/

/-- The column that a block collection must exceed to be nested in the current one. -/
def indented (s : Scanner) (column : Nat) : Bool := s.indents.head?.all (· < column)

/-- Opens a block collection if `column` is further in than the current one. -/
def openBlock (s : Scanner) (column : Nat) (number : Nat) (kind : TokenKind) (m : Mark) :
    Except Fault Scanner :=
  if s.flow > 0 || !s.indented column then .ok s
  else if s.indents.length + 1 > maxDepth then s.fail (.tooDeep maxDepth) m
  else .ok ({ s with indents := column :: s.indents }.insert number ⟨kind, m, m⟩)

/-- Closes the innermost block collections as long as `outside` says so of their indentation. -/
def closeBlocks (outside : Nat → Bool) (m : Mark) : List Nat → Scanner → Scanner
  | [], s => { s with indents := [] }
  | n :: rest, s =>
    if s.flow == 0 && outside n then closeBlocks outside m rest (s.push ⟨.blockEnd, m, m⟩)
    else { s with indents := n :: rest }

/-- Closes the block collections that are further in than `column`. -/
def closeBeyond (s : Scanner) (column : Nat) (m : Mark) : Scanner :=
  closeBlocks (column < ·) m s.indents s

def closeAll (s : Scanner) (m : Mark) : Scanner := closeBlocks (fun _ => true) m s.indents s

/-! ## Keys -/

/-- Gives up the candidate of the current level. -/
def dropCandidate (s : Scanner) : Except Fault Scanner :=
  match s.candidates with
  | some k :: rest =>
    if k.required then s.fail .keyNotFollowed k.mark
    else .ok { s with candidates := none :: rest }
  | _ => .ok s

/-- Makes the next token a candidate, if a key may start here. -/
def saveCandidate (s : Scanner) : Except Fault Scanner :=
  if !s.keyAllowed then .ok s
  else
    let required := s.flow == 0 && s.indents.head? == some s.mark.column
    match s.dropCandidate with
    | .error f => .error f
    | .ok s => .ok { s with candidates := some ⟨required, s.count, s.mark⟩ :: s.candidates.drop 1 }

/-- The candidate of the current level, if it is still in reach. -/
def candidate? (s : Scanner) : Except Fault (Option KeyCandidate) :=
  match s.candidates with
  | some k :: _ =>
    if k.inReach s.mark then .ok (some k)
    else if k.required then s.fail .keyNotFollowed k.mark
    else .ok none
  | _ => .ok none

/-! ## Tokens -/

def flowStart (s : Scanner) (kind : TokenKind) : Except Fault Scanner := do
  let s ← s.saveCandidate
  if s.flow + 1 > maxDepth then s.fail (.tooDeep maxDepth) s.mark
  else
    let s := { s with candidates := none :: s.candidates, flow := s.flow + 1, keyAllowed := true }
    return s.take 1 kind

def flowEnd (s : Scanner) (kind : TokenKind) : Except Fault Scanner := do
  let s ← s.dropCandidate
  let s := if s.flow > 0 then { s with candidates := s.candidates.drop 1, flow := s.flow - 1 } else s
  return { s with keyAllowed := false }.take 1 kind

def flowEntry (s : Scanner) : Except Fault Scanner := do
  let s ← s.dropCandidate
  return { s with keyAllowed := true }.take 1 .flowEntry

def blockEntry (s : Scanner) : Except Fault Scanner := do
  let s ←
    if s.flow > 0 then .ok s
    else if !s.keyAllowed then s.fail .blockEntryMisplaced s.mark
    else s.openBlock s.mark.column s.count .blockSequenceStart s.mark
  let s ← s.dropCandidate
  return { s with keyAllowed := true }.take 1 .blockEntry

def explicitKey (s : Scanner) : Except Fault Scanner := do
  let s ←
    if s.flow > 0 then .ok s
    else if !s.keyAllowed then s.fail .keyMisplaced s.mark
    else s.openBlock s.mark.column s.count .blockMappingStart s.mark
  let s ← s.dropCandidate
  return { s with keyAllowed := s.flow == 0 }.take 1 .key

def valueIndicator (s : Scanner) : Except Fault Scanner := do
  match ← s.candidate? with
  | some k =>
    let s := s.insert k.number ⟨.key, k.mark, k.mark⟩
    let s ← s.openBlock k.mark.column k.number .blockMappingStart k.mark
    let s := { s with candidates := none :: s.candidates.drop 1, keyAllowed := false }
    return s.take 1 .value
  | none =>
    let s := { s with candidates := none :: s.candidates.drop 1 }
    let s ←
      if s.flow > 0 then .ok s
      else if !s.keyAllowed then s.fail .valueMisplaced s.mark
      else s.openBlock s.mark.column s.count .blockMappingStart s.mark
    return { s with keyAllowed := s.flow == 0 }.take 1 .value

/-- Adds a token that was read up to `after`. -/
def finish (s : Scanner) (kind : TokenKind) (stop : Mark) (after : Cursor) : Scanner :=
  { s with cursor := after }.push ⟨kind, s.mark, stop⟩

def anchorOrAlias (s : Scanner) (kind : String → TokenKind) : Except Fault Scanner := do
  let s ← s.saveCandidate
  let (name, after) ← Tag.readName s.cursor
  return { s with keyAllowed := false }.finish (kind name) after.mark after

def tag (s : Scanner) : Except Fault Scanner := do
  let s ← s.saveCandidate
  let (handle, suffix, after) ← Tag.readTag s.cursor
  return { s with keyAllowed := false }.finish (.tag handle suffix) after.mark after

def blockScalar (s : Scanner) (literal : Bool) : Except Fault Scanner := do
  let s ← s.dropCandidate
  let r ← Scalar.readBlock literal s.indents.head? s.cursor
  return { s with keyAllowed := true }.finish (.scalar r.text false) r.stop r.cursor

def quotedScalar (s : Scanner) (quote : Char) : Except Fault Scanner := do
  let s ← s.saveCandidate
  let r ← Scalar.readQuoted quote s.cursor
  return { s with keyAllowed := false }.finish (.scalar r.text false) r.stop r.cursor

/-- A plain scalar. One that reached over the end of its line may be followed by a key. -/
def plainScalar (s : Scanner) : Except Fault (Scanner × Bool) := do
  let s ← s.saveCandidate
  let indent := (s.indents.head?.map (· + 1)).getD 0
  let r ← Scalar.readPlain (s.flow > 0) indent s.cursor
  return ({ s with keyAllowed := r.crossed }.finish (.scalar r.text true) r.stop r.cursor, r.crossed)

/-- Ends everything that is open in front of a directive or a document indicator. -/
def endDocument (s : Scanner) : Except Fault Scanner := do
  let s ← (s.closeAll s.mark).dropCandidate
  return { s with keyAllowed := false }

def directive (s : Scanner) : Except Fault Scanner := do
  let s ← s.endDocument
  let (kind, stop, after) ← Tag.readDirective s.cursor
  return s.finish kind stop after

def documentIndicator (s : Scanner) (kind : TokenKind) : Except Fault Scanner := do
  let s ← s.endDocument
  return s.take 3 kind

/-- The end of the text counts as the start of a new line. -/
def streamEnd (s : Scanner) : Except Fault Scanner := do
  let m := s.mark
  let m := if m.column = 0 then m else { m with line := m.line + 1, column := 0 }
  let s ← { s with cursor := { s.cursor with mark := m } }.endDocument
  return { s with finished := true }.push ⟨.streamEnd, m, m⟩

/-- The indicators that no plain scalar starts with. -/
def isIndicator (c : Char) : Bool :=
  "-?:,[]#&*!|>%@".toList.contains c || c == '\x7b' || c == '\x7d' || c == '\x27' || c == '\x22'
    || c == '\x60'

/-- Whether a plain scalar starts with `ch` when `rest` follows. -/
def startsPlain (inFlow : Bool) (ch : Char) (rest : List Char) : Bool :=
  !(isBlank ch || isBreak ch || isIndicator ch)
    || (ch == '-' && !rest.head?.any isBlank)
    || (!inFlow && (ch == '?' || ch == ':') && !Cursor.stops rest)

/-- Reads the token that starts here, which is not a directive, a document indicator or the end. -/
def ordinary (s : Scanner) (ch : Char) (rest : List Char) : Except Fault Scanner := do
  let inFlow := s.flow > 0
  let stops := Cursor.stops rest
  let commented (r : Except Fault Scanner) : Except Fault Scanner := r.map skipLineComment
  if ch == '[' then commented (s.flowStart .flowSequenceStart)
  else if ch == '\x7b' then commented (s.flowStart .flowMappingStart)
  else if ch == ']' then commented (s.flowEnd .flowSequenceEnd)
  else if ch == '\x7d' then commented (s.flowEnd .flowMappingEnd)
  else if ch == ',' then commented s.flowEntry
  else if ch == '-' && stops then s.blockEntry
  else if ch == '?' && (inFlow || stops) then commented s.explicitKey
  else if ch == ':' && (inFlow || stops) then commented s.valueIndicator
  else if ch == '*' then commented (s.anchorOrAlias .aliased)
  else if ch == '&' then commented (s.anchorOrAlias .anchor)
  else if ch == '!' then commented s.tag
  else if ch == '|' && !inFlow then s.blockScalar true
  else if ch == '>' && !inFlow then s.blockScalar false
  else if ch == '\x27' || ch == '\x22' then commented (s.quotedScalar ch)
  else if startsPlain inFlow ch rest then
    let (s, crossed) ← s.plainScalar
    return if crossed then s else s.skipLineComment
  else s.fail .badTokenStart s.mark

/-- The fault behind the text, if reading has come that far. -/
def guardEnd (s : Scanner) (needed : Nat) : Except Fault Unit :=
  match s.beyond with
  | some f => if (s.cursor.rest.take needed).length < needed then .error f else .ok ()
  | none => .ok ()

/-- Reads the next token, with the ends of block collections before it. -/
def step (s : Scanner) : Except Fault Scanner := do
  let before := s.mark
  let s := skipToToken s.cursor.steps s
  s.guardEnd 4
  let s := s.closeBeyond s.mark.column before
  let s ← match s.cursor.rest with
    | [] => s.streamEnd
    | ch :: rest =>
      if s.mark.column == 0 && ch == '%' then s.directive
      else if s.cursor.atIndicator then
        s.documentIndicator (if ch == '-' then .documentStart else .documentEnd)
      else s.ordinary ch rest
  s.guardEnd 1
  return s

/-- The tokens that can be looked at before a fault is met, then the fault. -/
def cutShort (s : Scanner) (f : Fault) : List Token :=
  let pending := s.candidates.filterMap fun k =>
    k.bind fun k => if k.required || k.inReach s.mark then some k.number else none
  let good := pending.foldl min (s.count - 2)
  s.tokens.reverse.take good ++ [⟨.fault f, s.mark, s.mark⟩]

def run : Nat → Scanner → List Token
  | 0, s => s.tokens.reverse
  | fuel + 1, s =>
    if s.finished then s.tokens.reverse
    else match s.step with
      | .ok s' => run fuel s'
      | .error f => s.cutShort f

end Scanner

/-- The tokens of a text, up to its end or to what a fault leaves of it. -/
def Text.tokens (t : Text) : List Token :=
  Scanner.run (t.chars.length + 2) { cursor := .ofText t.chars, beyond := t.fault }

end WhileAsm.Document
