import WhileAsm.Document.Token

/-!
# Scalars

The four ways to write a scalar: plain, in single or double quotes, and as a literal or folded
block. Between two words on one line blanks are kept; a line break between two lines folds into one
space, and further ones are kept.
-/

namespace WhileAsm.Document.Scalar

/-! ## What separates words -/

/-- The blanks or line breaks between two words of a scalar. -/
structure Gap where
  blanks : List Char := []
  /-- The first line break; blanks around line breaks are dropped. -/
  first : Option Char := none
  more : List Char := []
  /-- Whether a line ended here, be it by an escaped line break. -/
  broken : Bool := false
  deriving Repr, Inhabited

/-- What a gap stands for in the text of a scalar. -/
def Gap.fold (g : Gap) : List Char :=
  if !g.broken then g.blanks
  else match g.first with
    | some '\n' => if g.more.isEmpty then [' '] else g.more
    | some b => b :: g.more
    | none => g.more

/-- Reads blanks and line breaks. With a limit, a tab left of that column at the start of a line
violates the indentation, and its mark is the error. -/
def readGap (limit : Option Nat) : Nat → Gap → Cursor → Except Mark (Gap × Cursor)
  | 0, g, c => .ok (g, c)
  | fuel + 1, g, c =>
    match c.lineBreak? with
    | some (b, c') =>
      let g' := if g.broken then { g with more := g.more ++ [b] }
        else { g with blanks := [], first := some b, broken := true }
      readGap limit fuel g' c'
    | none =>
      match c.peek with
      | some ch =>
        if !isBlank ch then .ok (g, c)
        else if g.broken && ch == '\t' && limit.any (c.column < ·) then .error c.mark
        else
          let g' := if g.broken then g else { g with blanks := g.blanks ++ [ch] }
          readGap limit fuel g' c.next
      | none => .ok (g, c)

/-! ## Plain scalars -/

/-- The characters that end a plain scalar inside a flow collection. -/
def isFlowIndicator (c : Char) : Bool :=
  c == ',' || c == '?' || c == '[' || c == ']' || c == '\x7b' || c == '\x7d'

/-- How many characters a word of a plain scalar has. -/
def wordLength (inFlow : Bool) : List Char → Nat
  | [] => 0
  | ch :: rest =>
    if isBlank ch || isBreak ch || (ch == ':' && Cursor.stops rest)
      || (inFlow && isFlowIndicator ch) then 0
    else wordLength inFlow rest + 1

/-- A scalar that has been read: its text, where it stops, whether reading went past the end of its
last line, and where reading goes on. -/
structure Read where
  text : String
  stop : Mark
  crossed : Bool
  cursor : Cursor
  deriving Repr, Inhabited

/-- Reads words until one is missing. `gap` separates the text so far from what comes next. -/
def readWords (inFlow : Bool) (indent : Nat) (start : Mark) :
    Nat → String → Gap → Mark → Cursor → Except Fault Read
  | 0, text, gap, stop, c => .ok ⟨text, stop, gap.broken, c⟩
  | fuel + 1, text, gap, stop, c =>
    let n := wordLength inFlow c.rest
    if c.atIndicator || c.peek == some '#' || n == 0 then .ok ⟨text, stop, gap.broken, c⟩
    else
      let text := text ++ String.ofList (gap.fold ++ c.rest.take n)
      let c := c.skip n
      match readGap (some indent) c.steps {} c with
      | .error found =>
        .error (.ofToken (.tabIndent "that violates indentation") start found)
      | .ok (gap, after) =>
        if after.mark.index == c.mark.index || (!inFlow && after.column < indent) then
          .ok ⟨text, c.mark, gap.broken, after⟩
        else readWords inFlow indent start fuel text gap c.mark after

/-- A plain scalar. Outside flow collections its lines are indented by at least `indent`. -/
def readPlain (inFlow : Bool) (indent : Nat) (c : Cursor) : Except Fault Read :=
  readWords inFlow indent c.mark c.steps "" {} c.mark c

/-! ## Quoted scalars -/

/-- What a one-letter escape stands for. -/
def escape? : Char → Option Char
  | '0' => some '\x00'
  | 'a' => some '\x07'
  | 'b' => some '\x08'
  | 't' => some '\t'
  | '\t' => some '\t'
  | 'n' => some '\n'
  | 'v' => some '\x0b'
  | 'f' => some '\x0c'
  | 'r' => some '\r'
  | 'e' => some '\x1b'
  | ' ' => some ' '
  | '\x22' => some '\x22'
  | '\x27' => some '\x27'
  | '\\' => some '\\'
  | 'N' => some '\x85'
  | '_' => some '\xa0'
  | 'L' => some '\u2028'
  | 'P' => some '\u2029'
  | _ => none

/-- How many digits a numeric escape takes. -/
def escapeDigits? : Char → Option Nat
  | 'x' => some 2
  | 'u' => some 4
  | 'U' => some 8
  | _ => none

def hexDigit? (c : Char) : Option Nat :=
  if c.isDigit then some (c.toNat - 48)
  else if 'a' ≤ c ∧ c ≤ 'f' then some (c.toNat - 87)
  else if 'A' ≤ c ∧ c ≤ 'F' then some (c.toNat - 55)
  else none

/-- The code that exactly `n` digits of base sixteen give. -/
def hexCode? (n : Nat) (cs : List Char) : Option Nat :=
  if cs.length < n then none
  else (cs.take n).foldlM (fun code ch => (hexDigit? ch).map (code * 16 + ·)) 0

/-- The character of an escape sequence and how many characters it takes after the backslash. -/
def readEscape (cs : List Char) : Except Problem (Char × Nat) :=
  match cs with
  | [] => .error (.badEscape "found unknown escape character")
  | ch :: rest =>
    match escape? ch, escapeDigits? ch with
    | some value, _ => .ok (value, 1)
    | none, some n =>
      match hexCode? n rest with
      | none => .error (.badEscape "did not find expected hexdecimal number")
      | some code =>
        if (0xd800 ≤ code && code ≤ 0xdfff) || 0x10ffff < code then
          .error (.badEscape "found invalid Unicode character escape code")
        else .ok (Char.ofNat code, n + 1)
    | none, none => .error (.badEscape "found unknown escape character")

/-- Reads the text of a quoted scalar up to and with its closing quote. -/
def readQuotedText (quote : Char) (start : Mark) :
    Nat → String → Cursor → Except Fault (String × Cursor)
  | 0, _, c => .error (.ofToken .unclosedQuote start c.mark)
  | fuel + 1, text, c =>
    let gap (g : Gap) (c : Cursor) : Except Fault (String × Cursor) :=
      match readGap none c.steps g c with
      | .error found => .error (.ofToken .unclosedQuote start found)
      | .ok (g, c) => readQuotedText quote start fuel (text ++ String.ofList g.fold) c
    if c.atIndicator then .error (.ofToken .indicatorInQuote start c.mark)
    else match c.rest with
    | [] => .error (.ofToken .unclosedQuote start c.mark)
    | ch :: rest =>
      if isBlank ch || isBreak ch then gap {} c
      else if ch == quote then
        if quote == '\x27' && rest.head? == some '\x27' then
          readQuotedText quote start fuel (text.push ch) c.next.next
        else .ok (text, c.next)
      else if quote == '\x22' && ch == '\\' then
        match c.next.lineBreak? with
        | some (_, after) => gap { broken := true } after
        | none =>
          match readEscape rest with
          | .error p => .error (.ofToken p start c.mark)
          | .ok (value, n) =>
            readQuotedText quote start fuel (text.push value) (c.skip (n + 1))
      else readQuotedText quote start fuel (text.push ch) c.next

/-- A scalar in quotes, which starts with its opening quote. -/
def readQuoted (quote : Char) (c : Cursor) : Except Fault Read :=
  match readQuotedText quote c.mark c.steps "" c.next with
  | .error f => .error f
  | .ok (text, after) => .ok ⟨text, after.mark, false, after⟩

/-! ## Block scalars -/

/-- What becomes of the line breaks at the end of a block scalar. -/
inductive Chomping where
  | strip
  | clip
  | keep
  deriving DecidableEq, Repr, Inhabited

def chomping? : Char → Option Chomping
  | '+' => some .keep
  | '-' => some .strip
  | _ => none

/-- The chomping and indentation indicators, in either order, and where reading goes on. -/
def readBlockHeader (start : Mark) (c : Cursor) :
    Except Fault (Chomping × Option Nat × Cursor) :=
  let zero (c : Cursor) : Except Fault (Chomping × Option Nat × Cursor) :=
    .error (.ofToken (.badBlockHeader "found an indentation indicator equal to 0") start c.mark)
  let digit (c : Cursor) : Option Nat := (c.peek.filter Char.isDigit).map fun d => d.toNat - 48
  match c.peek.bind chomping? with
  | some ch =>
    match digit c.next with
    | some 0 => zero c.next
    | some n => .ok (ch, some n, c.next.next)
    | none => .ok (ch, none, c.next)
  | none =>
    match digit c with
    | some 0 => zero c
    | some n =>
      match c.next.peek.bind chomping? with
      | some ch => .ok (ch, some n, c.next.next)
      | none => .ok (.clip, some n, c.next)
    | none => .ok (.clip, none, c)

/-- Reads line breaks and the indentation of the line after them. Without a known indentation all
blanks are read, and `deepest` is the furthest column reached. -/
def readBlockBreaks (start : Mark) (indent : Option Nat) :
    Nat → List Char → Nat → Cursor → Except Fault (List Char × Nat × Cursor)
  | 0, breaks, deepest, c => .ok (breaks, deepest, c)
  | fuel + 1, breaks, deepest, c =>
    let spaces := (c.rest.takeWhile (· == ' ')).length
    let c := c.skip (match indent with
      | some n => min spaces (n - c.column)
      | none => spaces)
    let deepest := max deepest c.column
    if c.peek == some '\t' && indent.all (c.column < ·) then
      .error (.ofToken (.tabIndent "where an indentation space is expected") start c.mark)
    else match c.lineBreak? with
    | none => .ok (breaks, deepest, c)
    | some (b, c) => readBlockBreaks start indent fuel (breaks ++ [b]) deepest c

/-- Reads the lines of a block scalar. `last` is the break after the line before, `breaks` those of
the empty lines after it, `inset` whether that line began with a blank. -/
def readBlockLines (literal : Bool) (start : Mark) (indent : Nat) :
    Nat → String → List Char → List Char → Bool → Cursor →
      Except Fault (String × List Char × List Char × Cursor)
  | 0, text, last, breaks, _, c => .ok (text, last, breaks, c)
  | fuel + 1, text, last, breaks, inset, c =>
    match c.rest with
    | [] => .ok (text, last, breaks, c)
    | ch :: _ =>
      if c.column ≠ indent then .ok (text, last, breaks, c)
      else
        let blank := isBlank ch
        let joint :=
          if !literal && !inset && !blank && last == ['\n'] then
            if breaks.isEmpty then [' '] else []
          else last
        let (line, c) := c.span fun ch => !isBreak ch
        let text := text ++ String.ofList (joint ++ breaks ++ line)
        let (last, c) := match c.lineBreak? with
          | some (b, c) => ([b], c)
          | none => ([], c)
        match readBlockBreaks start (some indent) c.steps [] 0 c with
        | .error f => .error f
        | .ok (breaks, _, c) => readBlockLines literal start indent fuel text last breaks blank c

/-- A block scalar, which starts with its indicator. `parent` is the indentation around it, if
any. -/
def readBlock (literal : Bool) (parent : Option Nat) (c : Cursor) : Except Fault Read :=
  let start := c.mark
  match readBlockHeader start c.next with
  | .error f => .error f
  | .ok (chomping, increment, c) =>
    let c := c.skipWhile isBlank
    let c := if c.peek == some '#' then c.skipWhile (!isBreak ·) else c
    if !Cursor.lineStops c.rest then
      .error (.ofToken (.badBlockHeader "did not find expected comment or line break") start c.mark)
    else
      let c := match c.lineBreak? with
        | some (_, c) => c
        | none => c
      let known := increment.map (parent.getD 0 + ·)
      match readBlockBreaks start known c.steps [] 0 c with
      | .error f => .error f
      | .ok (breaks, deepest, c) =>
        let indent := known.getD (max deepest (max 1 (match parent with
          | some p => p + 1
          | none => 0)))
        match readBlockLines literal start indent c.steps "" [] breaks false c with
        | .error f => .error f
        | .ok (text, last, breaks, c) =>
          let tail := match chomping with
            | .strip => []
            | .clip => last
            | .keep => last ++ breaks
          .ok ⟨text ++ String.ofList tail, c.mark, true, c⟩

end WhileAsm.Document.Scalar
