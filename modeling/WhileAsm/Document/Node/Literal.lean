import WhileAsm.Document.Node
import WhileAsm.Number.Decimal
import WhileAsm.Text.Base64

/-!
# Numbers and truth values in documents

What the text of a scalar means. Plain text may be nothing, a truth value, a whole number or a
decimal fraction; quoted text is a string; a tag must agree with what the text is, and text with a
tag of no standard type is a string. A literal of one type is accepted where its value has that
type, and an alias means its target.
-/

namespace WhileAsm.Document

/-- What the text of a scalar means. -/
inductive Meaning where
  | nothing
  | truth (b : Bool)
  | whole (n : Int)
  | real (x : Number.Real)
  | string (s : String)
  deriving DecidableEq, Repr, Inhabited

namespace Meaning

/-- The tag of the type that a meaning has. -/
def tag : Meaning → String
  | nothing => "!!null"
  | truth _ => "!!bool"
  | whole _ => "!!int"
  | real _ => "!!float"
  | string _ => "!!str"

/-- The words with a meaning of their own. -/
def ofWord? : String → Option Meaning
  | "" | "~" | "null" | "Null" | "NULL" => some nothing
  | "true" | "True" | "TRUE" => some (truth true)
  | "false" | "False" | "FALSE" => some (truth false)
  | ".nan" | ".NaN" | ".NAN" => some (real .notANumber)
  | ".inf" | ".Inf" | ".INF" | "+.inf" | "+.Inf" | "+.INF" => some (real (.infinite false))
  | "-.inf" | "-.Inf" | "-.INF" => some (real (.infinite true))
  | _ => none

/-- A number below two to the power of 64. -/
def unsigned64? (n : Option Nat) : Option Int :=
  (n.filter (· < 18446744073709551616)).map fun n => (n : Int)

/-- A whole number whose base is announced in front of its sign, as in `0b-101`, or after it. -/
def announced? (mark : Char) (base : Nat) : List Char → Option Int
  | '0' :: c :: cs =>
    if c = mark then
      Number.int64? (Number.signed? (Number.digits? base) cs)
        <|> unsigned64? (Number.digits? base cs)
    else none
  | '-' :: '0' :: c :: cs =>
    if c = mark then Number.int64? ((Number.digits? base cs).map fun n => -(n : Int)) else none
  | _ => none

/-- The meaning of text that starts with a digit or a sign, without its separators. -/
def ofNumber? (cs : List Char) : Option Meaning :=
  (Number.int64? (Number.signed? Number.natural? cs)).map whole
    <|> (unsigned64? (Number.natural? cs)).map whole
    <|> (Number.decimal? cs).map real
    <|> (announced? 'b' 2 cs).map whole
    <|> (announced? 'o' 8 cs).map whole

/-- The meaning of plain text. Its first character decides what is tried. -/
def ofPlain (s : String) : Meaning :=
  match ofWord? s with
  | some m => m
  | none =>
    let number := match s.toList with
      | '.' :: cs => ((Number.dropSeparators? ('.' :: cs)).bind Number.decimal?).map real
      | c :: cs =>
        if c.isDigit || c == '+' || c == '-' then ofNumber? ((c :: cs).filter (· ≠ '_')) else none
      | [] => none
    number.getD (string s)

/-- The floating-point number nearest to a signed 64-bit number. -/
def asReal (n : Int) : Number.Real :=
  let magnitude : Int := Number.wholeOfNearest n.natAbs 1
  .finite (if n < 0 then -magnitude else magnitude)

/-- The meaning of text that a tag says is of a type of plain text, if it is. A whole number may be
called a decimal fraction. -/
def ofTagged? (tag text : String) : Option Meaning :=
  let m := ofPlain text
  if m.tag == tag then some m
  else match m with
    | whole n => if tag == "!!float" && n ≤ Number.maxInt64 then some (real (asReal n)) else none
    | _ => none

end Meaning

/-- The meaning of a scalar, if its tag and its text agree. -/
def Form.meaning? (text : String) : Form → Option Meaning
  | .plain => some (if text == "<<" then .string text else .ofPlain text)
  | .quoted => some (.string text)
  | .tagged "!!binary" =>
    (Text.Base64.decode? text).map fun bytes => .string ((String.fromUTF8? bytes).getD "\ufffd")
  | .tagged tag =>
    if tag == "!!null" || tag == "!!bool" || tag == "!!int" || tag == "!!float" then
      Meaning.ofTagged? tag text
    else if tag == "!!timestamp" then none
    else some (.string text)

/-- The truth value that a word stands for where one is asked for. -/
def truthOfWord? : String → Option Bool
  | "y" | "Y" | "yes" | "Yes" | "YES" | "on" | "On" | "ON" => some true
  | "n" | "N" | "no" | "No" | "NO" | "off" | "Off" | "OFF" => some false
  | _ => none

namespace Node

/-- What a node means as a scalar, also through an alias. -/
def meaning? : Node → Option Meaning
  | scalar _ text form => form.meaning? text
  | aliased _ _ target => target.meaning?
  | _ => none

/-- The 64-bit number that a node stands for. Nothing counts as zero, and fractions are cut off. -/
def int64? (n : Node) : Option Int64 :=
  match n.meaning? with
  | some .nothing => some 0
  | some (.whole v) => if v ≤ Number.maxInt64 then some (Int64.ofInt v) else none
  | some (.real x) => x.toInt64?.map Int64.ofInt
  | _ => none

/-- The truth value that a node stands for. Nothing counts as false. -/
def bool? (n : Node) : Option Bool :=
  match n.meaning? with
  | some .nothing => some false
  | some (.truth b) => some b
  | some (.string s) => truthOfWord? s
  | _ => none

end Node

end WhileAsm.Document
