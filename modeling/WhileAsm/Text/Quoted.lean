import WhileAsm.Text.Printable

/-!
# Quoted text

Text between double quotes on one line: printable characters stand for themselves, the rest is
written with backslash escapes. Messages, log records and structure dumps all quote in this way.
-/

namespace WhileAsm.Text

/-- The digits of `n` in base sixteen, at least `width` of them. -/
def hex (width n : Nat) : String :=
  let digits := Nat.toDigits 16 n
  String.ofList (List.replicate (width - digits.length) '0' ++ digits)

/-- One character inside quotes. -/
def quoteChar (c : Char) : String :=
  match c.toNat with
  | 0x22 => "\\\""
  | 0x5c => "\\\\"
  | 0x07 => "\\a"
  | 0x08 => "\\b"
  | 0x0c => "\\f"
  | 0x0a => "\\n"
  | 0x0d => "\\r"
  | 0x09 => "\\t"
  | 0x0b => "\\v"
  | n =>
    if isPrintable c then c.toString
    else if n < 0x80 then "\\x" ++ hex 2 n
    else if n < 0x10000 then "\\u" ++ hex 4 n
    else "\\U" ++ hex 8 n

/-- The text between double quotes. -/
def quote (s : String) : String :=
  "\"" ++ String.join (s.toList.map quoteChar) ++ "\""

end WhileAsm.Text
