import WhileAsm.Number.Integer

/-!
# Decimal fractions as binary floating-point numbers

A decimal literal means the 64-bit floating-point number nearest to it. Only the whole part of that
number is needed here, and it can differ from the whole part of the literal:
`0.99999999999999999999` is nearest to one. Everything is computed with exact quotients of natural
numbers and rounded once.
-/

namespace WhileAsm.Number

/-- The quotient rounded to the nearest whole number, a half to the even neighbour. -/
def roundDiv (num den : Nat) : Nat :=
  let q := num / den
  let r := num % den
  if den < 2 * r ∨ (2 * r = den ∧ q % 2 = 1) then q + 1 else q

/-- The whole part of the number with a 53-bit significand that is nearest to `num / den`. -/
def wholeOfNearest (num den : Nat) : Nat :=
  let whole := num / den
  let bits := if whole = 0 then 0 else whole.log2 + 1
  if 53 < bits then
    let unit := Nat.pow 2 (bits - 53)
    roundDiv num (den * unit) * unit
  else
    let parts := Nat.pow 2 (53 - bits)
    roundDiv (num * parts) den / parts

/-- A floating-point number as far as its whole part shows it. -/
inductive Real where
  | finite (whole : Int)
  | infinite (negative : Bool)
  | notANumber
  deriving DecidableEq, Repr, Inhabited

/-- The floating-point number nearest to `±mantissa · 10 ^ exponent`, if it is finite. -/
def real? (negative : Bool) (mantissa : Nat) (exponent : Int) : Option Real :=
  let size : Int := (Nat.toDigits 10 mantissa).length + exponent
  let magnitude :=
    if mantissa = 0 ∨ size < -20 then some 0
    else if 400 < size then none
    else
      let whole :=
        if 0 ≤ exponent then wholeOfNearest (mantissa * Nat.pow 10 exponent.toNat) 1
        else wholeOfNearest mantissa (Nat.pow 10 (-exponent).toNat)
      if whole < Nat.pow 2 1024 then some whole else none
  magnitude.map fun n => .finite (if negative then -(n : Int) else n)

/-- The exponent part of a literal, which must be all that is left. -/
def exponent? : List Char → Option Int
  | [] => some 0
  | c :: cs => if c = 'e' ∨ c = 'E' then signed? (digits? 10) cs else none

/-- A decimal literal: digits with at most one point among or around them, then an optional
exponent. A literal that starts with the point needs a digit after it. -/
def decimal? (cs : List Char) : Option Real :=
  let (negative, cs) := match cs with
    | '-' :: cs => (true, cs)
    | '+' :: cs => (false, cs)
    | cs => (false, cs)
  let (whole, cs) := cs.span Char.isDigit
  let (fraction, cs) := match cs with
    | '.' :: cs => cs.span Char.isDigit
    | cs => ([], cs)
  do
    let mantissa ← digits? 10 (whole ++ fraction)
    let e ← exponent? cs
    real? negative mantissa (e - fraction.length)

/-- Underscores may separate digits: each stands between two of them. -/
def dropSeparators? : List Char → Option (List Char)
  | [] => some []
  | '_' :: _ => none
  | c :: '_' :: d :: rest =>
    if c.isDigit ∧ d.isDigit then (dropSeparators? (d :: rest)).map (c :: ·) else none
  | c :: rest => (dropSeparators? rest).map (c :: ·)

/-- The 64-bit number that a floating-point number is cut down to. Above the range there is none;
what lies at its upper end or below its lower end gives the least number. -/
def Real.toInt64? : Real → Option Int
  | .finite n =>
    if maxInt64 + 1 < n then none
    else if minInt64 ≤ n ∧ n ≤ maxInt64 then some n
    else some minInt64
  | .infinite true => some minInt64
  | _ => none

end WhileAsm.Number
