import SurfaceCoverage.Number.Binary64
import SurfaceCoverage.Text.Digits
import SurfaceCoverage.Text.Letters
/-!
# Numerals

Reading numbers. Blanks around a numeral, a sign before it and the digits of any script are
accepted; an integer in base 2, 8 or 16 may begin with the mark of its base. Numerals of a base
that is no power of two have a limit on their digits.
-/

namespace SurfaceCoverage.Numeral

/-- A numeral without blanks at its ends, its digits in ASCII. -/
def bare? (t : Text) : Option (List Char) :=
  (Text.toChars? t.trim).map (List.map Letters.asciiDigit)

/-- Whether a numeral is negative, and what follows its sign. -/
def signed : List Char → Bool × List Char
  | '-' :: cs => (true, cs)
  | '+' :: cs => (false, cs)
  | cs => (false, cs)

/-- The value of a digit in bases up to sixteen. -/
def digit? (c : Char) : Option Nat :=
  if c.isDigit then some (c.toNat - 48)
  else if 'a' ≤ c.toLower && c.toLower ≤ 'f' then some (c.toLower.toNat - 87)
  else none

/-- The number that digits write in a base. -/
def ofDigits? (base : Nat) (cs : List Char) : Option Nat :=
  if cs.isEmpty then none
  else cs.foldlM (fun n c => (digit? c).bind fun d => if d < base then some (base * n + d) else none) 0

/-- The letter in the mark of a base. -/
def baseLetter : Nat → Char
  | 2 => 'b'
  | 8 => 'o'
  | _ => 'x'

/-- Digits without the mark of their base. -/
def unmarked (base : Nat) : List Char → List Char
  | '0' :: l :: cs => if base ≠ 10 ∧ l.toLower = baseLetter base then cs else '0' :: l :: cs
  | cs => cs

/-- The most digits of a numeral in base ten. -/
def longest : Nat := 4300

/-- The integer that a numeral writes in base 2, 8, 10 or 16. -/
def int? (base : Nat) (t : Text) : Option Int := do
  let (negative, cs) := signed (← bare? t)
  if base = 10 ∧ longest < cs.length then none
  let n ← ofDigits? base (unmarked base cs)
  return if negative then -(n : Int) else n

/-- The exponent at the end of a numeral. -/
def exponent? : List Char → Option Int
  | [] => some 0
  | e :: cs =>
    if e.toLower = 'e' then do
      let (negative, ds) := signed cs
      let n ← ofDigits? 10 ds
      return if negative then -(n : Int) else n
    else none

/-- The floating-point number of digits with or without a point and an exponent. -/
def decimal? (negative : Bool) (cs : List Char) : Option Binary64 := do
  let (whole, r) := cs.span Char.isDigit
  let (places, r) := match r with
    | '.' :: r => r.span Char.isDigit
    | _ => ([], r)
  let digits ← ofDigits? 10 (whole ++ places)
  return Binary64.ofDecimal negative digits ((← exponent? r) - places.length)

/-- The floating-point number that a numeral writes, infinity and the lack of a number included. -/
def float? (t : Text) : Option Binary64 := do
  let (negative, cs) := signed (← bare? t)
  let word := String.ofList (cs.map Char.toLower)
  if word = "inf" ∨ word = "infinity" then return .infinite negative
  if word = "nan" then return .nan
  decimal? negative cs

end SurfaceCoverage.Numeral
