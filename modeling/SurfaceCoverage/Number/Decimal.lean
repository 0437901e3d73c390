import SurfaceCoverage.Number.Binary64
/-!
# Decimal text of floating-point numbers

The shortest decimal that rounds to a number has the fewest digits, and is the nearest of those.
It is found by trying ever finer decimal grids: on each, only the two neighbours of the number can
round to it. Text with a given number of places or digits rounds the exact value, a half to even.
-/

namespace SurfaceCoverage

/-- `digits · 10 ^ exponent` -/
structure Decimal where
  digits : Nat
  exponent : Int

namespace Decimal

/-- The number of decimal digits of a number. -/
def width (n : Nat) : Nat := (Nat.toDigits 10 n).length

/-- The exponent of the power of ten at or below a positive quotient. -/
def decimalExponent (num den : Nat) : Int :=
  if den ≤ num then (width (num / den) : Int) - 1
  else -(width ((den + num - 1) / num - 1) : Int)

/-- A quotient scaled by a power of ten, rounded down. -/
def scaledDown (num den : Nat) (k : Int) : Nat :=
  num * Nat.pow 10 (-k).toNat / (den * Nat.pow 10 k.toNat)

/-- The numbers that round to `m · 2 ^ q` lie between these two, in quarters of `2 ^ q`. -/
def neighbourhood (m : Nat) (q : Int) : Nat × Nat :=
  (4 * m - (if m = Nat.pow 2 52 && q != Binary64.minExponent then 1 else 2), 4 * m + 2)

/-- Whether `d · 10 ^ k` rounds to `m · 2 ^ q`. -/
def roundsTo (m : Nat) (q : Int) (d : Nat) (k : Int) : Bool :=
  let (low, high) := neighbourhood m q
  let left := d * Nat.pow 10 k.toNat * Nat.pow 2 (2 - q).toNat
  let scale := Nat.pow 10 (-k).toNat * Nat.pow 2 (q - 2).toNat
  if m % 2 = 0 then low * scale ≤ left && left ≤ high * scale
  else low * scale < left && left < high * scale

/-- The better one of the neighbours of `m · 2 ^ q` on the grid of `10 ^ k`, if one rounds to it. -/
def onGrid? (m : Nat) (q k : Int) (num den : Nat) : Option Decimal :=
  let d := scaledDown num den k
  let below := roundsTo m q d k
  let above := roundsTo m q (d + 1) k
  let twice := 2 * num * Nat.pow 10 (-k).toNat
  let middle := (2 * d + 1) * den * Nat.pow 10 k.toNat
  if below && (!above || twice < middle || (twice == middle && d % 2 == 0)) then some ⟨d, k⟩
  else if above then some ⟨d + 1, k⟩
  else none

/-- The first hit on the grids of `n` digits and more. -/
def search (m : Nat) (q e : Int) (num den : Nat) : Nat → Nat → Decimal
  | 0, _ => ⟨scaledDown num den (e - 16), e - 16⟩
  | tries + 1, n => ((onGrid? m q (e - n + 1) num den)).getD (search m q e num den tries (n + 1))

/-- The shortest decimal that rounds to a positive number `m · 2 ^ q`. -/
def shortest (m : Nat) (q : Int) : Decimal :=
  let (num, den) := Binary64.fraction m q
  search m q (decimalExponent num den) num den 17 1

end Decimal

/-! ## Layout -/

/-- Digits with a point behind the first `point` of them, filled up with zeros. -/
def withPoint (digits : List Char) (point : Int) : List Char :=
  if point ≤ 0 then '0' :: '.' :: List.replicate (-point).toNat '0' ++ digits
  else
    let whole := digits.take point.toNat
    let part := digits.drop point.toNat
    whole ++ List.replicate (point.toNat - whole.length) '0' ++ '.' :: part

/-- An exponent with its sign and at least two digits. -/
def exponentText (e : Int) : List Char :=
  let digits := Nat.toDigits 10 e.natAbs
  'e' :: (if e < 0 then '-' else '+') :: (if digits.length < 2 then ['0'] else []) ++ digits

/-- Characters without the given one at their end. -/
def dropTrailing (c : Char) (cs : List Char) : List Char := (cs.reverse.dropWhile (· == c)).reverse

/-- One digit, a point and the others, then the exponent; no point behind a lone digit. -/
def scientific (digits : List Char) (e : Int) : List Char :=
  let mantissa := match digits with
    | d :: [] => [d]
    | d :: ds => d :: '.' :: ds
    | [] => []
  mantissa ++ exponentText e

namespace Binary64

def signText (negative : Bool) : List Char := if negative then ['-'] else []

/-- The shortest text that reads back: positional from `0.0001` up to 16 digits, with at least one
place. -/
def display : Binary64 → List Char
  | nan => "nan".toList
  | infinite s => signText s ++ "inf".toList
  | finite s 0 _ => signText s ++ "0.0".toList
  | finite s m q =>
    let d := Decimal.shortest m q
    let all := Nat.toDigits 10 d.digits
    let e : Int := d.exponent + all.length - 1
    let digits := dropTrailing '0' all
    signText s ++
      if -4 ≤ e ∧ e < 16 then
        let text := withPoint digits (e + 1)
        if text.getLast? = some '.' then text ++ ['0'] else text
      else scientific digits e

/-- The digits of the exact value rounded to a number of places. -/
def rounded (m : Nat) (q : Int) (places : Int) : Nat :=
  let (num, den) := fraction m q
  roundDiv (num * Nat.pow 10 places.toNat) (den * Nat.pow 10 (-places).toNat)

/-- Positional text of a finite number with a number of places. -/
def fixedText (m : Nat) (q : Int) (places : Nat) : List Char :=
  let digits := Nat.toDigits 10 (rounded m q places)
  let digits := List.replicate (places + 1 - digits.length) '0' ++ digits
  let text := withPoint digits (digits.length - places : Nat)
  if places = 0 then dropTrailing '.' text else text

/-- The digits and the exponent of a finite number with a number of digits behind the first. -/
def scientificDigits (m : Nat) (q : Int) (places : Nat) : List Char × Int :=
  if m = 0 then (List.replicate (places + 1) '0', 0)
  else
    let (num, den) := fraction m q
    let e := Decimal.decimalExponent num den
    let digits := Nat.toDigits 10 (rounded m q (places - e))
    if digits.length = places + 1 then (digits, e)
    else (digits.take (places + 1), e + 1)

def scientificText (m : Nat) (q : Int) (places : Nat) : List Char :=
  let (digits, e) := scientificDigits m q places
  scientific digits e

/-- The shorter one of both forms with a number of digits; zeros at the end of its places are
left out unless they are to be kept. -/
def generalText (m : Nat) (q : Int) (digits : Nat) (keepZeros : Bool) : List Char :=
  let p := max digits 1
  let (ds, e) := scientificDigits m q (p - 1)
  let trimmed (cs : List Char) := if keepZeros then cs else dropTrailing '0' cs
  if -4 ≤ e ∧ e < p then
    let text := trimmed (withPoint ds (e + 1))
    if keepZeros then text else dropTrailing '.' text
  else scientific (match trimmed ds with | [] => ['0'] | ds => ds) e

end Binary64
end SurfaceCoverage
