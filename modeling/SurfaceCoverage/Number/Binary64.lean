/-!
# Binary floating-point numbers

A finite number is `m · 2 ^ q` with at most 53 bits in `m`. Rounding a quotient takes the nearest
such number, and of two the one whose `m` is even; what is too large becomes infinite.
-/

namespace SurfaceCoverage

/-- A floating-point number of 64 bits. -/
inductive Binary64 where
  | nan
  | infinite (negative : Bool)
  | finite (negative : Bool) (m : Nat) (q : Int)
deriving DecidableEq

/-- The quotient of two numbers rounded to the nearest integer, a half to the even one. -/
def roundDiv (num den : Nat) : Nat :=
  let d := num / den
  let r := 2 * (num % den)
  if r < den || (r == den && d % 2 == 0) then d else d + 1

namespace Binary64

/-- The numerator and denominator of `m · 2 ^ q`. -/
def fraction (m : Nat) (q : Int) : Nat × Nat := (m * Nat.pow 2 q.toNat, Nat.pow 2 (-q).toNat)

/-- The smallest exponent of a finite number. -/
def minExponent : Int := -1074

/-- The largest exponent of a finite number. -/
def maxExponent : Int := 971

/-- The exponent of the power of two at or below a positive quotient. -/
def binaryExponent (num den : Nat) : Int :=
  let e : Int := Nat.log2 num - Nat.log2 den
  if num * Nat.pow 2 (-e).toNat < den * Nat.pow 2 e.toNat then e - 1 else e

/-- The number nearest to a quotient. -/
def ofQuotient (negative : Bool) (num den : Nat) : Binary64 :=
  if num = 0 then finite negative 0 0
  else
    let q := max (binaryExponent num den - 52) minExponent
    let m := roundDiv (num * Nat.pow 2 (-q).toNat) (den * Nat.pow 2 q.toNat)
    let (m, q) := if m = Nat.pow 2 53 then (Nat.pow 2 52, q + 1) else (m, q)
    if maxExponent < q then infinite negative else finite negative m q

/-- The number nearest to `digits · 10 ^ exponent`. An exponent far beyond all numbers needs no
power of ten. -/
def ofDecimal (negative : Bool) (digits : Nat) (exponent : Int) : Binary64 :=
  if digits = 0 then finite negative 0 0
  else if 400 < exponent then infinite negative
  else if exponent < -400 - Nat.log2 digits then finite negative 0 0
  else ofQuotient negative (digits * Nat.pow 10 exponent.toNat) (Nat.pow 10 (-exponent).toNat)

def ofInt (n : Int) : Binary64 := ofQuotient (n < 0) n.natAbs 1

def negate : Binary64 → Binary64
  | nan => nan
  | infinite s => infinite (!s)
  | finite s m q => finite (!s) m q

/-- The product of two numbers. -/
def mul : Binary64 → Binary64 → Binary64
  | finite s m q, finite t n r =>
    let (num, den) := fraction (m * n) (q + r)
    ofQuotient (s != t) num den
  | finite s m _, infinite t | infinite s, finite t m _ =>
    if m = 0 then nan else infinite (s != t)
  | infinite s, infinite t => infinite (s != t)
  | _, _ => nan

/-- The sum of two numbers. -/
def add : Binary64 → Binary64 → Binary64
  | finite s m q, finite t n r =>
    let low := min q r
    let signed (s : Bool) (m : Nat) (q : Int) : Int :=
      let m : Int := (m * Nat.pow 2 (q - low).toNat : Nat)
      if s then -m else m
    let sum := signed s m q + signed t n r
    let (num, den) := fraction sum.natAbs low
    ofQuotient (if sum = 0 then s && t else sum < 0) num den
  | infinite s, infinite t => if s = t then infinite s else nan
  | infinite s, finite .. | finite .., infinite s => infinite s
  | _, _ => nan

/-- Whether a number equals a fraction with a sign. -/
def equals (x : Binary64) (negative : Bool) (num den : Nat) : Bool :=
  match x with
  | finite s m q =>
    let (a, b) := fraction m q
    a * den == num * b && (s == negative || a == 0)
  | _ => false

end Binary64
end SurfaceCoverage
