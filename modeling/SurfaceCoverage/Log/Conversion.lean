import SurfaceCoverage.Log.Directive
import SurfaceCoverage.Number.Decimal
import SurfaceCoverage.Value
/-!
# Conversions of arguments

How a directive writes an argument: as a text, as an integer in base 8, 10 or 16, as a
floating-point number in one of three forms, or as a character. A sign or a mark of the base comes
before zeros that fill up the width, and behind blanks.
-/

namespace SurfaceCoverage.Log

/-- A directive with its width and precision known. -/
structure Shape where
  directive : Directive
  leftAligned : Bool
  width : Nat
  precision? : Option Nat

/-- A converted argument: its sign, the mark of its base and its digits, or just its text. -/
structure Converted where
  sign : Text := []
  mark : Text := []
  body : Text
  /-- Whether zeros may fill it up. -/
  isNumber : Bool := true

namespace Shape

def repeated (n : Nat) (c : Char) : Text := List.replicate n (.scalar c)

/-- A converted argument at the width of its directive. -/
def layOut (s : Shape) (c : Converted) : Text :=
  let missing := s.width - (c.sign.length + c.mark.length + c.body.length)
  if s.leftAligned then c.sign ++ c.mark ++ c.body ++ repeated missing ' '
  else if s.directive.zeros && c.isNumber then c.sign ++ c.mark ++ repeated missing '0' ++ c.body
  else repeated missing ' ' ++ c.sign ++ c.mark ++ c.body

/-- The sign of a number, or what stands in place of a plus sign. -/
def signOf (s : Shape) (negative : Bool) : Text :=
  if negative then "-" else if s.directive.signed then "+" else if s.directive.blank then " " else []

/-- A text, cut at the precision. -/
def ofText (s : Shape) (t : Text) : Converted :=
  { body := match s.precision? with
      | some n => t.take n
      | none => t
    isNumber := false }

/-! ## Integers -/

/-- The integer that a value counts as. -/
def int? : Value → Option Int
  | .int n => some n
  | .bool b => some b.toNat
  | _ => none

/-- The integer that a value counts as, without its places. -/
def whole? : Value → Option Int
  | .float (.finite s m q) =>
    let (num, den) := Binary64.fraction m q
    some (if s then -(num / den : Nat) else (num / den : Nat))
  | v => int? v

/-- An integer in a base, with zeros up to the precision. -/
def ofInt (s : Shape) (base : Nat) (mark : String) (capital : Bool) (n : Int) : Converted :=
  let digits := Nat.toDigits base n.natAbs
  let digits := List.replicate (s.precision?.getD 0 - digits.length) '0' ++ digits
  let cased (t : Text) : Text := if capital then t.map (CodePoint.map Char.toUpper) else t
  { sign := s.signOf (n < 0)
    mark := if s.directive.marked then cased mark else []
    body := cased (Text.ofChars digits) }

/-! ## Floating-point numbers -/

/-- The floating-point number that a value counts as; an integer may be too large. -/
def float? : Value → Option Binary64
  | .float x => some x
  | v =>
    match (int? v).map Binary64.ofInt with
    | some (.infinite _) => none
    | x => x

/-- A point behind a number that has none, before its exponent. -/
def pointed (cs : List Char) : List Char :=
  if cs.contains '.' then cs else cs.takeWhile (· != 'e') ++ '.' :: cs.dropWhile (· != 'e')

/-- The digits of a finite number. Where all places are to be shown, zeros at their end stay. -/
def floatDigits (form : Char) (places : Nat) (marked : Bool) (m : Nat) (q : Int) : List Char :=
  let digits :=
    if form = 'f' then Binary64.fixedText m q places
    else if form = 'e' then Binary64.scientificText m q places
    else Binary64.generalText m q places marked
  if marked then pointed digits else digits

def ofFloat (s : Shape) (form : Char) (capital : Bool) (x : Binary64) : Converted :=
  let places := s.precision?.getD 6
  let (negative, digits) := match x with
    | .nan => (false, "nan".toList)
    | .infinite n => (n, "inf".toList)
    | .finite n m q => (n, floatDigits form places s.directive.marked m q)
  { sign := s.signOf negative
    body := Text.ofChars (if capital then digits.map Char.toUpper else digits) }

/-! ## Characters -/

/-- The code point that a value is or counts as. -/
def codePoint? : Value → Option CodePoint
  | .text [p] => some p
  | v => (int? v).bind fun n => if n < 0 then none else CodePoint.ofNat? n.toNat

/-! ## All conversions -/

/-- A value as its directive writes it; a value that does not suit it cannot be written. -/
def convert? (s : Shape) (v : Value) : Option Converted :=
  match s.directive.conversion with
  | .surrogate _ => none
  | .scalar c =>
    if c = 's' then some (s.ofText v.display)
    else if c = 'r' then some (s.ofText (v.quoted false))
    else if c = 'a' then some (s.ofText (v.quoted true))
    else if c = 'd' ∨ c = 'i' ∨ c = 'u' then (whole? v).map (s.ofInt 10 "" false)
    else if c = 'o' then (int? v).map (s.ofInt 8 "0o" false)
    else if c = 'x' ∨ c = 'X' then (int? v).map (s.ofInt 16 "0x" (c = 'X'))
    else if "efgEFG".toList.contains c then (float? v).map (s.ofFloat c.toLower c.isUpper)
    else if c = 'c' then (codePoint? v).map fun p => { body := [p], isNumber := false }
    else none

end Shape
end SurfaceCoverage.Log
