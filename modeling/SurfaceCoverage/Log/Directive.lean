import SurfaceCoverage.Text
/-!
# Directives of messages

A message holds a directive for each argument: a percent sign, perhaps the key of an argument in
parentheses, flags, a width, a precision behind a point, and the letter of a conversion. A width or
a precision can be an argument itself. Two percent signs stand for one.
-/

namespace SurfaceCoverage.Log

/-- A number in a directive: none, a written one, or that of an argument. -/
inductive Measure where
  | absent
  | fixed (n : Nat)
  | argument
deriving DecidableEq

/-- What stands between a percent sign and the letter of the conversion, and that letter. -/
structure Directive where
  key? : Option Text
  leftAligned : Bool
  signed : Bool
  blank : Bool
  marked : Bool
  zeros : Bool
  width : Measure
  precision : Measure
  conversion : CodePoint

namespace Directive

/-- A key up to the parenthesis that closes it, at a depth of further ones, and what follows. -/
def keyOf (depth : Nat) (done : Text) : Text → Option (Text × Text)
  | [] => none
  | .scalar ')' :: t =>
    match depth with
    | 0 => some (done.reverse, t)
    | n + 1 => keyOf n (.scalar ')' :: done) t
  | .scalar '(' :: t => keyOf (depth + 1) (.scalar '(' :: done) t
  | p :: t => keyOf depth (p :: done) t

def isFlag : CodePoint → Bool := CodePoint.satisfies fun c => "-+ #0".toList.contains c

def isDigit : CodePoint → Bool := CodePoint.satisfies Char.isDigit

/-- The number that digits write. -/
def number (t : Text) : Nat := t.foldl (fun n p => 10 * n + (p.toNat - 48)) 0

/-- A number, and what follows it. -/
def measureOf : Text → Measure × Text
  | .scalar '*' :: t => (.argument, t)
  | t =>
    let (digits, r) := t.span isDigit
    (if digits.isEmpty then .absent else .fixed (number digits), r)

/-- A precision behind its point, and what follows it; a lone point is a precision of zero. -/
def precisionOf : Text → Measure × Text
  | .scalar '.' :: t =>
    match measureOf t with
    | (.absent, r) => (.fixed 0, r)
    | found => found
  | t => (.absent, t)

/-- The rest behind a letter that says how large a number is. -/
def behindSize : Text → Text
  | .scalar c :: t => if "hlL".toList.contains c then t else .scalar c :: t
  | t => t

/-- A directive behind its percent sign, and what follows it. -/
def read? (t : Text) : Option (Directive × Text) := do
  let (key?, t) ← match t with
    | .scalar '(' :: t => (keyOf 0 [] t).map fun (k, r) => (some k, r)
    | t => some (none, t)
  let (flags, t) := t.span isFlag
  let (width, t) := measureOf t
  let (precision, t) := precisionOf t
  match behindSize t with
  | [] => none
  | conversion :: t =>
    let has (c : Char) := flags.contains (.scalar c)
    return (⟨key?, has '-', has '+', has ' ', has '#', has '0', width, precision, conversion⟩, t)

end Directive

/-- A part of a message. -/
inductive Piece where
  | plain (p : CodePoint)
  | directive (d : Directive)

/-- The parts of a message behind `skip` code points, unless a directive in it has no end. -/
def pieces (skip : Nat) : Text → Option (List Piece)
  | [] => some []
  | p :: t =>
    match skip with
    | n + 1 => pieces n t
    | 0 =>
      if p = .scalar '%' then
        if t.head? = some p then do return .plain p :: (← pieces 1 t)
        else do
          let (d, rest) ← Directive.read? t
          return .directive d :: (← pieces (t.length - rest.length) t)
      else do return .plain p :: (← pieces 0 t)

end SurfaceCoverage.Log
