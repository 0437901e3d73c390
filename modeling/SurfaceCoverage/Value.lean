import SurfaceCoverage.Number.Decimal
import SurfaceCoverage.Number.Numeral
import SurfaceCoverage.Text.Quoted
/-!
# Values

What a settings file holds and what a log call carries: scalars, lists, mappings and sets. A value
has a text of its own, and a quoted text where it stands inside another value.

Two keys of a mapping are the same if their values are: a truth value counts as zero or one, and a
number is the same whether it is an integer or not.
-/

namespace SurfaceCoverage

/-- A time of day, perhaps with the minutes by which it is ahead of universal time. -/
structure Clock where
  hour : Nat
  minute : Nat
  second : Nat
  microsecond : Nat
  ahead : Option Int
deriving DecidableEq

/-- A date, perhaps with a time of day. -/
structure Moment where
  year : Nat
  month : Nat
  day : Nat
  clock : Option Clock
deriving DecidableEq

/-- A scalar or a collection. -/
inductive Value where
  | null
  | bool (b : Bool)
  | int (n : Int)
  | float (x : Binary64)
  | text (t : Text)
  | bytes (bs : List UInt8)
  | moment (m : Moment)
  | list (vs : List Value)
  | pair (first second : Value)
  | mapping (entries : List (Value × Value))
  | set (members : List Value)
  /-- A collection that the value is itself inside of. -/
  | cycle
deriving Inhabited

/-! ## Moments -/

/-- A number with zeros before it. -/
def padded (width n : Nat) : String :=
  let digits := Nat.toDigits 10 n
  String.ofList (List.replicate (width - digits.length) '0' ++ digits)

namespace Clock

def display (c : Clock) : String :=
  let time := padded 2 c.hour ++ ":" ++ padded 2 c.minute ++ ":" ++ padded 2 c.second
  let part := if c.microsecond = 0 then "" else "." ++ padded 6 c.microsecond
  let zone := match c.ahead with
    | some m => (if m < 0 then "-" else "+") ++ padded 2 (m.natAbs / 60) ++ ":" ++ padded 2 (m.natAbs % 60)
    | none => ""
  time ++ part ++ zone

end Clock

namespace Moment

def isLeap (year : Nat) : Bool := year % 4 == 0 && (year % 100 != 0 || year % 400 == 0)

def daysIn (year month : Nat) : Nat :=
  if month = 2 then (if isLeap year then 29 else 28)
  else if [4, 6, 9, 11].contains month then 30 else 31

def display (m : Moment) : String :=
  let date := padded 4 m.year ++ "-" ++ padded 2 m.month ++ "-" ++ padded 2 m.day
  match m.clock with
  | some c => date ++ " " ++ c.display
  | none => date

/-- The days before a date. -/
def dayNumber (m : Moment) : Int :=
  let y := m.year - 1
  let months := (List.range (m.month - 1)).map fun i => daysIn m.year (i + 1)
  (365 * y + y / 4 - y / 100 + y / 400 + months.foldr (· + ·) 0 + m.day : Nat)

/-- The microseconds of universal time before a moment that knows its zone. -/
def instant? (m : Moment) : Option Int := do
  let c ← m.clock
  let ahead ← c.ahead
  let minutes := m.dayNumber * 1440 + c.hour * 60 + c.minute - ahead
  return (minutes * 60 + c.second) * 1000000 + c.microsecond

/-- Whether two moments are the same, in whatever zones. -/
def same (a b : Moment) : Bool :=
  match a.instant?, b.instant? with
  | some i, some j => i == j
  | _, _ => a == b

end Moment

namespace Value

/-! ## Texts -/

/-- A text in a kind of brackets. -/
def bracketed (opening closing : Text) (items : List Text) : Text :=
  opening ++ Text.join ", " items ++ closing

mutual
/-- The text of a value inside another one; with `ascii`, in ASCII only. -/
def quoted (ascii : Bool) : Value → Text
  | null => "None"
  | bool b => if b then "True" else "False"
  | int n => toString n
  | float x => Text.ofChars x.display
  | text t => t.quotedIn ascii
  | bytes bs => ("b" : Text) ++ Text.quotedIn true (bs.map fun b => .scalar (Char.ofNat b.toNat))
  | moment m => m.display
  | list vs => bracketed "[" "]" (quotedAll ascii vs)
  | pair a b => bracketed "(" ")" [quoted ascii a, quoted ascii b]
  | mapping es => bracketed "\x7b" "\x7d" (quotedEntries ascii es)
  | set vs => if vs.isEmpty then "set()" else bracketed "\x7b" "\x7d" (quotedAll ascii vs)
  | cycle => "[...]"

/-- The texts of several values. -/
def quotedAll (ascii : Bool) : List Value → List Text
  | [] => []
  | v :: vs => quoted ascii v :: quotedAll ascii vs

/-- The texts of the entries of a mapping. -/
def quotedEntries (ascii : Bool) : List (Value × Value) → List Text
  | [] => []
  | (k, v) :: es => (quoted ascii k ++ (": " : Text) ++ quoted ascii v) :: quotedEntries ascii es
end

/-- The text of a value on its own. -/
def display : Value → Text
  | text t => t
  | v => v.quoted false

mutual
/-- Whether a value can be written: no integer in it has more digits than numerals may have. -/
def isWritable : Value → Bool
  | int n => n.natAbs < 10 ^ Numeral.longest
  | list vs | set vs => allWritable vs
  | pair a b => isWritable a && isWritable b
  | mapping es => entriesWritable es
  | _ => true

def allWritable : List Value → Bool
  | [] => true
  | v :: vs => isWritable v && allWritable vs

def entriesWritable : List (Value × Value) → Bool
  | [] => true
  | (k, v) :: es => isWritable k && isWritable v && entriesWritable es
end

/-! ## Keys -/

/-- The sign, numerator and denominator of a finite number. -/
def fraction? : Value → Option (Bool × Nat × Nat)
  | bool b => some (false, b.toNat, 1)
  | int n => some (n < 0, n.natAbs, 1)
  | float (.finite s m q) =>
    let (num, den) := Binary64.fraction m q
    some (s, num, den)
  | _ => none

/-- Whether two scalars are the same as keys. -/
def sameKey (a b : Value) : Bool :=
  match a.fraction?, b.fraction? with
  | some (s, n, d), some (t, m, e) => n * e == m * d && (s == t || n == 0)
  | none, none =>
    match a, b with
    | null, null => true
    | float x, float y => x == y
    | text s, text t => s == t
    | bytes x, bytes y => x == y
    | moment x, moment y => x.same y
    | _, _ => false
  | _, _ => false

/-- Whether a value can be a key: collections cannot. -/
def isKey : Value → Bool
  | list _ | mapping _ | set _ | cycle => false
  | _ => true

/-- Entries with a value under a key. A key that is there keeps its place and its spelling. -/
def put (entries : List (Value × Value)) (key value : Value) : List (Value × Value) :=
  match entries with
  | [] => [(key, value)]
  | (k, v) :: es => if k.sameKey key then (k, value) :: es else (k, v) :: put es key value

/-- The text of a value that is one. -/
def text? : Value → Option Text
  | text t => some t
  | _ => none

/-- The texts of a list that holds nothing else. -/
def texts? : Value → Option (List Text)
  | list vs => vs.mapM text?
  | _ => none

end Value
end SurfaceCoverage
