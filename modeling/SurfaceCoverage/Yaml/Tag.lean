import SurfaceCoverage.Yaml.Character
import SurfaceCoverage.Value
/-!
# Tags of documents

A tag says what a node stands for. A plain scalar without a tag has the tag of the first form that
it writes as a whole: a truth word, a number in one of several bases, a moment, nothing, or else a
text.
-/

namespace SurfaceCoverage.Yaml

/-- What a node stands for. -/
inductive Tag where
  | null | bool | int | float | binary | moment | text
  | list | mapping | set
  /-- A list of pairs. -/
  | pairs
  /-- The key of entries that are merged into a mapping. -/
  | merge
  /-- The key of the scalar that a mapping stands for. -/
  | scalar
  | unknown
deriving DecidableEq

namespace Tag

/-- The beginning of the tags of the format itself. -/
def formatStem : String := "tag:yaml.org,2002:"

/-- The tags of the format by their names. -/
def named : List (String × Tag) :=
  [("null", null), ("bool", bool), ("int", int), ("float", float), ("binary", binary),
    ("timestamp", moment), ("str", text), ("seq", list), ("map", mapping), ("set", set),
    ("omap", pairs), ("pairs", pairs), ("merge", merge), ("value", scalar)]

def ofName (name : String) : Tag :=
  ((named.find? fun (n, _) => formatStem ++ n == name).map (·.2)).getD unknown

end Tag

/-! ## Forms of plain scalars -/

/-- Characters without a sign before them. -/
def unsigned : List Char → List Char
  | '+' :: cs | '-' :: cs => cs
  | cs => cs

def isDigits (p : Char → Bool) (cs : List Char) : Bool := !cs.isEmpty && cs.all fun c => p c || c == '_'

/-- One or two digits of a number below sixty. -/
def isSixtieth : List Char → Bool
  | [a] => a.isDigit
  | [a, b] => '0' ≤ a && a ≤ '5' && b.isDigit
  | _ => false

/-- The parts between separators. -/
def splitOn (separator : Char) : List Char → List (List Char)
  | [] => [[]]
  | c :: cs =>
    let parts := splitOn separator cs
    if c = separator then [] :: parts else (c :: parts.headD []) :: parts.tail

/-- Digits, the first one in a given range. -/
def startsNumber (first : Char) : List Char → Bool
  | c :: cs => first ≤ c && c ≤ '9' && cs.all fun c => c.isDigit || c == '_'
  | [] => false

/-- Whether a text writes an integer: in base 2, 8, 10, 16 or 60. -/
def isInteger (cs : List Char) : Bool :=
  match unsigned cs with
  | ['0'] => true
  | '0' :: 'b' :: ds => isDigits (fun c => c == '0' || c == '1') ds
  | '0' :: 'x' :: ds => isDigits isHex ds
  | '0' :: ds => isDigits (fun c => '0' ≤ c && c ≤ '7') ds
  | ds =>
    match splitOn ':' ds with
    | [] => false
    | whole :: parts => startsNumber '1' whole && parts.all isSixtieth

/-- Whether nothing or an exponent with a sign is left. -/
def isExponent : List Char → Bool
  | [] => true
  | e :: s :: ds => (e == 'e' || e == 'E') && (s == '+' || s == '-') && !ds.isEmpty && ds.all Char.isDigit
  | _ => false

/-- Places behind a point, and perhaps an exponent. -/
def isFraction (cs : List Char) : Bool :=
  isExponent (cs.dropWhile fun c => c.isDigit || c == '_')

/-- Whether a text writes a number with a point: in base 10 or 60, infinite, or none. -/
def isFloat (cs : List Char) : Bool :=
  let infinite := [".inf", ".Inf", ".INF"].map String.toList
  let nan := [".nan", ".NaN", ".NAN"].map String.toList
  if nan.contains cs || infinite.contains (unsigned cs) then true
  else
    match cs with
    | '.' :: c :: r => c.isDigit && isFraction r
    | _ =>
      match (unsigned cs).span (· != '.') with
      | (whole, _ :: r) =>
        match splitOn ':' whole with
        | [] => false
        | [w] => startsNumber '0' w && isFraction r
        | w :: parts =>
          startsNumber '0' w && parts.all isSixtieth && r.all fun c => c.isDigit || c == '_'
      | (_, []) => false

/-! ## Moments -/

/-- A number of at least `least` and at most `most` digits, and what follows. -/
def digitsOf (least most : Nat) (cs : List Char) : Option (Nat × List Char) :=
  let ds := (cs.takeWhile Char.isDigit).take most
  if least ≤ ds.length then
    some (ds.foldl (fun n c => 10 * n + (c.toNat - 48)) 0, cs.drop ds.length)
  else none

def expect (c : Char) : List Char → Option (List Char)
  | d :: cs => if c = d then some cs else none
  | [] => none

/-- The microseconds that places write; further places are cut off. -/
def microseconds (places : List Char) : Nat :=
  let six := places.take 6
  (six ++ List.replicate (6 - six.length) '0').foldl (fun n c => 10 * n + (c.toNat - 48)) 0

/-- A zone at the end of a text: universal time, or hours and minutes behind a sign. -/
def zoneOf (cs : List Char) : Option (Option Int) :=
  match cs.dropWhile fun c => c == ' ' || c == '\t' with
  | [] => if cs.isEmpty then some none else none
  | ['Z'] => some (some 0)
  | s :: r => do
    if s ≠ '+' ∧ s ≠ '-' then none
    let (hours, r) ← digitsOf 1 2 r
    let (minutes, r) ← if r.isEmpty then some (0, []) else do digitsOf 2 2 (← expect ':' r)
    if !r.isEmpty then none
    let ahead : Int := hours * 60 + minutes
    return some (if s = '-' then -ahead else ahead)

/-- A time of day behind its date. -/
def clockOf (cs : List Char) : Option Clock := do
  let r ← match cs with
    | 'T' :: r | 't' :: r => some r
    | c :: _ => if c = ' ' ∨ c = '\t' then some (cs.dropWhile fun c => c == ' ' || c == '\t') else none
    | [] => none
  let (hour, r) ← digitsOf 1 2 r
  let (minute, r) ← digitsOf 2 2 (← expect ':' r)
  let (second, r) ← digitsOf 2 2 (← expect ':' r)
  let (places, r) := match r with
    | '.' :: r => r.span Char.isDigit
    | _ => ([], r)
  return ⟨hour, minute, second, microseconds places, ← zoneOf r⟩

/-- The moment that a text writes; its numbers may be out of range. -/
def momentOf? (cs : List Char) : Option Moment := do
  let (year, r) ← digitsOf 4 4 cs
  let (month, r) ← digitsOf 1 2 (← expect '-' r)
  let (day, r) ← digitsOf 1 2 (← expect '-' r)
  if r.isEmpty then return ⟨year, month, day, none⟩
  return ⟨year, month, day, some (← clockOf r)⟩

/-- Whether a plain text is a moment; a date alone has two digits for month and day. -/
def isMoment (cs : List Char) : Bool :=
  match momentOf? cs with
  | some m => m.clock.isSome || cs.length == 10
  | none => false

namespace Tag

def truthWords : List (String × Bool) :=
  [("yes", true), ("no", false), ("true", true), ("false", false), ("on", true), ("off", false)]

/-- The spellings of a small word as a plain scalar: small, with a capital, or in capitals. -/
def spellings (word : String) : List String := [word, word.capitalize, word.toUpper]

def ofPlainString (s : String) : Tag :=
  let cs := s.toList
  if truthWords.any fun (w, _) => (spellings w).contains s then bool
  else if isFloat cs then float
  else if isInteger cs then int
  else if s = "<<" then merge
  else if ["", "~", "null", "Null", "NULL"].contains s then null
  else if isMoment cs then moment
  else if s = "=" then scalar
  else text

/-- The tag of a plain scalar by its form. -/
def ofPlain (t : Text) : Tag :=
  match t.toString? with
  | some s => ofPlainString s
  | none => text

end Tag
end SurfaceCoverage.Yaml
