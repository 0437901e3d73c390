import SurfaceCoverage.Number.Numeral
import SurfaceCoverage.Yaml.Tag
import SurfaceCoverage.Yaml.Fault
/-!
# Values of scalars

The value of a scalar is that of its text under its tag. Underscores in numbers only separate
digits, and numbers may be written in base sixty, with colons between their parts.
-/

namespace SurfaceCoverage.Yaml

/-! ## Numbers -/

/-- A number without separators, as a sign and what follows it. -/
def bareNumber (t : Text) : Except Fault (Bool × Text) :=
  match t.filter (· != .scalar '_') with
  | [] => .error .missingNumber
  | .scalar '-' :: r => .ok (true, r)
  | .scalar '+' :: r => .ok (false, r)
  | r => .ok (false, r)

/-- The parts of a number in base sixty, the last one first. -/
def sixtieths : Text → List Text → List Text
  | [], parts => parts
  | .scalar ':' :: t, parts => sixtieths t ([] :: parts)
  | p :: t, [] => sixtieths t [[p]]
  | p :: t, part :: parts => sixtieths t ((part ++ [p]) :: parts)

/-- The number of parts in base sixty, the last one first. -/
def sixtiethsInt (parts : List Int) : Int := parts.foldr (fun d n => d + 60 * n) 0

/-- The sum of parts in base sixty, from the last one on; `scale` is the value of the first. -/
def sixtiethsFloat (sum : Binary64) (scale : Nat) : List Binary64 → Except Fault Binary64
  | [] => .ok sum
  | d :: ds =>
    match Binary64.ofInt scale with
    | .infinite _ => .error .overflow
    | s => sixtiethsFloat (sum.add (d.mul s)) (60 * scale) ds

/-- The value of a numeral, if it is one. -/
def readAs {α} (read : Text → Option α) (t : Text) : Except Fault α :=
  match read t with
  | some n => .ok n
  | none => .error .outOfRange

/-- The number behind the sign of an integer. -/
def magnitude (t : Text) : Except Fault Int :=
  match t with
  | [] => .error .missingNumber
  | [.scalar '0'] => .ok 0
  | .scalar '0' :: .scalar 'b' :: ds => readAs (Numeral.int? 2) ds
  | .scalar '0' :: .scalar 'x' :: ds => readAs (Numeral.int? 16) ds
  | .scalar '0' :: _ => readAs (Numeral.int? 8) t
  | _ =>
    if t.contains (.scalar ':') then do
      return sixtiethsInt (← (sixtieths t [[]]).mapM (readAs (Numeral.int? 10)))
    else readAs (Numeral.int? 10) t

def intOf (t : Text) : Except Fault Int := do
  let (negative, t) ← bareNumber t
  let n ← magnitude t
  return if negative then -n else n

def floatOf (t : Text) : Except Fault Binary64 := do
  let (negative, t) ← bareNumber t.lower
  let n ←
    if t = Text.ofString ".inf" then pure (.infinite false)
    else if t = Text.ofString ".nan" then pure .nan
    else if t.contains (.scalar ':') then do
      sixtiethsFloat (.finite false 0 0) 1 (← (sixtieths t [[]]).mapM (readAs Numeral.float?))
    else readAs Numeral.float? t
  return if negative then n.negate else n

/-! ## Truth values, bytes and moments -/

def boolOf (t : Text) : Except Fault Bool :=
  match Tag.truthWords.find? fun (w, _) => Text.ofString w == t.lower with
  | some (_, b) => .ok b
  | none => .error (.unknownWord t.lower)

/-- The six bits that a character of bytes in base 64 stands for. -/
def sixBits? (c : Char) : Option Nat :=
  if c.isUpper then some (c.toNat - 65)
  else if c.isLower then some (c.toNat - 71)
  else if c.isDigit then some (c.toNat + 4)
  else if c = '+' then some 62
  else if c = '/' then some 63
  else none

/-- The bytes of a text in base 64. `held` are the values of the group that is being read, and
`pads` the padding behind them; characters that stand for nothing are skipped. -/
def base64 (held : List Nat) (pads : Nat) : List Char → Except Fault (List UInt8)
  | [] => if held.isEmpty then .ok [] else .error .malformed
  | c :: cs =>
    if c = '=' then
      match held with
      | [a, b] => if 1 ≤ pads then .ok [(a * 4 + b / 16).toUInt8] else base64 held (pads + 1) cs
      | [a, b, d] => .ok [(a * 4 + b / 16).toUInt8, (b * 16 + d / 4).toUInt8]
      | _ => base64 held pads cs
    else
      match sixBits? c, held with
      | none, _ => base64 held pads cs
      | some e, [a, b, d] => do
        let bytes ← base64 [] 0 cs
        return (a * 4 + b / 16).toUInt8 :: (b * 16 + d / 4).toUInt8 :: (d * 64 + e).toUInt8 :: bytes
      | some e, _ => base64 (held ++ [e]) 0 cs

def bytesOf (t : Text) : Except Fault (List UInt8) :=
  match t.toChars? with
  | some cs => if cs.all fun c => c.toNat < 128 then base64 [] 0 cs else .error .malformed
  | none => .error .malformed

namespace Clock

/-- Whether the numbers of a time of day are in range. -/
def isValid (c : Clock) : Bool :=
  c.hour < 24 && c.minute < 60 && c.second < 60 && c.ahead.all fun m => m.natAbs < 1440

end Clock

/-- Whether the numbers of a moment are in range. -/
def isValid (m : Moment) : Bool :=
  1 ≤ m.year && 1 ≤ m.month && m.month ≤ 12 && 1 ≤ m.day && m.day ≤ Moment.daysIn m.year m.month &&
    m.clock.all Clock.isValid

/-- A text without one line feed at its end. -/
def dropLineFeed (cs : List Char) : List Char := if cs.getLast? = some '\n' then cs.dropLast else cs

def momentOf (t : Text) : Except Fault Moment :=
  match t.toChars?.bind fun cs => momentOf? (dropLineFeed cs) with
  | some m => if isValid m then .ok m else .error .outOfRange
  | none => .error .noMoment

/-! ## Scalars -/

/-- The value of a scalar's text; only the tags of scalars give one. -/
def Tag.value (tag : Tag) (t : Text) : Except Fault Value :=
  match tag with
  | .null => .ok .null
  | .text => .ok (.text t)
  | .bool => .bool <$> boolOf t
  | .int => .int <$> intOf t
  | .float => .float <$> floatOf t
  | .binary => .bytes <$> bytesOf t
  | .moment => .moment <$> momentOf t
  | .list | .mapping | .set | .pairs | .merge | .scalar | .unknown => .error .malformed

end SurfaceCoverage.Yaml
