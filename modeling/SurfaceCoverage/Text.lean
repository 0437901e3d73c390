/-!
# Text as code points

A name may come from a string literal, and an escape such as `\ud83d` names half of a surrogate
pair. Such a half stays a code point of its own and never joins its neighbour, so names are lists
of code points rather than strings of scalar values. Text that is read from a file holds scalar
values only.
-/

namespace SurfaceCoverage

/-- A Unicode scalar value, or a surrogate that an escape has named on its own. -/
inductive CodePoint where
  | scalar (c : Char)
  | surrogate (offset : Fin 2048)
deriving DecidableEq

namespace CodePoint

/-- The number of a code point; surrogates start at `0xd800`. -/
def toNat : CodePoint → Nat
  | scalar c => c.toNat
  | surrogate i => 0xd800 + i.val

/-- The code point of a number below `0x110000`. -/
def ofNat? (n : Nat) : Option CodePoint :=
  if h : n.isValidChar then some (scalar (Char.ofNatAux n h))
  else if 0xd800 ≤ n ∧ n < 0xe000 then some (surrogate (Fin.ofNat 2048 (n - 0xd800)))
  else none

instance : Coe Char CodePoint := ⟨scalar⟩

/-- A test on characters, false on a surrogate. -/
def satisfies (p : Char → Bool) : CodePoint → Bool
  | scalar c => p c
  | surrogate _ => false

/-- A map on characters that leaves surrogates alone. -/
def map (f : Char → Char) : CodePoint → CodePoint
  | scalar c => scalar (f c)
  | surrogate i => surrogate i

end CodePoint

/-- A sequence of code points. -/
abbrev Text := List CodePoint

namespace Text

def ofChars (cs : List Char) : Text := cs.map CodePoint.scalar

def ofString (s : String) : Text := ofChars s.toList

instance : Coe String Text := ⟨ofString⟩

/-- The characters of a text without surrogates. -/
def toChars? : Text → Option (List Char)
  | [] => some []
  | .scalar c :: t => (toChars? t).map (c :: ·)
  | .surrogate _ :: _ => none

/-- The string of a text without surrogates. -/
def toString? (t : Text) : Option String := (toChars? t).map String.ofList

/-- Whether one text comes before another, code point by code point; a shorter text comes before
what it begins. -/
def precedes : Text → Text → Bool
  | [], [] => false
  | [], _ :: _ => true
  | _ :: _, [] => false
  | a :: s, b :: t => a.toNat < b.toNat || (a == b && precedes s t)

/-- What is left of a text behind a given beginning. -/
def dropStart? : Text → Text → Option Text
  | t, [] => some t
  | [], _ :: _ => none
  | a :: t, b :: s => if a = b then dropStart? t s else none

def startsWith (t s : Text) : Bool := (dropStart? t s).isSome

/-- The part of a text before the first occurrence of a code point, all of it if there is none. -/
def before (t : Text) (c : CodePoint) : Text := t.takeWhile (· != c)

/-- The texts of a list in code point order, each once. -/
def sorted (ts : List Text) : List Text :=
  ts.eraseDups.mergeSort fun a b => !precedes b a

end Text
end SurfaceCoverage
