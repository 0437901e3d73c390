import SurfaceCoverage.Tree.Node
import SurfaceCoverage.Failure
/-!
# Values of string literals

A string, or a template without substitutions, has a value: its fragments as they stand and its
escapes decoded. A simple escape names a control character, `\x`, `\u` and `\u{}` name a code point
by number, a backslash before a line break contributes nothing, and any other escape stands for
what follows the backslash. A number beyond the last code point leaves the escape as it stands,
without its backslash; one of 32 bits or more overflows.
-/

namespace SurfaceCoverage

/-- The control characters with an escape of one letter. -/
def simpleEscape? : Char → Option Char
  | 'n' => some '\n'
  | 't' => some '\t'
  | 'r' => some '\r'
  | '0' => some (Char.ofNat 0)
  | 'b' => some (Char.ofNat 8)
  | 'f' => some (Char.ofNat 12)
  | 'v' => some (Char.ofNat 11)
  | _ => none

def hexDigit? (c : Char) : Option Nat :=
  if c.isDigit then some (c.toNat - '0'.toNat)
  else if 'a' ≤ c ∧ c ≤ 'f' then some (c.toNat - 'a'.toNat + 10)
  else if 'A' ≤ c ∧ c ≤ 'F' then some (c.toNat - 'A'.toNat + 10)
  else none

/-- The number that hexadecimal digits write, if there is one at least. -/
def hexNumber? (cs : List Char) : Option Nat :=
  if cs.isEmpty then none
  else cs.foldl (fun n c => do return (← n) * 16 + (← hexDigit? c)) (some 0)

/-- Characters without the braces around them. -/
def withoutBraces (cs : List Char) : List Char :=
  let isBrace c := c == '{' || c == '}'
  ((cs.dropWhile isBrace).reverse.dropWhile isBrace).reverse

/-- The code point of a number, or what to write instead. -/
def numberedText (n : Nat) (instead : List Char) : Except Failure Text :=
  match CodePoint.ofNat? n with
  | some p => .ok [p]
  | none => if n < Nat.pow 2 31 then .ok (Text.ofChars instead) else .error .overflow

/-- What the characters behind a backslash stand for. -/
def decodeEscape (body : List Char) : Except Failure Text :=
  match body with
  | [] => .ok []
  | [c] =>
    match simpleEscape? c with
    | some d => .ok [.scalar d]
    | none => .ok (if c = '\n' then [] else [.scalar c])
  | c :: digits =>
    if c = 'u' ∨ c = 'x' then
      match hexNumber? (withoutBraces digits) with
      | some n => numberedText n body
      | none => .ok (Text.ofChars body)
    else if c = '\n' then .ok []
    else .ok (Text.ofChars body)

/-- The value of the parts of a literal; a substitution leaves none. -/
def joinFragments : List Node → Except Failure (Option Text)
  | [] => .ok (some [])
  | n :: ns =>
    match n.kind with
    | .templateSubstitution => .ok none
    | .stringFragment => do return (← joinFragments ns).map (n.name ++ ·)
    | .escapeSequence => do
      let decoded ← decodeEscape (n.text.toList.drop 1)
      return (← joinFragments ns).map (decoded ++ ·)
    | _ => joinFragments ns

namespace Node

/-- A string or a template. The keyword of the type `string` counts as a literal without parts. -/
def isLiteral (n : Node) : Bool :=
  n.kind == .string || n.kind == .templateString || (n.kind == .token && n.text == "string")

/-- The value of a string or of a template without substitutions. -/
def stringValue (n : Node) : Except Failure (Option Text) :=
  if n.isLiteral then joinFragments n.children else .ok none

/-- The value of a literal that may be missing. -/
def stringValue? : Option Node → Except Failure (Option Text)
  | some n => n.stringValue
  | none => .ok none

end Node
end SurfaceCoverage
