import SurfaceCoverage.Yaml.Fault
/-!
# Characters of documents

Line ends are line feeds, next lines, and the separators of lines and paragraphs; carriage returns
have been made line feeds before. The separators keep their character where a line end counts as
text, the others become line feeds.
-/

namespace SurfaceCoverage.Yaml

def isBreak (c : Char) : Bool :=
  c == '\n' || c.toNat == 0x85 || c.toNat == 0x2028 || c.toNat == 0x2029

/-- What a line end is as text. -/
def breakText (c : Char) : Char := if c.toNat = 0x85 then '\n' else c

/-- Whether a character may stand in a document at all. -/
def isAllowed (c : Char) : Bool :=
  let n := c.toNat
  n == 9 || n == 10 || n == 13 || (0x20 ≤ n && n ≤ 0x7e) || n == 0x85 || (0xa0 ≤ n && n ≤ 0xd7ff) ||
    (0xe000 ≤ n && n ≤ 0xfffd) || 0x10000 ≤ n

/-- Whether a space, a line end or the end is here. -/
def atSpace (cs : List Char) : Bool := cs.head?.all fun c => c == ' ' || isBreak c

/-- Whether a space, a tab, a line end or the end is here. -/
def atGap (cs : List Char) : Bool := cs.head?.all fun c => c == ' ' || c == '\t' || isBreak c

/-- Whether a line end or the end is here. -/
def atLineEnd (cs : List Char) : Bool := cs.head?.all isBreak

/-- Letters, digits, dashes and underscores. -/
def isNameChar (c : Char) : Bool := c.isAlphanum || c == '-' || c == '_'

def isHex (c : Char) : Bool := c.isDigit || ('a' ≤ c && c ≤ 'f') || ('A' ≤ c && c ≤ 'F')

/-- The value of a hexadecimal digit. -/
def hexValue (c : Char) : Nat :=
  if c.isDigit then c.toNat - 48 else if c.isUpper then c.toNat - 55 else c.toNat - 87

/-- The number of several hexadecimal digits. -/
def hexNumber (cs : List Char) : Nat := cs.foldl (fun n c => 16 * n + hexValue c) 0

/-- Whether a line of three dashes, or of three dots, begins here. -/
def atMarker (c : Char) : List Char → Bool
  | a :: b :: d :: cs => a == c && b == c && d == c && atGap cs
  | _ => false

/-- Whether a line begins here that separates documents. -/
def atSeparator (cs : List Char) : Bool := atMarker '-' cs || atMarker '.' cs

end SurfaceCoverage.Yaml
