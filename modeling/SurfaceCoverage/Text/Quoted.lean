import SurfaceCoverage.Text.Printable
import SurfaceCoverage.Text
/-!
# Quoted texts

A quoted text stands between single quotes, or between double quotes if it holds single ones only.
A backslash comes before the quote and before itself; tabs, line feeds and carriage returns have an
escape of one letter, and what is not printable is written by its number, in two, four or eight
hexadecimal digits.
-/

namespace SurfaceCoverage

/-- Hexadecimal digits of a number, at least `width` of them. -/
def hexDigits (width n : Nat) : Text :=
  let digits := Nat.toDigits 16 n
  Text.ofChars (List.replicate (width - digits.length) '0' ++ digits)

namespace CodePoint

/-- The number of a code point as an escape. -/
def numberedEscape (p : CodePoint) : Text :=
  let n := p.toNat
  if n < 0x100 then ("\\x" : Text) ++ hexDigits 2 n
  else if n < 0x10000 then ("\\u" : Text) ++ hexDigits 4 n
  else ("\\U" : Text) ++ hexDigits 8 n

/-- A code point between quotes of the given kind; with `ascii`, in ASCII only. -/
def quoted (ascii : Bool) (quote : Char) (p : CodePoint) : Text :=
  match p with
  | scalar c =>
    if c = quote || c = '\\' then [scalar '\\', p]
    else if c = '\n' then "\\n"
    else if c = '\r' then "\\r"
    else if c = '\t' then "\\t"
    else if Letters.isPrintable c && (!ascii || c.toNat < 128) then [p]
    else p.numberedEscape
  | surrogate _ => p.numberedEscape

end CodePoint

namespace Text

/-- The quote around a text. -/
def quoteFor (t : Text) : Char :=
  if t.contains (.scalar '\'') && !t.contains (.scalar '"') then '"' else '\''

/-- A text in quotes; with `ascii`, in ASCII only. -/
def quotedIn (ascii : Bool) (t : Text) : Text :=
  let quote := t.quoteFor
  .scalar quote :: t.flatMap (CodePoint.quoted ascii quote) ++ [.scalar quote]

/-- A text in quotes. -/
def quoted (t : Text) : Text := quotedIn false t

/-- Texts with a separator between them. -/
def join (separator : Text) (ts : List Text) : Text := (ts.intersperse separator).flatten

/-- A list of texts in brackets, each in quotes. -/
def quotedList (ts : List Text) : Text :=
  ("[" : Text) ++ join ", " (ts.map quoted) ++ ("]" : Text)

end Text
end SurfaceCoverage
