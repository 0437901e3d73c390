import SurfaceCoverage.Script.Reader
/-!
# Tokens of scripts

Words, numbers, strings, templates, regular expressions, comments and the end of a statement. A
word may be anything that is not punctuation, a digit or a blank at its start. A statement ends at
a semicolon, before a closing brace, at the end of the script, or at a line break whose next
character cannot go on with what was read.
-/

namespace SurfaceCoverage.Script

open Reader

/-- Blanks between tokens: white space, and the characters of no width. -/
def isGap (c : Char) : Bool :=
  let n := c.toNat
  (9 ≤ n && n ≤ 13) || n == 32 || n == 0x85 || n == 0xa0 || n == 0x1680 ||
    (0x2000 ≤ n && n ≤ 0x200b) || n == 0x2028 || n == 0x2029 || n == 0x202f || n == 0x205f ||
    n == 0x2060 || n == 0x3000 || n == 0xfeff

def isLineEnd (c : Char) : Bool := c == '\n' || c.toNat == 0x2028 || c.toNat == 0x2029

/-- The accent that delimits templates. -/
def accent : Char := Char.ofNat 96

def isPunctuation (c : Char) : Bool :=
  c == accent || ":;\"'@#.,|^&<=>+-*/\\%?!~()[]\x7b\x7d".toList.contains c

def isWordPart (c : Char) : Bool := c.toNat > 31 && !isGap c && !isPunctuation c

def isWordStart (c : Char) : Bool := isWordPart c && !c.isDigit

def isHex (c : Char) : Bool :=
  c.isDigit || ('a' ≤ c && c ≤ 'f') || ('A' ≤ c && c ≤ 'F')

def isOctal (c : Char) : Bool := '0' ≤ c && c ≤ '7'

/-- The number of characters at the start that pass a test. -/
def spanLength (p : Char → Bool) (cs : List Char) : Nat := (cs.takeWhile p).length

/-- What is left behind a given beginning. -/
def behind? : List Char → List Char → Option (List Char)
  | cs, [] => some cs
  | [], _ :: _ => none
  | c :: cs, d :: ds => if c = d then behind? cs ds else none

def begins (s : String) (cs : List Char) : Bool := (behind? cs s.toList).isSome

/-- The length of the word parts at the start; `braced` inside the braces of an escape. -/
def wordTail (braced : Bool) : List Char → Nat
  | [] => 0
  | '\\' :: 'u' :: '{' :: cs => if braced then 0 else wordTail true cs + 3
  | '\\' :: 'u' :: a :: b :: c :: d :: cs =>
    if !braced && [a, b, c, d].all isHex then wordTail false cs + 6 else 0
  | c :: cs =>
    if braced then
      if c = '}' then wordTail false cs + 1 else if isHex c then wordTail true cs + 1 else 0
    else if isWordPart c then wordTail false cs + 1 else 0

/-- The length of the word at the start. -/
def wordLength (cs : List Char) : Nat :=
  match cs with
  | c :: _ => if isWordStart c || c = '\\' then wordTail false cs else 0
  | [] => 0

/-- The length of digits with single underscores between them. -/
def digitsLength (p : Char → Bool) : List Char → Nat
  | '_' :: _ => 0
  | cs => go cs
where
  go : List Char → Nat
    | [] => 0
    | [c] => if p c then 1 else 0
    | c :: d :: cs =>
      if p c then go (d :: cs) + 1 else if c = '_' && p d then go (d :: cs) + 1 else 0

def exponentLength : List Char → Nat
  | e :: cs =>
    if e = 'e' || e = 'E' then
      match cs with
      | s :: ds =>
        if s = '+' || s = '-' then
          match digitsLength Char.isDigit ds with
          | 0 => 0
          | n => n + 2
        else
          match digitsLength Char.isDigit cs with
          | 0 => 0
          | n => n + 1
      | [] => 0
    else 0
  | [] => 0

/-- Digits of a base behind a zero and a letter, and perhaps the mark of a big integer. -/
def basedLength (p : Char → Bool) (cs : List Char) : Nat :=
  match digitsLength p cs with
  | 0 => 0
  | n => n + 2 + (match cs.drop n with | 'n' :: _ => 1 | _ => 0)

/-- The length of the number at the start. -/
def numberLength (cs : List Char) : Nat :=
  match cs with
  | '0' :: 'x' :: r | '0' :: 'X' :: r => basedLength isHex r
  | '0' :: 'o' :: r | '0' :: 'O' :: r => basedLength isOctal r
  | '0' :: 'b' :: r | '0' :: 'B' :: r => basedLength (fun c => c == '0' || c == '1') r
  | '.' :: r =>
    match digitsLength Char.isDigit r with
    | 0 => 0
    | n => n + 1 + exponentLength (r.drop n)
  | _ =>
    match digitsLength Char.isDigit cs with
    | 0 => 0
    | n =>
      match cs.drop n with
      | 'n' :: _ => n + 1
      | '.' :: r =>
        let m := digitsLength Char.isDigit r
        n + 1 + m + exponentLength (r.drop m)
      | r => n + exponentLength r

/-- The length of the escape at the start of a string's text. -/
def escapeLength : List Char → Nat
  | '\\' :: 'x' :: a :: b :: _ => if isHex a && isHex b then 4 else 0
  | '\\' :: 'u' :: '{' :: cs =>
    let n := spanLength isHex cs
    if n > 0 && begins "\x7d" (cs.drop n) then n + 4 else 0
  | '\\' :: 'u' :: a :: b :: c :: d :: _ => if [a, b, c, d].all isHex then 6 else 0
  | '\\' :: c :: cs =>
    if isOctal c then min (spanLength isOctal cs) 2 + 2
    else if c = 'x' || c = 'u' then 0
    else if (c = '\r' || c = '?') && (cs.head?.any isLineEnd) then 3
    else 2
  | _ => 0

/-- The length of plain text in a template: up to an accent, an escape or a substitution. -/
def templateTextLength (cs : List Char) : Nat := go cs 0
where
  go : List Char → Nat → Nat
    | [], n => n
    | c :: cs, n =>
      if c = accent || c = '\\' then n
      else if c = '$' && begins "\x7b" cs then n
      else go cs (n + 1)

/-- The length up to and with the end of a block comment, 0 if it has none. -/
def blockEnd : List Char → Nat → Nat
  | '*' :: '/' :: _, n => n + 2
  | _ :: cs, n => blockEnd cs (n + 1)
  | [], _ => 0

/-- The length of the comment at the start. -/
def commentLength : List Char → Nat
  | '/' :: '/' :: cs => spanLength (fun c => !isLineEnd c && c != '\r') cs + 2
  | '/' :: '*' :: cs => match blockEnd cs 0 with | 0 => 0 | n => n + 2
  | _ => 0

/-- The length of a comment in the manner of markup, to the end of the line. -/
def htmlCommentLength (cs : List Char) : Nat :=
  if begins "<!--" cs || begins "-->" cs then spanLength (fun c => !isLineEnd c) cs else 0

/-- The length of a regular expression at the start, without its flags. -/
def regexLength : List Char → Nat
  | '/' :: cs => match go cs false 0 with | 0 => 0 | 1 => 0 | n => n + 1
  | _ => 0
where
  go : List Char → Bool → Nat → Nat
    | [], _, _ => 0
    | '\\' :: c :: cs, inClass, n => if isLineEnd c then 0 else go cs inClass (n + 2)
    | c :: cs, inClass, n =>
      if isLineEnd c then 0
      else if c = '/' && !inClass then n + 1
      else if c = '[' then go cs true (n + 1)
      else if c = ']' then go cs false (n + 1)
      else go cs inClass (n + 1)

/-- The length of a named or numbered character reference of markup. -/
def referenceLength : List Char → Nat
  | '&' :: '#' :: x :: cs =>
    if x = 'x' || x = 'X' then closed (spanLength isHex cs) 6 cs 3
    else closed (spanLength Char.isDigit (x :: cs)) 5 (x :: cs) 2
  | '&' :: cs => closed (spanLength Char.isAlpha cs) 30 cs 1
  | _ => 0
where
  closed (n limit : Nat) (cs : List Char) (before : Nat) : Nat :=
    if 0 < n && n ≤ limit && begins ";" (cs.drop n) then before + n + 1 else 0

/-! ## Space and marks -/

/-- Blanks and comments. -/
def gaps : Forest :=
  many (leaf .blank (spanLength isGap) <|> leaf .comment commentLength)

/-- Blanks and comments, those in the manner of markup too. -/
def wideGaps : Forest :=
  many (leaf .blank (spanLength isGap) <|> leaf .comment commentLength <|>
    leaf .htmlComment htmlCommentLength)

/-- A mark right here. -/
def mark (s : String) : Forest :=
  leaf .token fun cs => if begins s cs then s.length else 0

/-- A mark, perhaps behind space. -/
def punct (s : String) : Forest := gaps ++ mark s

/-- A mark that none of the given characters follows. -/
def punctNot (s : String) (followers : List Char) : Forest :=
  gaps ++ leaf .token fun cs =>
    match behind? cs s.toList with
    | some (c :: _) => if followers.contains c then 0 else s.length
    | some [] => s.length
    | none => 0

/-- Whether the word at the start is the given one. -/
def startsWord (s : String) (cs : List Char) : Bool :=
  begins s cs && wordLength cs == s.length

/-- A keyword, perhaps behind space. -/
def word (s : String) : Forest :=
  gaps ++ leaf .token fun cs => if startsWord s cs then s.length else 0

/-- A branch of the trees that a reader reads; the space before it stays outside. -/
def node (kind : Kind) (p : Forest) : Forest := do
  let space ← gaps
  let parts ← p
  return space ++ [.branch .none kind parts]

/-- A single tree, and the space before it. -/
def single (p : Forest) : Reader (List Node × Node) := do
  let space ← gaps
  match ← p with
  | [n] => return (space, n)
  | _ => refuse

/-- The characters left behind the space here. -/
def ahead : Reader (List Char) := fun d c =>
  match gaps d c with
  | some (_, c') => some (c'.rest, c)
  | none => none

/-- Goes on only if a test on the characters behind the space succeeds. -/
def checkAhead (test : List Char → Bool) : Forest := fun d c =>
  match ahead d c with
  | some (cs, _) => if test cs then some ([], c) else none
  | none => none

/-! ## Words, numbers and strings -/

/-- Any word. -/
def anyWord (kind : Kind) : Forest := gaps ++ leaf kind wordLength

/-- Any word but the given ones. -/
def wordExcept (excluded : List String) (kind : Kind) : Forest :=
  gaps ++ leaf kind fun cs => if excluded.any (startsWord · cs) then 0 else wordLength cs

/-- A leaf for one given word. -/
def wordLeaf (kind : Kind) (s : String) : Forest :=
  gaps ++ leaf kind fun cs => if startsWord s cs then s.length else 0

def number : Forest := gaps ++ leaf .number numberLength

def quoted (quote : Char) : Forest :=
  node .string (mark quote.toString ++
    many (leaf .stringFragment (spanLength fun c => c != quote && c != '\\' && c != '\n' && c != '\r') <|>
      leaf .escapeSequence escapeLength) ++
    mark quote.toString)

/-- A string literal. -/
def string : Forest := quoted '"' <|> quoted '\''

/-- A template, with its substitutions read by the given reader. -/
def template (kind : Kind) (substitution : Forest) : Forest :=
  node kind (mark accent.toString ++
    many (leaf .stringFragment templateTextLength <|> leaf .escapeSequence escapeLength <|> substitution) ++
    mark accent.toString)

def regex : Forest :=
  node .regex (leaf .token regexLength ++ optional (leaf .token (spanLength Char.isLower)))

/-- A name with a number sign. -/
def privateName : Forest :=
  gaps ++ leaf .privatePropertyIdentifier fun
    | '#' :: cs => match wordLength cs with | 0 => 0 | n => n + 1
    | _ => 0

/-! ## Ends of statements -/

/-- Where the scan of the space behind a statement stands. -/
inductive Scan where
  | blank | line | block
deriving DecidableEq

/-- Skips blanks and comments, and says whether a line ended. -/
def skipSpace (broken : Bool) : Scan → List Char → Bool × List Char
  | _, [] => (broken, [])
  | .line, c :: cs =>
    if isLineEnd c then skipSpace true .blank cs else skipSpace broken .line cs
  | .block, '*' :: '/' :: cs => skipSpace broken .blank cs
  | .block, _ :: cs => skipSpace broken .block cs
  | .blank, '/' :: '/' :: cs => skipSpace broken .line cs
  | .blank, '/' :: '*' :: cs => skipSpace broken .block cs
  | .blank, c :: cs =>
    if isGap c then skipSpace (broken || isLineEnd c) .blank cs else (broken, c :: cs)

/-- Whether the word at the start is `in` or `instanceof`. -/
def startsRelation (cs : List Char) : Bool := startsWord "in" cs || startsWord "instanceof" cs

/-- Whether a line break before these characters ends what was read; `value` when that is an
expression, which brackets on the next line would continue. -/
def endsAtBreak (value : Bool) (cs : List Char) : Bool :=
  match cs with
  | [] => true
  | c :: r =>
    if c == accent || ",.;*%><=?^|&/:".toList.contains c then false
    else if c = '(' || c = '[' then !value
    else if c = '+' then begins "+" r
    else if c = '-' then begins "-" r
    else if c = '!' then !begins "=" r
    else !startsRelation cs

/-- Whether a statement may end here without a semicolon. -/
def mayEnd (value : Bool) (cs : List Char) : Bool :=
  let (broken, cs) := skipSpace false .blank cs
  match cs with
  | [] => true
  | '}' :: _ => true
  | _ => broken && endsAtBreak value cs

/-- The end of a statement behind an expression. -/
def endOfValue : Forest := punct ";" <|> check (mayEnd true)

/-- The end of a statement behind anything else. -/
def endOfItem : Forest := punct ";" <|> check (mayEnd false)

/-- Goes on only if no line ends in the space here. -/
def sameLine : Forest := check fun cs => !(skipSpace false .blank cs).1

end SurfaceCoverage.Script
