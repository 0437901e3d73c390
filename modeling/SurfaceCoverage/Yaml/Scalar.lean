import SurfaceCoverage.Yaml.Character
/-!
# Scalars of documents

Texts in quotes, plain texts and blocks, each with what follows it. Inside a text one line end
folds to a space, further ones stay; blanks around line ends vanish. In a block the lines keep
their indentation beyond that of the block, and their ends unless the block is folded.
-/

namespace SurfaceCoverage.Yaml

/-- What has been seen since the last character of a text that counts. -/
inductive Gap where
  | none
  /-- Blanks, the last one first. -/
  | blanks (cs : List Char)
  /-- Line ends: the first, unless it was escaped, and the others, the last one first. -/
  | breaks (first : Option Char) (more : List Char)

namespace Gap

/-- What a gap between two characters of a text comes to. -/
def fold : Gap → List Char
  | none => []
  | blanks cs => cs.reverse
  | breaks .none more => more.reverse
  | breaks (some b) more =>
    (if b ≠ '\n' then [b] else if more.isEmpty then [' '] else []) ++ more.reverse

def withBlank (c : Char) : Gap → Gap
  | none => blanks [c]
  | blanks cs => blanks (c :: cs)
  | g => g

def withBreak (c : Char) : Gap → Gap
  | breaks first more => breaks first (breakText c :: more)
  | _ => breaks (some (breakText c)) []

def isBroken : Gap → Bool
  | breaks .. => true
  | _ => false

/-- A text in reverse with a gap behind it. -/
def after (done : Text) (g : Gap) : Text := (Text.ofChars g.fold).reverse ++ done

end Gap

/-! ## Quoted texts -/

/-- The characters with an escape of one letter. -/
def letterEscape? : Char → Option Char
  | '0' => some (Char.ofNat 0)
  | 'a' => some (Char.ofNat 7)
  | 'b' => some (Char.ofNat 8)
  | 't' | '\t' => some '\t'
  | 'n' => some '\n'
  | 'v' => some (Char.ofNat 11)
  | 'f' => some (Char.ofNat 12)
  | 'r' => some '\r'
  | 'e' => some (Char.ofNat 27)
  | ' ' => some ' '
  | '"' => some '"'
  | '\\' => some '\\'
  | '/' => some '/'
  | 'N' => some (Char.ofNat 0x85)
  | '_' => some (Char.ofNat 0xa0)
  | 'L' => some (Char.ofNat 0x2028)
  | 'P' => some (Char.ofNat 0x2029)
  | _ => none

/-- The number of digits in an escape by number. -/
def numberWidth? : Char → Option Nat
  | 'x' => some 2
  | 'u' => some 4
  | 'U' => some 8
  | _ => none

/-- What an escape stands for, and its length behind the backslash. -/
def escape (cs : List Char) : Except Fault (CodePoint × Nat) :=
  match cs with
  | [] => .error .malformed
  | c :: cs =>
    match letterEscape? c, numberWidth? c with
    | some d, _ => .ok (.scalar d, 1)
    | none, some width =>
      let digits := cs.take width
      if digits.length = width ∧ digits.all isHex then
        match CodePoint.ofNat? (hexNumber digits) with
        | some p => .ok (p, width + 1)
        | none => .error (if hexNumber digits < Nat.pow 2 31 then .outOfRange else .overflow)
      else .error .malformed
    | none, none => .error .malformed

/-- The rest of a text in quotes, behind `skip` characters, and what follows it. A line that
separates documents may not stand in it. -/
def quotedText (double : Bool) (gap : Gap) (done : Text) (skip : Nat) :
    List Char → Except Fault (Text × List Char)
  | [] => .error .malformed
  | c :: cs =>
    match skip with
    | n + 1 => quotedText double gap done n cs
    | 0 =>
      if c = ' ' ∨ c = '\t' then quotedText double (gap.withBlank c) done 0 cs
      else if isBreak c then
        if atSeparator cs then .error .malformed else quotedText double (gap.withBreak c) done 0 cs
      else if double ∧ c = '\\' then
        if cs.head?.any isBreak then
          if atSeparator cs.tail then .error .malformed
          else quotedText double (.breaks none []) (gap.after done) 1 cs
        else
          match escape cs with
          | .ok (p, length) => quotedText double .none (p :: gap.after done) length cs
          | .error f => .error f
      else if !double ∧ c = '\'' ∧ cs.head? = some '\'' then
        quotedText double .none (.scalar c :: gap.after done) 1 cs
      else if c = (if double then '"' else '\'') then .ok ((gap.after done).reverse, cs)
      else quotedText double .none (.scalar c :: gap.after done) 0 cs

/-! ## Plain texts -/

/-- Whether a plain text stops before these characters, whatever was before them. -/
def stopsPlain (flow : Bool) : List Char → Bool
  | [] => true
  | c :: cs =>
    c == '\t' || (c == ':' && (atGap cs || (flow && cs.head?.any ",[]\x7b\x7d".toList.contains))) ||
      (flow && ",?[]\x7b\x7d".toList.contains c)

/-- A plain text, what follows it, and whether a line ended behind it. Its further lines stand in
columns from `indent` on, and `column` is where the characters left stand. -/
def plainText (flow : Bool) (indent : Int) (column : Nat) (gap : Gap) (done : Text) :
    List Char → Text × List Char × Bool
  | [] => (done.reverse, [], gap.isBroken)
  | c :: cs =>
    if c = ' ' then plainText flow indent (column + 1) (gap.withBlank c) done cs
    else if isBreak c then
      if atSeparator cs then (done.reverse, cs, true)
      else plainText flow indent 0 (gap.withBreak c) done cs
    else
      let stops := stopsPlain flow (c :: cs) ||
        match gap with
        | .none => false
        | .blanks _ => c == '#'
        | .breaks .. => c == '#' || (!flow && column < indent)
      if stops then (done.reverse, c :: cs, gap.isBroken)
      else plainText flow indent (column + 1) .none (.scalar c :: gap.after done) cs

/-! ## Blocks -/

/-- How the line ends behind a block count: none, one or all of them. -/
inductive Chomping where
  | strip
  | clip
  | keep
deriving DecidableEq

/-- The sign for the line ends behind a block. -/
def chomping? : Char → Option Chomping
  | '-' => some .strip
  | '+' => some .keep
  | _ => none

/-- The digit for the indentation of a block. -/
def indentDigit? (c : Char) : Option Nat :=
  if c.isDigit && c != '0' then some (c.toNat - 48) else none

/-- The signs behind the mark of a block, in either order, and what follows them. -/
def blockHeader : List Char → Chomping × Option Nat × List Char
  | [] => (.clip, none, [])
  | c :: cs =>
    match chomping? c, indentDigit? c with
    | some chomping, _ =>
      match cs.head?.bind indentDigit? with
      | some n => (chomping, some n, cs.tail)
      | none => (chomping, none, cs)
    | none, some n =>
      match cs.head?.bind chomping? with
      | some chomping => (chomping, some n, cs.tail)
      | none => (.clip, some n, cs)
    | none, none => (.clip, none, c :: cs)

/-- What follows the line here, if it holds only spaces and a comment. -/
def behindLine? (cs : List Char) : Option (List Char) :=
  let cs := cs.dropWhile (· == ' ')
  let cs := if cs.head? = some '#' then cs.dropWhile (!isBreak ·) else cs
  if atLineEnd cs then some cs.tail else none

/-- The start of a block whose indentation is that of its first line: the line ends before it, the
widest indentation so far, the column reached and what follows. -/
def leadingSpace (column widest : Nat) (breaks : List Char) :
    List Char → List Char × Nat × Nat × List Char
  | [] => (breaks.reverse, widest, column, [])
  | c :: cs =>
    if c = ' ' then leadingSpace (column + 1) (max widest (column + 1)) breaks cs
    else if isBreak c then leadingSpace 0 widest (breakText c :: breaks) cs
    else (breaks.reverse, widest, column, c :: cs)

/-- Empty lines and the indentation of the next one: the line ends, the column reached and what
follows. -/
def emptyLines (indent column : Nat) (breaks : List Char) : List Char → List Char × Nat × List Char
  | [] => (breaks.reverse, column, [])
  | c :: cs =>
    if c = ' ' ∧ column < indent then emptyLines indent (column + 1) breaks cs
    else if isBreak c then emptyLines indent 0 (breakText c :: breaks) cs
    else (breaks.reverse, column, c :: cs)

def startsBlank (cs : List Char) : Bool := cs.head?.any fun c => c == ' ' || c == '\t'

/-- The text of the lines of a block and what follows them. `breaks` are the line ends before the
line here, and `ending` the end of the line before those. -/
def blockLines (folded : Bool) (chomping : Chomping) (indent : Nat) :
    Nat → Nat → List Char → List Char → List Char → List Char × List Char
  | fuel, column, breaks, ending, cs =>
    let tail := (if chomping = .strip then [] else ending) ++ if chomping = .keep then breaks else []
    match fuel with
    | 0 => (tail, cs)
    | fuel + 1 =>
      if column ≠ indent ∨ cs.isEmpty then (tail, cs)
      else
        let line := cs.takeWhile (!isBreak ·)
        let rest := cs.dropWhile (!isBreak ·)
        let next := (rest.head?.map breakText).toList
        let (more, column, rest') := emptyLines indent 0 [] rest.tail
        let goesOn := column = indent && !rest'.isEmpty
        let joins := folded && next = ['\n'] && !startsBlank cs && !startsBlank rest'
        let between := if !goesOn then [] else if joins then (if more.isEmpty then [' '] else []) else next
        let (text, rest) := blockLines folded chomping indent fuel column more next rest'
        (breaks ++ line ++ between ++ text, rest)

/-- A block behind its mark, and what follows it. Its lines stand further right than `indent`. -/
def blockText (folded : Bool) (indent : Int) (cs : List Char) : Except Fault (Text × List Char) :=
  let (chomping, width, cs) := blockHeader cs
  if !atSpace cs then .error .malformed
  else
    match behindLine? cs with
    | none => .error .malformed
    | some cs =>
      let least := (max 1 (indent + 1)).toNat
      let (breaks, indent, column, rest) := match width with
        | some n =>
          let indent := least + n - 1
          let (breaks, column, rest) := emptyLines indent 0 [] cs
          (breaks, indent, column, rest)
        | none =>
          let (breaks, widest, column, rest) := leadingSpace 0 0 [] cs
          (breaks, max least widest, column, rest)
      let (text, rest) := blockLines folded chomping indent (rest.length + 1) column breaks [] rest
      .ok (Text.ofChars text, rest)

end SurfaceCoverage.Yaml
