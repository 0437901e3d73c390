import SurfaceCoverage.Yaml.Scalar
import SurfaceCoverage.Project.Encoding
/-!
# Tokens of documents

Indentation becomes tokens: a collection that begins further right than the one around it begins a
block, and a token further left ends it. A key without a mark of its own is known only by the colon
behind it, so each place where such a key can begin is kept until its line, or 1024 characters, are
over; the colon puts the key's token there, and the start of a block before it. Within brackets
indentation counts for nothing.
-/

namespace SurfaceCoverage.Yaml

inductive Token where
  /-- The version of the format. -/
  | version (major : Nat)
  /-- A handle for the beginning of tags. -/
  | handle (name stem : String)
  /-- A directive without a meaning. -/
  | remark
  | documentStart | documentEnd
  | blockSequence | blockMapping | blockEnd
  | flowSequence | flowSequenceEnd | flowMapping | flowMappingEnd
  | blockEntry | flowEntry | key | value
  | reference (name : String)
  | anchor (name : String)
  | tag (handle : Option String) (suffix : String)
  | scalar (plain : Bool) (text : Text)
deriving DecidableEq

/-! ## Names and tags -/

/-- A name of letters, digits, dashes and underscores, and what follows it. -/
def nameOf (cs : List Char) : Except Fault (String × List Char) :=
  match cs.span isNameChar with
  | ([], _) => .error .malformed
  | (name, rest) => .ok (String.ofList name, rest)

/-- The name of an anchor or a reference behind its mark. -/
def anchorName (cs : List Char) : Except Fault (String × List Char) := do
  let (name, rest) ← nameOf cs
  if atGap rest || rest.head?.any "?:,]\x7d%@".toList.contains || rest.head? = some (Char.ofNat 96) then
    return (name, rest)
  else throw .malformed

/-- Characters of a tag that stand for themselves. -/
def isTagChar (c : Char) : Bool := c.isAlphanum || "-;/?:@&=+$,_.!~*'()[]".toList.contains c

/-- The characters of a tag, those written by their bytes decoded, and what follows. `pending`
holds bytes that are not decoded yet. -/
def tagText (pending : List UInt8) (done : List Char) :
    List Char → Except Fault (List Char × List Char)
  | '%' :: a :: b :: cs =>
    if isHex a && isHex b then tagText (pending ++ [(hexNumber [a, b]).toUInt8]) done cs
    else .error .malformed
  | c :: cs =>
    match Encoding.decodeUtf8 [] pending with
    | none => .error .malformed
    | some decoded =>
      if c = '%' then .error .malformed
      else if isTagChar c then tagText [] (done ++ decoded ++ [c]) cs
      else .ok (done ++ decoded, c :: cs)
  | [] =>
    match Encoding.decodeUtf8 [] pending with
    | some decoded => .ok (done ++ decoded, [])
    | none => .error .malformed

/-- The text of a tag, which may not be empty. -/
def tagSuffix (cs : List Char) : Except Fault (String × List Char) := do
  match ← tagText [] [] cs with
  | ([], _) => throw .malformed
  | (text, rest) => return (String.ofList text, rest)

/-- A handle: exclamation marks around a name, or one alone before a space. -/
def tagHandle (cs : List Char) : Except Fault (String × List Char) :=
  match cs with
  | '!' :: cs =>
    if cs.head? = some ' ' then .ok ("!", cs)
    else
      let (name, rest) := cs.span isNameChar
      if rest.head? = some '!' then .ok ("!" ++ String.ofList name ++ "!", rest.tail)
      else .error .malformed
  | _ => .error .malformed

/-- A tag behind its exclamation mark. -/
def tagOf (cs : List Char) : Except Fault (Token × List Char) := do
  let (token, rest) ← match cs with
    | '<' :: cs => do
      let (suffix, rest) ← tagSuffix cs
      if rest.head? = some '>' then pure (.tag none suffix, rest.tail) else throw .malformed
    | _ =>
      if atGap cs then pure (.tag none "!", cs)
      else do
        let (handle, rest) ←
          if (cs.takeWhile fun c => !(c == ' ' || isBreak c)).contains '!' then tagHandle ('!' :: cs)
          else pure ("!", cs)
        let (suffix, rest) ← tagSuffix rest
        pure (Token.tag (some handle) suffix, rest)
  if atSpace rest then return (token, rest) else throw .malformed

/-! ## Directives -/

def numberOf (cs : List Char) : Except Fault (Nat × List Char) :=
  match cs.span Char.isDigit with
  | ([], _) => .error .malformed
  | (digits, rest) => .ok (digits.foldl (fun n c => 10 * n + (c.toNat - 48)) 0, rest)

def skipSpaces (cs : List Char) : List Char := cs.dropWhile (· == ' ')

/-- The version in a directive. -/
def versionOf (cs : List Char) : Except Fault (Token × List Char) := do
  let (major, rest) ← numberOf (skipSpaces cs)
  if rest.head? ≠ some '.' then throw .malformed
  let (_, rest) ← numberOf rest.tail
  if atSpace rest then return (.version major, rest) else throw .malformed

/-- The handle in a directive, and the beginning of tags that it stands for. -/
def handleOf (cs : List Char) : Except Fault (Token × List Char) := do
  let (name, rest) ← tagHandle (skipSpaces cs)
  if rest.head? ≠ some ' ' then throw .malformed
  let (stem, rest) ← tagSuffix (skipSpaces rest)
  if atSpace rest then return (.handle name stem, rest) else throw .malformed

/-- A directive behind its mark, to the end of its line. -/
def directiveOf (cs : List Char) : Except Fault (Token × List Char) := do
  let (name, rest) ← nameOf cs
  if !atSpace rest then throw .malformed
  let (token, rest) ←
    if name = "YAML" then versionOf rest
    else if name = "TAG" then handleOf rest
    else pure (.remark, rest.dropWhile (!isBreak ·))
  match behindLine? rest with
  | some rest => return (token, rest)
  | none => throw .malformed

/-! ## Lexers -/

/-- A place in a document. -/
structure Position where
  index : Nat := 0
  line : Nat := 0
  column : Nat := 0

/-- The place behind some characters; a byte order mark takes no column. -/
def Position.after (p : Position) (cs : List Char) : Position :=
  cs.foldl (fun p c =>
    if isBreak c then ⟨p.index + 1, p.line + 1, 0⟩
    else if c.toNat = 0xfeff then { p with index := p.index + 1 }
    else { p with index := p.index + 1, column := p.column + 1 }) p

/-- A place where a key without a mark can begin: its depth of brackets, the number of tokens
before it, and whether nothing but a key may stand there. -/
structure KeyPlace where
  depth : Nat
  tokens : Nat
  required : Bool
  position : Position

/-- The characters left and where they stand, the tokens so far, the depth of brackets, the
indentation of the block here and of those around it, and the places of keys. -/
structure Lexer where
  rest : List Char
  position : Position := {}
  tokens : Array Token := #[]
  depth : Nat := 0
  indent : Int := -1
  around : List Int := []
  keyAllowed : Bool := true
  keys : List KeyPlace := []

namespace Lexer

def emit (l : Lexer) (t : Token) : Lexer := { l with tokens := l.tokens.push t }

/-- Puts a token behind the first `n`. -/
def insert (l : Lexer) (n : Nat) (t : Token) : Lexer :=
  { l with tokens := (l.tokens.extract 0 n).push t ++ l.tokens.extract n l.tokens.size }

/-- Goes on to the given characters, which are an end of those left. -/
def moveTo (l : Lexer) (rest : List Char) : Lexer :=
  { l with rest, position := l.position.after (l.rest.take (l.rest.length - rest.length)) }

/-- A token of a number of characters. -/
def take (l : Lexer) (n : Nat) (t : Token) : Lexer := (l.emit t).moveTo (l.rest.drop n)

/-- The rest behind spaces, line ends and comments, and whether a line ended. -/
def behindSpace (comment broken : Bool) : List Char → Bool × List Char
  | [] => (broken, [])
  | c :: cs =>
    if isBreak c then behindSpace false true cs
    else if comment then behindSpace true broken cs
    else if c = ' ' then behindSpace false broken cs
    else if c = '#' then behindSpace true broken cs
    else (broken, c :: cs)

/-- Goes on to the next token; a new line outside of brackets can begin a key. -/
def skipSpace (l : Lexer) : Lexer :=
  let start := if l.position.index = 0 ∧ l.rest.head? = some (Char.ofNat 0xfeff) then l.rest.tail else l.rest
  let (broken, rest) := behindSpace false false start
  { l.moveTo rest with keyAllowed := l.keyAllowed || (broken && l.depth == 0) }

/-- Gives up the places of keys that are too far back; one where a key must stand is a fault. -/
def dropStale (l : Lexer) : Except Fault Lexer :=
  let stale (k : KeyPlace) :=
    k.position.line != l.position.line || k.position.index + 1024 < l.position.index
  if l.keys.any fun k => stale k && k.required then .error .malformed
  else .ok { l with keys := l.keys.filter (!stale ·) }

/-- Gives up the place of a key at the depth here. -/
def dropKey (l : Lexer) : Except Fault Lexer :=
  if l.keys.any fun k => k.depth == l.depth && k.required then .error .malformed
  else .ok { l with keys := l.keys.filter (·.depth != l.depth) }

/-- Keeps the place here if a key can begin. -/
def keepKey (l : Lexer) : Except Fault Lexer :=
  if l.keyAllowed then do
    let l ← l.dropKey
    let required := l.depth == 0 && l.indent == l.position.column
    return { l with keys := ⟨l.depth, l.tokens.size, required, l.position⟩ :: l.keys }
  else .ok l

/-- Ends the blocks that stand further right than a column. -/
def unwind (l : Lexer) (column : Int) : Lexer :=
  if l.depth ≠ 0 then l
  else
    let open_ := (l.indent :: l.around).dropWhile (column < ·)
    let ended := (l.indent :: l.around).length - open_.length
    { l with
      indent := open_.head?.getD (-1)
      around := open_.tail
      tokens := l.tokens ++ Array.replicate ended Token.blockEnd }

/-- Begins a block at a column further right than the block here, before the first `n` tokens'
successors. -/
def beginBlock (l : Lexer) (column : Nat) (n : Nat) (t : Token) : Lexer :=
  if l.depth = 0 ∧ l.indent < column then
    { l.insert n t with indent := column, around := l.indent :: l.around }
  else l

/-- Ends every block and gives up the key here, for a directive or a mark between documents. -/
def endDocument (l : Lexer) : Except Fault Lexer := do
  let l ← (l.unwind (-1)).dropKey
  return { l with keyAllowed := false }

def openFlow (l : Lexer) (t : Token) : Except Fault Lexer := do
  let l ← l.keepKey
  return { l.take 1 t with depth := l.depth + 1, keyAllowed := true }

def closeFlow (l : Lexer) (t : Token) : Except Fault Lexer := do
  if l.depth = 0 then throw .malformed
  let l ← l.dropKey
  return { l.take 1 t with depth := l.depth - 1, keyAllowed := false }

def flowEntry (l : Lexer) : Except Fault Lexer := do
  let l ← l.dropKey
  return { l.take 1 .flowEntry with keyAllowed := true }

/-- A mark that can begin a block, if a key could stand here. -/
def blockMark (l : Lexer) (block mark : Token) : Except Fault Lexer := do
  if l.depth = 0 ∧ !l.keyAllowed then throw .malformed
  let l ← (l.beginBlock l.position.column l.tokens.size block).dropKey
  return { l.take 1 mark with keyAllowed := mark == .blockEntry || l.depth == 0 }

/-- The colon behind a key, or before a value whose key has a mark of its own. -/
def valueMark (l : Lexer) : Except Fault Lexer :=
  match l.keys.find? (·.depth == l.depth) with
  | some k =>
    let l := { l with keys := l.keys.filter (·.depth != l.depth), keyAllowed := false }
    let l := (l.insert k.tokens .key).beginBlock k.position.column k.tokens .blockMapping
    .ok (l.take 1 .value)
  | none => l.blockMark .blockMapping .value

/-- A scalar or a property of a node, where a key can begin. -/
def content (l : Lexer) (read : Except Fault (Token × List Char)) : Except Fault Lexer := do
  let l ← l.keepKey
  let (t, rest) ← read
  return { (l.emit t).moveTo rest with keyAllowed := false }

def quotedScalar (l : Lexer) (double : Bool) : Except Fault Lexer :=
  l.content do
    let (text, rest) ← quotedText double .none [] 0 l.rest.tail
    return (.scalar false text, rest)

def plainScalar (l : Lexer) : Except Fault Lexer := do
  let (text, rest, broken) :=
    plainText (l.depth != 0) (l.indent + 1) l.position.column .none [] l.rest
  let l ← l.content (.ok (.scalar true text, rest))
  return { l with keyAllowed := broken }

def blockScalar (l : Lexer) (folded : Bool) : Except Fault Lexer := do
  let l ← l.dropKey
  let (text, rest) ← blockText folded l.indent l.rest.tail
  return { (l.emit (.scalar false text)).moveTo rest with keyAllowed := true }

/-- Whether a plain text can begin here. -/
def startsPlain (l : Lexer) (c : Char) (cs : List Char) : Bool :=
  if c = '-' then !atGap cs
  else if c = '?' ∨ c = ':' then l.depth == 0 && !atGap cs
  else !(" \t,[]\x7b\x7d#&*!|>'\"%@".toList.contains c || c.toNat == 96 || isBreak c)

/-- The token that begins with the character here. -/
def next (l : Lexer) (c : Char) (cs : List Char) : Except Fault Lexer :=
  let atStart := l.position.column == 0
  let marksHere := l.depth != 0 || atGap cs
  if c = '%' ∧ atStart then do
    let l ← l.endDocument
    let (t, rest) ← directiveOf cs
    return (l.emit t).moveTo rest
  else if atStart && atMarker '-' (c :: cs) then return (← l.endDocument).take 3 .documentStart
  else if atStart && atMarker '.' (c :: cs) then return (← l.endDocument).take 3 .documentEnd
  else if c = '[' then l.openFlow .flowSequence
  else if c = '\x7b' then l.openFlow .flowMapping
  else if c = ']' then l.closeFlow .flowSequenceEnd
  else if c = '\x7d' then l.closeFlow .flowMappingEnd
  else if c = ',' then l.flowEntry
  else if c = '-' && atGap cs then l.blockMark .blockSequence .blockEntry
  else if c = '?' && marksHere then l.blockMark .blockMapping .key
  else if c = ':' && marksHere then l.valueMark
  else if c = '*' then l.content ((anchorName cs).map fun (name, rest) => (.reference name, rest))
  else if c = '&' then l.content ((anchorName cs).map fun (name, rest) => (.anchor name, rest))
  else if c = '!' then l.content (tagOf cs)
  else if c = '|' && l.depth == 0 then l.blockScalar false
  else if c = '>' && l.depth == 0 then l.blockScalar true
  else if c = '\'' then l.quotedScalar false
  else if c = '"' then l.quotedScalar true
  else if l.startsPlain c cs then l.plainScalar
  else .error .malformed

/-- All tokens from here on; every round takes a character. -/
def run (l : Lexer) : Except Fault (List Token) :=
  match (l.skipSpace).dropStale with
  | .error f => .error f
  | .ok m =>
    let m := m.unwind m.position.column
    match m.rest with
    | [] => do
      let m ← m.endDocument
      return m.tokens.toList
    | c :: cs =>
      match m.next c cs with
      | .error f => .error f
      | .ok n => if n.rest.length < l.rest.length then run n else .error .malformed
termination_by l.rest.length

end Lexer

/-- The tokens of a document. -/
def tokens (cs : List Char) : Except Fault (List Token) :=
  if cs.all isAllowed then Lexer.run { rest := cs } else .error .malformed

end SurfaceCoverage.Yaml
