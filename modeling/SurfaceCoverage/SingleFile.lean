import SurfaceCoverage.Text.Letters
import SurfaceCoverage.Text.Scan
/-!
# Single-file components

A single-file component holds a template and scripts in tags. The script with a `setup` attribute
is the component's; without one the first script is. A text with neither tag is a script itself,
and a component with a template alone has an empty script. Tag and attribute names match up to
case.
-/

namespace SurfaceCoverage.SingleFile

open Scan

/-- The parts of a component's file. -/
structure Sections where
  script : List Char
  lang : Option (List Char)
  template : Text

/-- A script tag: its attributes and its content. -/
structure Block where
  attributes : List Char
  content : List Char

/-- What is left behind a word, up to case. -/
def behindWord? (s : String) (cs : List Char) : Option (List Char) :=
  behind? Letters.isCaseOf s.toList cs

/-- Whether a word ends before these characters. -/
def wordEnds (cs : List Char) : Bool := cs.head?.all fun c => !Letters.isWord c

/-- Whether a word can begin behind a character. -/
def wordBegins (previous : Option Char) : Bool := previous.all fun c => !Letters.isWord c

/-- The attributes of an opening tag up to its bracket, and what follows the bracket. -/
def attributes? (cs : List Char) : Option (List Char × List Char) :=
  match cs.span (· != '>') with
  | (attributes, _ :: rest) => some (attributes, rest)
  | (_, []) => none

def closesScript (cs : List Char) : Bool := (behindWord? "</script>" cs).isSome

def closesTemplate (cs : List Char) : Bool := (behindWord? "</template>" cs).isSome

/-- A script tag, up to the first closing tag behind it. -/
def scriptBlock : Pattern Char Block := fun _ cs => do
  let rest ← behindWord? "<script" cs
  if !wordEnds rest then none
  let (attributes, rest) ← attributes? rest
  let (content, rest) ← splitWhere? closesScript [] rest
  let closing := "</script>".length
  return (⟨attributes, content⟩, cs.length - rest.length + closing)

/-- The content of a template tag, up to the last closing tag behind it. -/
def templateBlock : Pattern Char (List Char) := fun _ cs => do
  let rest ← behindWord? "<template" cs
  let (_, rest) ← attributes? rest
  let n ← lastWhere? closesTemplate 0 none rest
  return (rest.take n, 1)

/-- The attribute `setup` as a whole word. -/
def setupAttribute : Pattern Char Unit := fun previous cs => do
  if !wordBegins previous then none
  let rest ← behindWord? "setup" cs
  if !wordEnds rest then none
  return ((), 1)

/-- The quoted value of the attribute `lang`: word characters and dashes. -/
def langAttribute : Pattern Char (List Char) := fun previous cs => do
  if !wordBegins previous then none
  let rest := (← behindWord? "lang" cs).dropWhile Letters.isBlank
  match rest with
  | '=' :: rest =>
    match rest.dropWhile Letters.isBlank with
    | quote :: rest =>
      let isQuote c := c == '"' || c == '\''
      let (value, rest) := rest.span fun c => Letters.isWord c || c == '-'
      if isQuote quote && !value.isEmpty && rest.head?.any isQuote then return (value, 1) else none
    | [] => none
  | _ => none

def Block.isSetup (b : Block) : Bool := (first setupAttribute b.attributes).isSome

def Block.lang? (b : Block) : Option (List Char) :=
  (first langAttribute b.attributes).map (·.flatMap Letters.lower)

/-- The parts of a component's file. -/
def split (source : List Char) : Sections :=
  let template := first templateBlock source
  let content := Text.trim (Text.ofChars (template.getD []))
  let blocks := scan scriptBlock source
  match (blocks.find? Block.isSetup).or blocks.head? with
  | some block => ⟨block.content, block.lang?, content⟩
  | none => ⟨if template.isSome then [] else source, none, content⟩

end SurfaceCoverage.SingleFile
