import SurfaceCoverage.Text.Letters
import SurfaceCoverage.Text.Scan
import SurfaceCoverage.MemberList
/-!
# Slot outlets of a template

A `slot` tag is an outlet: its `name` attribute names the slot, an outlet without one is the default
slot, and one whose name is bound to an expression names nothing. Accesses to `$slots` in the
template's expressions name slots too, behind those of all outlets.
-/

namespace SurfaceCoverage.Template

open Scan

/-- The slot without a name. -/
def defaultSlot : Text := "default"

/-- A quotation mark of either kind. -/
def isQuote (p : CodePoint) : Bool := p = '"' || p = '\''

/-- What is left behind a word. -/
def behindWord? (s : String) (t : Text) : Option Text := t.dropStart? s

def dropBlanks (t : Text) : Text := t.dropWhile CodePoint.isBlank

/-- Whether an attribute can begin behind a code point. -/
def attributeBegins (previous : Option CodePoint) : Bool := previous.all CodePoint.isBlank

/-- The attributes of a `slot` tag. -/
def outlet : Pattern CodePoint Text := fun _ t => do
  let rest ← behind? CodePoint.isCaseOf "<slot".toList t
  match rest with
  | [] => none
  | p :: _ =>
    if p.isBlank then
      let (attributes, rest) := rest.span (fun p => p != CodePoint.scalar '>')
      if rest.isEmpty then none else return (attributes, 6 + attributes.length)
    else if (behindWord? ">" rest).isSome then return ([], 6)
    else if (behindWord? "/>" rest).isSome then return ([], 7)
    else none

/-- A `name` attribute bound to an expression. -/
def boundName : Pattern CodePoint Unit := fun previous t => do
  if !attributeBegins previous then none
  let rest ← (behindWord? "v-bind:name" t).or (behindWord? ":name" t)
  let _ ← behindWord? "=" (dropBlanks rest)
  return ((), 1)

/-- The quoted value of a `name` attribute. -/
def staticName : Pattern CodePoint Text := fun previous t => do
  if !attributeBegins previous then none
  let rest ← behindWord? "=" (dropBlanks (← behindWord? "name" t))
  match dropBlanks rest with
  | [] => none
  | quote :: rest =>
    let (value, rest) := rest.span (!isQuote ·)
    if isQuote quote && !value.isEmpty && !rest.isEmpty then return (value, 1) else none

/-- The slot that an outlet with the given attributes stands for. -/
def outletName? (attributes : Text) : Option Text :=
  if (first boundName attributes).isSome then none
  else some ((first staticName attributes).getD defaultSlot)

/-- Code points that can begin the name in an access by a dot. -/
def beginsName (p : CodePoint) : Bool := p.satisfies fun c => c.isAlpha || c == '_' || c == '$'

/-- Code points inside such a name. -/
def continuesName (p : CodePoint) : Bool := p.isWord || p = '$' || p = '-'

/-- An access to a member of `$slots`. -/
def slotAccess : Pattern CodePoint Text := fun _ t => do
  let rest ← behindWord? "$slots" t
  match rest with
  | .scalar '.' :: p :: rest =>
    if beginsName p then
      let name := p :: rest.takeWhile continuesName
      return (name, 7 + name.length)
    else none
  | .scalar '[' :: quote :: rest =>
    let (value, rest) := rest.span (!isQuote ·)
    match rest with
    | q :: .scalar ']' :: _ =>
      if isQuote quote && isQuote q && !value.isEmpty then return (value, 10 + value.length) else none
    | _ => none
  | _ => none

/-- The slots that a template renders. -/
def slotNames (template : Text) : MemberList :=
  MemberList.ofList ((scan outlet template).filterMap outletName? ++ scan slotAccess template)

end SurfaceCoverage.Template
