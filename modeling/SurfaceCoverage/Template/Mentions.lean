import SurfaceCoverage.Evidence
import SurfaceCoverage.Template.Outlets
/-!
# What a template mentions

Attributes of component tags mention inputs and events. Slot directives anywhere mention slots, and
so does content between the tags of a component, other than named slots and comments.
-/

namespace SurfaceCoverage.Template

open Scan

/-! ## Tags -/

/-- A tag with the text of its attributes. -/
structure Tag where
  name : Text
  attributes : Text

/-- Code points inside the name of a tag. -/
def continuesTag (p : CodePoint) : Bool := p.isWord || p = '.' || p = '-'

def isBracket (p : CodePoint) : Bool := p = '<' || p = '>'

/-- The text of attributes without blanks and a slash at its end; its first blank stays. -/
def trimAttributes : Text → Text
  | [] => []
  | p :: t =>
    let t := t.reverse
    let t := if t.head? = some '/' then t.tail else t
    p :: (t.dropWhile CodePoint.isBlank).reverse

/-- An opening tag: a name and, behind a blank, anything but brackets. -/
def tag : Pattern CodePoint Tag := fun _ t => do
  match t with
  | .scalar '<' :: .scalar c :: rest =>
    if !c.isAlpha then none
    let (more, rest) := rest.span continuesTag
    let name := .scalar c :: more
    match rest with
    | p :: _ =>
      if p.isBlank then
        let (attributes, rest) := rest.span (!isBracket ·)
        if rest.head? = some '>' then
          return (⟨name, trimAttributes attributes⟩, name.length + attributes.length + 2)
        else none
      else if p = '>' then return (⟨name, []⟩, name.length + 2)
      else if (behindWord? "/>" rest).isSome then return (⟨name, []⟩, name.length + 3)
      else none
    | [] => none
  | _ => none

/-- Tags that are no components, whatever their case. -/
def plainTags : List Text := ["template", "slot", "component", "transition", "keep-alive"]

/-- Whether a tag names a component: a known one, or any with a capital at its start or a dash. -/
def isComponent (components : List Text) (name : Text) : Bool :=
  !plainTags.contains name.lowerAscii &&
    (components.contains name || components.contains (camelize name) ||
      name.head?.any CodePoint.isCapital || name.contains '-')

/-! ## Attributes -/

/-- Code points that can begin an attribute. -/
def beginsAttribute (p : CodePoint) : Bool :=
  p.satisfies fun c => c.isAlpha || c == '_' || c == '@' || c == ':' || c == '#'

/-- Code points inside the name of an attribute. -/
def continuesAttribute (p : CodePoint) : Bool :=
  p.isWord || p.satisfies fun c => ":.@#[]-".toList.contains c

/-- The length of a value in the given quotation marks, or without any. -/
def valueLength (t : Text) : Nat :=
  match t with
  | [] => 0
  | q :: rest =>
    if isQuote q then
      let (value, rest) := rest.span (· != q)
      if rest.isEmpty then 0 else value.length + 2
    else (t.takeWhile fun p => !p.isBlank && !isQuote p && p != '>').length

/-- An attribute's name, with the value behind it. -/
def attributeName : Pattern CodePoint Text := fun _ t => do
  match t with
  | [] => none
  | p :: rest =>
    if !beginsAttribute p then none
    let name := p :: rest.takeWhile continuesAttribute
    let behind := rest.dropWhile continuesAttribute
    match dropBlanks behind with
    | .scalar '=' :: value =>
      let start := dropBlanks value
      match valueLength start with
      | 0 => return (name, name.length)
      | n => return (name, t.length - start.length + n)
    | _ => return (name, name.length)

/-- A sighting by a name without its modifiers, if there is something left of it. -/
def unmodified (sighting : Text → Sighting) (name : Text) : Evidence :=
  match name.before '.' with
  | [] => []
  | name => [sighting name]

/-- What an attribute of a component mentions. -/
def attributeSightings (raw : Text) : Evidence :=
  if raw.startsWith "#" || raw.startsWith "v-slot" then []
  else if raw = modelDirective || raw.startsWith "v-model:" then modelSightings raw
  else
    match behindWord? "@" raw, behindWord? "v-on:" raw, behindWord? ":" raw, behindWord? "v-bind:" raw with
    | some event, _, _, _ => unmodified (⟨.events, ·⟩) event
    | none, some event, _, _ => unmodified (⟨.events, ·⟩) event
    | none, none, some name, _ => unmodified inputOrEvent name
    | none, none, none, some name => unmodified inputOrEvent name
    | none, none, none, none => if raw.startsWith "v-" then [] else unmodified inputOrEvent raw

/-- What a component's tag mentions. -/
def tagSightings (t : Tag) : Evidence := (scan attributeName t.attributes).flatMap attributeSightings

/-! ## Slots -/

/-- Code points inside the name of a slot. -/
def continuesSlot (p : CodePoint) : Bool := p.isWord || p = '-'

/-- The slot of a directive. -/
def slotDirective : Pattern CodePoint Text := fun _ t => do
  let rest ← (behindWord? "#" t).or (behindWord? "v-slot:" t)
  let name := rest.takeWhile continuesSlot
  if name.isEmpty then none else return (name, t.length - rest.length + name.length)

/-- A slot directive without a name. -/
def bareDirective : Pattern CodePoint Unit := fun _ t => do
  match t with
  | [] => none
  | p :: rest =>
    if !p.isBlank then none
    let rest ← behindWord? "v-slot" rest
    match rest with
    | [] => none
    | q :: _ =>
      if q.isBlank || q = '>' || q = '/' || q = '=' then return ((), 1) else none

/-- Whether a slot directive stands in the text of attributes. -/
def hasSlotDirective : Text → Bool
  | [] => false
  | p :: t => p = '#' || (behind? CodePoint.isCaseOf "v-slot".toList (p :: t)).isSome || hasSlotDirective t

/-- A `template` tag of a named slot with its content, up to the first closing tag. -/
def namedSlot : Pattern CodePoint Unit := fun _ t => do
  let rest ← behind? CodePoint.isCaseOf "<template".toList t
  let (attributes, rest) := rest.span (fun p => p != CodePoint.scalar '>')
  match attributes with
  | p :: attributes =>
    if !p.isBlank || !hasSlotDirective attributes then none
    let closing := "</template>".toList
    let (_, rest) ← splitWhere? (fun t => (behind? CodePoint.isCaseOf closing t).isSome) [] rest.tail
    return ((), t.length - rest.length + closing.length)
  | [] => none

def comment : Pattern CodePoint Unit := fun _ t => do
  let rest ← behindWord? "<!--" t
  let (_, rest) ← splitWhere? (fun t => (behindWord? "-->" t).isSome) [] rest
  return ((), t.length - rest.length + 3)

/-- The content of a tag of a name, up to the first closing tag. -/
def tagContent (name : Text) : Pattern CodePoint Text := fun _ t => do
  let rest ← Text.dropStart? t (.scalar '<' :: name)
  let rest ← match rest with
    | [] => none
    | p :: _ => some (if p.isBlank then rest.dropWhile (!isBracket ·) else rest)
  let rest ← behindWord? ">" rest
  let closing : Text := Text.ofString "</" ++ name ++ Text.ofString ">"
  let (content, rest) ← splitWhere? (Text.startsWith · closing) [] rest
  return (content, t.length - rest.length + closing.length)

/-- Whether content fills the default slot. -/
def fillsDefault (content : Text) : Bool :=
  !Text.isBlank (remove comment (remove namedSlot content))

/-- Whether some tag of a name has content for the default slot. -/
def hasDefaultContent (template name : Text) : Bool := (scan (tagContent name) template).any fillsDefault

/-- What a template mentions, given the names of known components. -/
def mentions (components : List Text) (template : Text) : Evidence :=
  let tags := (scan tag template).filter (isComponent components ·.name)
  tags.flatMap tagSightings ++
    sightings .slots (scan slotDirective template) ++
    (if (first bareDirective template).isSome || tags.any (hasDefaultContent template ·.name) then
      [⟨.slots, defaultSlot⟩] else [])

end SurfaceCoverage.Template
