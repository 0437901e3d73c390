import SurfaceCoverage.Surface
/-!
# Evidence

Evidence is what tests mention: names, each under a category. A name written with dashes counts as
the name in camel case, so a member is covered if evidence of its category agrees with it in camel
case. A name such as `onClick` among inputs is evidence of the event `click`.
-/

namespace SurfaceCoverage

/-- A name that a test mentions. -/
structure Sighting where
  category : Category
  name : Text
deriving DecidableEq

/-- What tests mention. -/
abbrev Evidence := List Sighting

namespace Evidence

/-- The names mentioned under a category. -/
def names (e : Evidence) (c : Category) : List Text :=
  (e.filter (·.category = c)).map (·.name)

end Evidence

/-! ## Spellings of names -/

/-- Small ASCII letters and digits. -/
def followsDash (c : Char) : Bool := c.isLower || c.isDigit

/-- A name with each dash before a small letter or a digit left out, and that letter made a
capital. -/
def camelize : Text → Text
  | .scalar '-' :: .scalar c :: t =>
    if followsDash c then .scalar c.toUpper :: camelize t else .scalar '-' :: camelize (.scalar c :: t)
  | p :: t => p :: camelize t
  | [] => []

/-- The event that a handler's name stands for: `on` before a capital ASCII letter or a colon. -/
def handlerEvent? : Text → Option Text
  | .scalar 'o' :: .scalar 'n' :: .scalar c :: t =>
    if c.isUpper ∨ c = ':' then some (.scalar c.toLower :: t) else none
  | _ => none

/-- Sightings of several names under a category. -/
def sightings (c : Category) (names : List Text) : Evidence := names.map (⟨c, ·⟩)

/-- The sighting of an input, or of an event under the name of its handler. -/
def inputOrEvent (name : Text) : Sighting :=
  match handlerEvent? name with
  | some event => ⟨.events, event⟩
  | none => ⟨.inputs, name⟩

/-- The directive that binds an input and the event of its change. -/
def modelDirective : Text := "v-model"

/-- The event of a change of an input. -/
def updateOf (name : Text) : Text := Text.ofString "update:" ++ name

/-- What a model directive mentions: the model after the directive's mark, without modifiers, or
the default models. -/
def modelSightings (directive : Text) : Evidence :=
  let models : List Text := if directive = modelDirective then ["modelValue", "value"]
    else [Text.before (directive.drop 8) '.']
  let models := models.filter (!·.isEmpty)
  sightings .inputs models ++ sightings .events (models.map updateOf)

/-! ## Reports -/

/-- Whether evidence covers a name of a category. -/
def Evidence.covers (e : Evidence) (c : Category) (name : Text) : Bool :=
  (e.names c).any (camelize · = camelize name)

/-- The report on a surface by evidence. -/
def Report.ofEvidence (s : Surface) (e : Evidence) : Report :=
  PerCategory.ofFunction fun c => (s.get c).toList.map fun name => ⟨name, e.covers c name⟩

end SurfaceCoverage
