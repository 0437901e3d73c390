import Mathlib
import SurfaceCoverage.Proofs.Pieces
import SurfaceCoverage.Proofs.TagAttributes
/-!
# Modifiers

What stands behind the first dot of an attribute's name are its modifiers. No prefix by which a kind of
attribute is told reaches across a dot, and each kind cuts its name there, so a template with
modifiers added to its attributes mentions the same inputs and events. Only the model directive
without a name is told by its whole text: with a modifier it mentions nothing.
-/

namespace SurfaceCoverage.Template

open Scan

/-! ## One name -/

/-- What is written behind a name for a sequence of modifiers. -/
def modifiers (ms : List Text) : Text := ms.flatMap (.scalar '.' :: ·)

section
variable {raw : Text}

theorem append_dot_ne {w : Text} (hw : CodePoint.scalar '.' ∉ w) (rest : Text) :
    raw ++ .scalar '.' :: rest ≠ w := by
  rintro rfl
  exact hw (by simp)

theorem startsWith_append_dot {w : Text} (hw : CodePoint.scalar '.' ∉ w) (rest : Text) :
    (raw ++ .scalar '.' :: rest).startsWith w = raw.startsWith w := by
  simp [Text.startsWith, Text.dropStart?_append_cons hw]

theorem behindWord?_append_dot {w : String} (hw : CodePoint.scalar '.' ∉ Text.ofString w) (rest : Text) :
    behindWord? w (raw ++ .scalar '.' :: rest) = (behindWord? w raw).map (· ++ .scalar '.' :: rest) :=
  Text.dropStart?_append_cons hw raw rest

theorem unmodified_append_dot (sighting : Text → Sighting) (rest : Text) :
    unmodified sighting (raw ++ .scalar '.' :: rest) = unmodified sighting raw := by
  have hbefore : Text.before (raw ++ .scalar '.' :: rest) '.' = Text.before raw '.' :=
    takeWhile_append_cons (by simp) raw rest
  simp only [unmodified, hbefore]

/-- A model directive with a name ends its name at the first dot. -/
theorem modelSightings_append_dot (hnamed : raw.startsWith "v-model:" = true) (rest : Text) :
    modelSightings (raw ++ .scalar '.' :: rest) = modelSightings raw := by
  obtain ⟨name, rfl⟩ := Text.startsWith_iff.1 hnamed
  have hne : ∀ s : Text, Text.ofString "v-model:" ++ s ≠ modelDirective := by
    intro s h
    have hlength := congrArg List.length h
    rw [List.length_append] at hlength
    have : (Text.ofString "v-model:").length = 8 := by decide
    have : modelDirective.length = 7 := by decide
    omega
  have hdrop : ∀ s : Text, (Text.ofString "v-model:" ++ s).drop 8 = s := fun s => List.drop_left' rfl
  have hbefore : Text.before (name ++ .scalar '.' :: rest) '.' = Text.before name '.' :=
    takeWhile_append_cons (by simp) name rest
  rw [List.append_assoc]
  simp only [modelSightings, hne, hdrop, hbefore, if_false]

/-- What stands behind a dot changes nothing about an attribute, except for the model directive
without a name. -/
theorem attributeSightings_append_dot (hmodel : raw ≠ modelDirective) (rest : Text) :
    attributeSightings (raw ++ .scalar '.' :: rest) = attributeSightings raw := by
  have hstarts : ∀ w : String, CodePoint.scalar '.' ∉ Text.ofString w →
      (raw ++ .scalar '.' :: rest).startsWith w = raw.startsWith w := fun w hw => startsWith_append_dot hw rest
  have hne : raw ++ .scalar '.' :: rest ≠ modelDirective := append_dot_ne (by decide) rest
  unfold attributeSightings
  rw [hstarts "#" (by decide), hstarts "v-slot" (by decide), hstarts "v-model:" (by decide),
    hstarts "v-" (by decide)]
  by_cases hslot : (raw.startsWith "#" || raw.startsWith "v-slot") = true
  · rw [if_pos hslot, if_pos hslot]
  rw [if_neg hslot, if_neg hslot]
  by_cases hnamed : raw.startsWith "v-model:" = true
  · simp only [hnamed, Bool.or_true, if_true]
    exact modelSightings_append_dot hnamed rest
  simp only [hne, hmodel, hnamed, decide_false, Bool.or_self, Bool.false_eq_true, if_false]
  rw [behindWord?_append_dot (by decide), behindWord?_append_dot (by decide),
    behindWord?_append_dot (by decide), behindWord?_append_dot (by decide)]
  -- the first prefix that fits decides, with the modifiers still behind what it leaves
  cases behindWord? "@" raw with
  | some event => exact unmodified_append_dot _ rest
  | none =>
    cases behindWord? "v-on:" raw with
    | some event => exact unmodified_append_dot _ rest
    | none =>
      cases behindWord? ":" raw with
      | some name => exact unmodified_append_dot _ rest
      | none =>
        cases behindWord? "v-bind:" raw with
        | some name => exact unmodified_append_dot _ rest
        | none => simp only [Option.map_none, unmodified_append_dot]

end

/-- The model directive without a name mentions nothing if it has modifiers. -/
theorem attributeSightings_modelDirective_dot (rest : Text) :
    attributeSightings (modelDirective ++ .scalar '.' :: rest) = [] := by
  have hne : modelDirective ++ .scalar '.' :: rest ≠ modelDirective := append_dot_ne (by decide) rest
  unfold attributeSightings
  rw [startsWith_append_dot (by decide), startsWith_append_dot (by decide),
    startsWith_append_dot (by decide), startsWith_append_dot (by decide)]
  rw [behindWord?_append_dot (by decide), behindWord?_append_dot (by decide),
    behindWord?_append_dot (by decide), behindWord?_append_dot (by decide)]
  simp only [hne, decide_false]
  rfl

/-! ## All tags -/

/-- A template whose tags are read whole, with all their attributes. -/
structure Markup.Plain (F : Markup) : Prop where
  comments : ∀ r ∈ F.comments, CodePoint.scalar '<' ∉ r
  accepted : ∀ o ∈ F.openings, ∀ a ∈ o.attributes, a.isAccepted = true
  values : ∀ o ∈ F.openings, ∀ v ∈ o.values, ∀ p ∈ v.text, isBracket p = false

/-- Tags are read one by one, with their attributes. -/
theorem map_scan_tag {F : Markup} (hF : F.Plain) :
    (scan tag F.write).map (fun t => (t.name, scan attributeName t.attributes)) =
      F.openings.map fun o => (o.name, o.attributes.map Attribute.name) := by
  have hp := beginsMarkup_tag.map fun t => (t.name, scan attributeName t.attributes)
  have hreads : ReadsPieces (tag.map fun t => (t.name, scan attributeName t.attributes))
      (fun _ => []) (fun _ => []) (fun o => [(o.name, o.attributes.map Attribute.name)])
      (CodePoint.scalar '<' ∉ ·) fun o => (∀ a ∈ o.attributes, a.isAccepted = true) ∧
        ∀ v ∈ o.values, ∀ p ∈ v.text, isBracket p = false := by
    refine hp.readsPieces fun o slash rest ho => ?_
    obtain ⟨t, htag, hscan⟩ := tag_attributes ho.1 ho.2 slash rest
    refine all_match hp.blind (o.write_ne_nil slash) ?_
    rw [Pattern.map, htag, Option.map_some, hscan]
  have h := hreads.scan_write hF.comments fun o ho => ⟨hF.accepted o ho, hF.values o ho⟩
  rw [Markup.collect_opening, ← List.map_eq_flatMap] at h
  rw [← h, scan, scan, all_map]

/-- Besides slots a template mentions what the attributes of its components' tags mention one by one. -/
theorem names_mentions_write {F : Markup} (hF : F.Plain) (components : List Text) {c : Category}
    (hc : c ≠ .slots) : (mentions components F.write).names c =
      (F.openings.filter (isComponent components ·.name)).flatMap fun o =>
        o.attributes.flatMap fun a => (attributeSightings a.name).names c := by
  have h := congrArg (fun tags : List (Text × List Text) =>
    (tags.filter (isComponent components ·.1)).flatMap fun t =>
      t.2.flatMap fun raw => (attributeSightings raw).names c) (map_scan_tag hF)
  simp only [List.filter_map, List.flatMap_map, Function.comp_def] at h
  rw [names_mentions hc]
  exact h

/-! ## Templates with more modifiers -/

/-- An attribute with another whose name has modifiers behind it. -/
def Attribute.Modified (a b : Attribute) : Prop :=
  a.name ≠ modelDirective ∧ ∃ ms, b.name = a.name ++ modifiers ms

/-- A tag with another of the same name, whose attributes have the same names but for modifiers. -/
def Opening.Modified (o o' : Opening) : Prop :=
  o'.name = o.name ∧
    List.Forall₂ (fun a b : Attribute => b.name = a.name ∨ a.Modified b) o.attributes o'.attributes

theorem Attribute.Modified.attributeSightings_eq {a b : Attribute} (h : a.Modified b) :
    attributeSightings b.name = attributeSightings a.name := by
  obtain ⟨hmodel, ms, hname⟩ := h
  rw [hname]
  cases ms with
  | nil => simp [modifiers]
  | cons m ms => exact attributeSightings_append_dot hmodel (m ++ modifiers ms)

theorem Attribute.flatMap_attributeSightings_eq {as bs : List Attribute} {c : Category}
    (h : List.Forall₂ (fun a b : Attribute => b.name = a.name ∨ a.Modified b) as bs) :
    bs.flatMap (fun b => (attributeSightings b.name).names c) =
      as.flatMap fun a => (attributeSightings a.name).names c := by
  induction h with
  | nil => rfl
  | @cons a b as bs hab _ ih =>
    have hsame : attributeSightings b.name = attributeSightings a.name := by
      rcases hab with hname | hmodified
      · rw [hname]
      · exact hmodified.attributeSightings_eq
    rw [List.flatMap_cons, List.flatMap_cons, hsame, ih]

/-- Inputs and events do not depend on modifiers: two templates whose tags have the same names and
attributes but for modifiers mention the same, if the model directive without a name is left alone. -/
theorem modifiers_mention_nothing {F F' : Markup} (hF : F.Plain) (hF' : F'.Plain)
    (h : List.Forall₂ Opening.Modified F.openings F'.openings) (components : List Text) {c : Category}
    (hc : c = .inputs ∨ c = .events) :
    (mentions components F'.write).names c = (mentions components F.write).names c := by
  have hslots : c ≠ .slots := by
    rcases hc with rfl | rfl <;> decide
  rw [names_mentions_write hF components hslots, names_mentions_write hF' components hslots]
  generalize F.openings = os at h
  generalize F'.openings = os' at h
  induction h with
  | nil => rfl
  | @cons o o' os os' ho _ ih =>
    obtain ⟨hname, hattributes⟩ := ho
    rw [List.filter_cons, List.filter_cons, hname]
    by_cases hcomponent : isComponent components o.name = true
    · rw [if_pos hcomponent, if_pos hcomponent, List.flatMap_cons, List.flatMap_cons, ih,
        Attribute.flatMap_attributeSightings_eq hattributes]
    · rw [if_neg hcomponent, if_neg hcomponent]
      exact ih

/-! ### A field in a form -/

/-- `<Form><Field :value="v" @input="save" v-model:width="w" v-model="x" v-focus /></Form>`, with each
name followed by what is given for it. -/
def form (value input width focus : Attribute) : Markup :=
  .element .none { name := "Form", attributes := [] }
    (.leaf .none
      { name := "Field"
        attributes := [value, input, width, { name := "v-model", value := some { text := "x" } }, focus]
        space := .one } true <| .text .none) <|
  .text .none

def plainForm : Markup :=
  form { name := ":value", value := some { text := "v" } } { name := "@input", value := some { text := "save" } }
    { name := "v-model:width", value := some { text := "w" } } { name := "v-focus" }

def modifiedForm : Markup :=
  form { name := ":value.camel", value := some { text := "v" } }
    { name := "@input.once.prevent", value := some { text := "save" } }
    { name := "v-model:width.number", value := some { text := "w" } } { name := "v-focus.lazy" }

theorem modifiers_mention_nothing_form :
    plainForm.Plain ∧ modifiedForm.Plain ∧
      List.Forall₂ Opening.Modified plainForm.openings modifiedForm.openings ∧
      (mentions [] modifiedForm.write).names .events = (mentions [] plainForm.write).names .events ∧
      (mentions [] plainForm.write).names .events =
        [("input" : Text), ("update:width" : Text), ("update:modelValue" : Text), ("update:value" : Text)] := by
  have hplain : plainForm.Plain := ⟨by decide, by decide, by decide⟩
  have hmodified : modifiedForm.Plain := ⟨by decide, by decide, by decide⟩
  have hopenings : List.Forall₂ Opening.Modified plainForm.openings modifiedForm.openings := by
    refine .cons ⟨rfl, .nil⟩ (.cons ⟨rfl, ?_⟩ .nil)
    refine .cons (.inr ⟨by decide, ["camel"], rfl⟩)
      (.cons (.inr ⟨by decide, ["once", "prevent"], rfl⟩)
        (.cons (.inr ⟨by decide, ["number"], rfl⟩)
          (.cons (.inl rfl) (.cons (.inr ⟨by decide, ["lazy"], rfl⟩) .nil))))
  exact ⟨hplain, hmodified, hopenings,
    modifiers_mention_nothing hplain hmodified hopenings [] (.inr rfl), by decide⟩

/-- A modifier hides the model directive. -/
example : (mentions [] "<Field v-model.trim=\"x\"/>").names .inputs = [] ∧
    (mentions [] "<Field v-model=\"x\"/>").names .inputs = [("modelValue" : Text), ("value" : Text)] := by
  decide

end SurfaceCoverage.Template
