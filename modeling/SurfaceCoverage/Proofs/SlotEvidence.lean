import SurfaceCoverage.Proofs.ElementContent
import SurfaceCoverage.Proofs.TagAttributes
/-!
# Slots that a template mentions

In a template that is read as it is written (`Markup.Legible`) the mentioned slots are those of the
directives in its words, and the default slot where a directive without a name stands or an element
of a component has content for it (`mem_slots_mentions`).
-/

namespace SurfaceCoverage.Template

open Scan

/-! ## Mentioned slots -/

/-- Tags are read by their names if comments and values hold no opening bracket. -/
theorem names_scan_tag {F : Markup} (hF : F.Unbracketed) :
    (scan tag F.write).map Tag.name = F.openings.map Opening.name := by
  have hreads : ReadsPieces (tag.map Tag.name) (fun _ => []) (fun _ => []) (fun o => [o.name])
      (CodePoint.scalar '<' ∉ ·) fun o => ∀ v ∈ o.values, CodePoint.scalar '<' ∉ v.text := by
    refine (beginsMarkup_tag.map Tag.name).readsPieces fun o slash rest ho => ?_
    have hbetween : CodePoint.scalar '<' ∉ o.between slash := Opening.bracket_notMem_between rfl ho
    obtain ⟨a, n, htag, hlength⟩ := tag_write hbetween rest
    have hmatch : tag.map Tag.name none (o.write slash ++ rest) = some (o.name, n + 1) := by
      rw [Pattern.map, htag]
      rfl
    rw [Opening.write, List.cons_append] at hmatch ⊢
    rw [Opening.write, List.length_cons] at hlength
    exact all_match_within (beginsMarkup_tag.map Tag.name).blind hmatch
      ((beginsMarkup_tag.map Tag.name).avoids_of_notMem (Opening.bracket_notMem_write hbetween))
      (Nat.le_of_succ_le_succ hlength)
  have h := hreads.scan_write hF.comments hF.values
  rw [Markup.collect_opening, ← List.map_eq_flatMap] at h
  rw [← h, scan, scan, all_map]

theorem names_slots_unmodified {sighting : Text → Sighting}
    (h : ∀ name, (sighting name).category ≠ .slots) (name : Text) :
    (unmodified sighting name).names .slots = [] := by
  unfold unmodified
  split
  · rfl
  · simp [Evidence.names, h]

theorem category_inputOrEvent_ne_slots (name : Text) : (inputOrEvent name).category ≠ .slots := by
  unfold inputOrEvent
  split <;> simp

theorem names_slots_modelSightings (directive : Text) : (modelSightings directive).names .slots = [] := by
  unfold modelSightings
  rw [names_append, names_sightings, names_sightings]
  rfl

/-- No attribute of a component mentions a slot by itself. -/
theorem names_slots_attributeSightings (raw : Text) : (attributeSightings raw).names .slots = [] := by
  have hevents : ∀ name, (⟨.events, name⟩ : Sighting).category ≠ .slots := by simp
  unfold attributeSightings
  split
  · rfl
  split
  · exact names_slots_modelSightings raw
  split
  · exact names_slots_unmodified hevents _
  · exact names_slots_unmodified hevents _
  · exact names_slots_unmodified category_inputOrEvent_ne_slots _
  · exact names_slots_unmodified category_inputOrEvent_ne_slots _
  · split
    · rfl
    · exact names_slots_unmodified category_inputOrEvent_ne_slots _

/-- Slots are mentioned by directives and by content of components. -/
theorem names_slots_mentions (components : List Text) (template : Text) :
    (mentions components template).names .slots = scan slotDirective template ++
      if (first bareDirective template).isSome ||
          ((scan tag template).filter (isComponent components ·.name)).any
            (hasDefaultContent template ·.name)
      then [defaultSlot] else [] := by
  have hdefault : ∀ b : Bool, Evidence.names (if b then [⟨.slots, defaultSlot⟩] else []) .slots =
      if b then [defaultSlot] else [] := fun b => by cases b <;> rfl
  unfold mentions
  simp only [names_append, names_flatMap, tagSightings, names_slots_attributeSightings, names_sightings,
    if_true]
  rw [hdefault]
  simp

/-- A template that is read as it is written, given the names of known components. -/
structure Markup.Legible (components : List Text) (F : Markup) : Prop extends F.Unbracketed where
  paired : ∀ o ∈ F.openings, isComponent components o.name = true → F.Paired o.name []

theorem hasDefaultContent_iff {components : List Text} {F : Markup} (hF : F.Legible components)
    {o : Opening} (ho : o ∈ F.openings) (hcomponent : isComponent components o.name = true) :
    hasDefaultContent F.write o.name = true ↔ ∃ e ∈ F.elements, e.1.name = o.name ∧ e.2.fills = true := by
  have htemplate : o.name.lowerAscii ≠ "template" := by
    intro h
    have hplain := (Bool.and_eq_true_iff.1 hcomponent).1
    rw [h] at hplain
    exact absurd hplain (by decide)
  have hany := any_tagContent o.isTagName_name htemplate hF.toUnbracketed (hF.paired o ho hcomponent)
  rw [List.append_nil] at hany
  rw [hasDefaultContent, scan, hany, all, List.any_nil, Bool.or_false, List.any_eq_true]
  simp only [Bool.and_eq_true, decide_eq_true_eq]

theorem mem_openings_of_mem_elements {F : Markup} {e : Opening × Markup} (he : e ∈ F.elements) :
    e.1 ∈ F.openings := by
  induction F with
  | text t => cases he
  | comment b r next ih => exact ih he
  | leaf b o slash next ih => exact List.mem_cons_of_mem o (ih he)
  | element b o children next ihc ih =>
    simp only [Markup.elements, List.mem_cons, List.mem_append] at he
    simp only [Markup.openings, List.mem_cons, List.mem_append]
    rcases he with rfl | he | he
    · exact .inl rfl
    · exact .inr (.inl (ihc he))
    · exact .inr (.inr (ih he))

/-- Content for the default slot is found for a tag of a component if and only if an element of a
component has it. -/
theorem any_hasDefaultContent {components : List Text} {F : Markup} (hF : F.Legible components) :
    ((scan tag F.write).filter (isComponent components ·.name)).any
        (hasDefaultContent F.write ·.name) = true ↔
      ∃ e ∈ F.elements, isComponent components e.1.name = true ∧ e.2.fills = true := by
  have hnames : (∃ t ∈ scan tag F.write, isComponent components t.name = true ∧
      hasDefaultContent F.write t.name = true) ↔ ∃ o ∈ F.openings,
      isComponent components o.name = true ∧ hasDefaultContent F.write o.name = true := by
    have h := congrArg (fun names : List Text => ∃ n ∈ names,
      isComponent components n = true ∧ hasDefaultContent F.write n = true)
      (names_scan_tag hF.toUnbracketed)
    simp only [List.mem_map, exists_exists_and_eq_and] at h
    exact iff_of_eq h
  simp only [List.any_eq_true, List.mem_filter, and_assoc]
  rw [hnames]
  constructor
  · rintro ⟨o, ho, hcomponent, hdefault⟩
    obtain ⟨e, he, hname, hfills⟩ := (hasDefaultContent_iff hF ho hcomponent).1 hdefault
    exact ⟨e, he, hname ▸ hcomponent, hfills⟩
  · rintro ⟨e, he, hcomponent, hfills⟩
    have ho := mem_openings_of_mem_elements he
    exact ⟨e.1, ho, hcomponent, (hasDefaultContent_iff hF ho hcomponent).2 ⟨e, he, rfl, hfills⟩⟩

/-- A template mentions the slots of the directives that stand in its words, and the default slot where
a directive without a name stands or an element of a component has content for it. An attribute that
is a directive mentions its slot. -/
theorem mem_slots_mentions {components : List Text} {F : Markup} (hF : F.Legible components) (x : Text) :
    (x ∈ (mentions components F.write).names .slots ↔ (∃ s ∈ F.words, x ∈ scan slotDirective s) ∨
      x = defaultSlot ∧ (F.HasBare ∨
        ∃ e ∈ F.elements, isComponent components e.1.name = true ∧ e.2.fills = true)) ∧
    ∀ o ∈ F.openings, ∀ a ∈ o.attributes,
      a.name = Text.ofString "#" ++ x ∨ a.name = Text.ofString "v-slot:" ++ x →
      x ≠ [] → (∀ c ∈ x, continuesSlot c = true) → x ∈ (mentions components F.write).names .slots := by
  have hiff : x ∈ (mentions components F.write).names .slots ↔ (∃ s ∈ F.words, x ∈ scan slotDirective s) ∨
      x = defaultSlot ∧ (F.HasBare ∨
        ∃ e ∈ F.elements, isComponent components e.1.name = true ∧ e.2.fills = true) := by
    rw [names_slots_mentions, List.mem_append, readsWords_slotDirective.scan_write, List.mem_flatMap]
    refine or_congr Iff.rfl ?_
    rw [← isSome_first_bareDirective, ← any_hasDefaultContent hF, ← Bool.or_eq_true]
    generalize ((first bareDirective F.write).isSome || _) = found
    cases found <;> simp
  refine ⟨hiff, fun o ho a ha hname hx hslot => hiff.2 (.inl ⟨a.name, ?_, ?_⟩)⟩
  · exact Markup.mem_collect.2 (.inr (.inr ⟨o, ho, List.mem_flatMap.2 ⟨a, ha, List.mem_cons_self⟩⟩))
  · rw [scan_directive hname hx hslot]
    exact List.mem_singleton_self x

/-! ### A component with a named slot and one with content -/

/-- `<Card :size="n || m"> <!-- head --><template #header="{ row }">Hi #1</template>`,
`<Badge v-slot:icon /></Card>` and `<Panel>text</Panel>` behind it. -/
def page : Markup :=
  .element .none
    { name := "Card", attributes := [{ name := ":size", value := some { text := "n || m" } }] }
    (.comment ⟨" ", by decide⟩ ⟨" head ", by decide⟩ <|
      .element .none
        { name := "template", attributes := [{ name := "#header", value := some { text := "{ row }" } }] }
        (.text ⟨"Hi #1", by decide⟩) <|
      .leaf ⟨"\n", by decide⟩
        { name := "Badge", attributes := [{ name := "v-slot:icon" }], space := .one } true <|
      .text .none) <|
  .element .none { name := "Panel", attributes := [] } (.text ⟨"text", by decide⟩) <|
  .text .none

theorem mem_slots_mentions_page :
    page.Legible [] ∧ Text.ofString "header" ∈ (mentions [] page.write).names .slots ∧
      Text.ofString "icon" ∈ (mentions [] page.write).names .slots ∧
      defaultSlot ∈ (mentions [] page.write).names .slots := by
  have hpage : page.Legible [] := ⟨⟨by decide, by decide⟩, by decide⟩
  refine ⟨hpage, (mem_slots_mentions hpage _).1.2 (.inl ?_),
    (mem_slots_mentions hpage _).2 _ (.tail _ (.tail _ (.head _))) _ (.head _) (.inr rfl)
      (by decide) (by decide), (mem_slots_mentions hpage _).1.2 (.inr ⟨rfl, .inr ?_⟩)⟩
  · decide
  · decide

/-! ### Text names a slot -/

/-- `<p>see #42</p>` -/
def reference : Markup :=
  .element .none { name := "p", attributes := [] } (.text ⟨"see #42", by decide⟩)
    (.text .none)

/-- It is not attributes alone that mention slots. -/
theorem not_mentions_attributes_alone : ¬ ∀ (components : List Text) (F : Markup) (x : Text),
    x ∈ (mentions components F.write).names .slots ↔
      (∃ o ∈ F.openings, ∃ a ∈ o.attributes,
        a.name = Text.ofString "#" ++ x ∨ a.name = Text.ofString "v-slot:" ++ x) ∨
      x = defaultSlot ∧ ((∃ o ∈ F.openings, ∃ a ∈ o.attributes, a.name = "v-slot") ∨
        ∃ e ∈ F.elements, isComponent components e.1.name = true ∧ e.2.fills = true) := by
  intro h
  have hmem : Text.ofString "42" ∈ (mentions [] reference.write).names .slots := by decide
  have hnone : ¬ ((∃ o ∈ reference.openings, ∃ a ∈ o.attributes,
      a.name = Text.ofString "#" ++ Text.ofString "42" ∨
        a.name = Text.ofString "v-slot:" ++ Text.ofString "42") ∨
      Text.ofString "42" = defaultSlot) := by
    decide
  rcases (h [] reference _).1 hmem with hdirective | hdefault
  · exact hnone (.inl hdirective)
  · exact hnone (.inr hdefault.1)

end SurfaceCoverage.Template
