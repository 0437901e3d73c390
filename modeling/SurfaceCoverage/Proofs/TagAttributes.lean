import SurfaceCoverage.Proofs.Markup
/-!
# Attributes of a component's tag

A tag whose values hold no brackets is read whole, and its attributes are read one by one: each gives
its name, whatever its value is and whatever stands beside it (`scan_attributeName`). So what a
component's tag mentions is what its attributes mention one by one, and values mention nothing.
-/

namespace SurfaceCoverage

namespace Template

open Scan

/-! ## One attribute -/

namespace Attribute

/-- Whether the name of an attribute can be read. -/
def isAccepted (a : Attribute) : Bool :=
  match a.name with
  | p :: t => beginsAttribute p && t.all continuesAttribute
  | [] => false

theorem exists_of_isAccepted {a : Attribute} (h : a.isAccepted = true) :
    ∃ p t, a.name = p :: t ∧ beginsAttribute p = true ∧ ∀ q ∈ t, continuesAttribute q = true := by
  unfold isAccepted at h
  split at h
  · simp only [Bool.and_eq_true, List.all_eq_true] at h
    exact ⟨_, _, ‹_›, h.1, h.2⟩
  · cases h

/-- An attribute without its value. -/
def bare (a : Attribute) : Attribute := { a with value := none }

end Attribute

theorem valueLength_quoted {q : CodePoint} {t : Text} (hq : isQuote q = true) (ht : q ∉ t)
    (rest : Text) : valueLength (q :: (t ++ q :: rest)) = t.length + 2 := by
  have hspan : (t ++ q :: rest).span (· != q) = (t, q :: rest) := by
    refine span_append (fun p hp => ?_) fun p hp => ?_
    · simpa using fun e : p = q => ht (e ▸ hp)
    · cases hp
      simp
  simp only [valueLength, hq, if_true, hspan]
  rfl

/-- An attribute is read by its name, its value with it, if what follows does not go on with it. -/
theorem attributeName_write {a : Attribute} (ha : a.isAccepted = true) {rest : Text}
    (hr : ∀ p ∈ rest.head?, delimits p = true)
    (he : (dropBlanks rest).head? ≠ some (.scalar '=')) :
    attributeName none (a.name ++ (a.assigned ++ rest)) =
      some (a.name, a.name.length + a.assigned.length) := by
  obtain ⟨p, t, hname, hp, ht⟩ := Attribute.exists_of_isAccepted ha
  have hstop := fun c hc => continuesAttribute_of_delimits (a.delimits_head_assigned hr c hc)
  rw [hname, List.cons_append]
  unfold attributeName
  simp only [hp, takeWhile_append ht hstop, dropWhile_append ht hstop, Bool.not_true,
    Bool.false_eq_true, if_false]
  unfold Attribute.assigned
  cases hv : a.value with
  | none =>
    simp only [Option.map_none, Option.getD_none, List.nil_append]
    split
    · rename_i h
      rw [h] at he
      exact absurd rfl he
    · rfl
  | some v =>
    have hquote := not_isBlank_of_isQuote v.quote.isQuote_mark
    have hequals : dropBlanks (v.write ++ rest) =
        .scalar '=' :: (v.after.val ++ v.quote.mark :: (v.text ++ [v.quote.mark]) ++ rest) := by
      rw [Value.write, List.append_assoc, dropBlanks_append v.before.property, List.cons_append,
        dropBlanks_cons rfl]
    have hvalue : dropBlanks (v.after.val ++ v.quote.mark :: (v.text ++ [v.quote.mark]) ++ rest) =
        v.quote.mark :: (v.text ++ v.quote.mark :: rest) := by
      rw [List.append_assoc, dropBlanks_append v.after.property, List.cons_append,
        dropBlanks_cons hquote, List.append_assoc, List.singleton_append]
    have hlength : v.write.length = v.before.val.length + v.after.val.length + v.text.length + 3 := by
      simp only [Value.write, List.length_append, List.length_cons, List.length_nil]
      omega
    simp only [Option.map_some, Option.getD_some, hequals, hvalue,
      valueLength_quoted v.quote.isQuote_mark v.quote_notMem, List.length_cons, List.length_append, hlength]
    refine congrArg some (Prod.ext rfl ?_)
    simp only
    omega

/-! ## All attributes -/

theorem blind_attributeName : Blind attributeName := fun _ _ => rfl

theorem attributeName_avoids {p : CodePoint} (hp : p.isBlank = true) : attributeName.Avoids p := by
  have hb : beginsAttribute p = false := by
    cases p with
    | surrogate i => cases hp
    | scalar c =>
      refine Letters.forall_blank (P := fun c => beginsAttribute (.scalar c) = false) ?_ hp
      decide
  intro as
  unfold attributeName
  simp only [hb]
  rfl

/-- The names of attributes are read one by one. -/
theorem scan_attributeName {as : List Attribute} (h : ∀ a ∈ as, a.isAccepted = true) :
    scan attributeName (as.flatMap Attribute.write) = as.map Attribute.name := by
  unfold scan
  induction as with
  | nil => rfl
  | cons a as ih =>
    have hstop : ∀ c ∈ (as.flatMap Attribute.write).head?, delimits c = true := by
      rw [← List.append_nil (as.flatMap Attribute.write)]
      exact delimits_head_attributes as fun c hc => by cases hc
    have hequals : (dropBlanks (as.flatMap Attribute.write)).head? ≠ some (.scalar '=') := by
      rw [← List.append_nil (as.flatMap Attribute.write)]
      exact equals_notBehind_attributes as (by simp [dropBlanks])
    have hread := attributeName_write (h a List.mem_cons_self) hstop hequals
    rw [List.flatMap_cons, Attribute.write, List.append_assoc, List.append_assoc,
      all_pass blind_attributeName (fun q hq => attributeName_avoids (a.gap.property.2 q hq))
        (Nat.zero_le _)]
    rw [← List.append_assoc, ← List.length_append] at hread
    -- the blanks are passed by, then the name is taken with its value
    rw [← List.append_assoc, all_match blind_attributeName
      (List.append_ne_nil_of_left_ne_nil a.name_ne_nil _) hread,
      ih fun b hb => h b (List.mem_cons_of_mem a hb), List.map_cons]

/-- The text of attributes does not end with a blank or a slash. -/
theorem last_of_attributes (as : List Attribute) :
    ∀ q ∈ (as.flatMap Attribute.write).getLast?, q.isBlank = false ∧ q ≠ .scalar '/' := by
  induction as with
  | nil => exact fun q hq => by (cases hq)
  | cons a as ih =>
    intro q hq
    rw [List.flatMap_cons, List.getLast?_append] at hq
    cases hrest : (as.flatMap Attribute.write).getLast? with
    | some r =>
      rw [hrest] at hq
      cases hq
      exact ih q hrest
    | none =>
      rw [hrest, Option.none_or, Attribute.write, List.getLast?_append] at hq
      unfold Attribute.assigned at hq
      cases hv : a.value with
      | none =>
        rw [hv, Option.map_none, Option.getD_none, List.getLast?_nil, Option.none_or,
          List.getLast?_append_of_ne_nil _ a.name_ne_nil] at hq
        have hq := a.not_delimits_name q (List.mem_of_getLast? hq)
        exact ⟨not_isBlank_of_delimits hq, fun h => by rw [h] at hq; exact absurd hq (by decide)⟩
      | some v =>
        have hlast : v.write.getLast? = some v.quote.mark := by
          have hwrite : v.write =
              v.before.val ++ .scalar '=' :: (v.after.val ++ v.quote.mark :: v.text) ++ [v.quote.mark] := by
            simp [Value.write]
          rw [hwrite, List.getLast?_concat]
        rw [hv, Option.map_some, Option.getD_some, hlast] at hq
        cases hq
        refine ⟨not_isBlank_of_isQuote v.quote.isQuote_mark, fun h => ?_⟩
        have hquote := v.quote.isQuote_mark
        rw [h] at hquote
        exact absurd hquote (by decide)

/-- Blanks and a slash behind the last attribute are no part of the attributes. -/
theorem trimAttributes_append (p : CodePoint) {s space : Text}
    (hs : ∀ q ∈ s.getLast?, q.isBlank = false ∧ q ≠ .scalar '/')
    (hspace : ∀ q ∈ space, q.isBlank = true) (slash : Bool) :
    trimAttributes (p :: (s ++ (space ++ if slash then [.scalar '/'] else []))) = p :: s := by
  have hblanks : ∀ q ∈ space.reverse, q.isBlank = true := fun q hq => hspace q (List.mem_reverse.1 hq)
  have hdrop : (space.reverse ++ s.reverse).dropWhile CodePoint.isBlank = s.reverse :=
    dropWhile_append hblanks fun q hq => (hs q (List.head?_reverse ▸ hq)).1
  cases slash with
  | true => simp [trimAttributes, hdrop]
  | false =>
    have hhead : (space.reverse ++ s.reverse).head? ≠ some (.scalar '/') := by
      intro h
      rw [List.head?_append] at h
      cases hq : space.reverse.head? with
      | some q =>
        rw [hq] at h
        cases h
        exact absurd (hblanks _ (List.mem_of_head? hq)) (by decide)
      | none =>
        rw [hq, Option.none_or, List.head?_reverse] at h
        exact (hs _ h).2 rfl
    simp only [trimAttributes, Bool.false_eq_true, if_false, List.append_nil, List.reverse_append]
    split
    · exact absurd ‹_› hhead
    · rw [hdrop, List.reverse_reverse]

/-! ## The attributes of a tag -/

theorem unbracketed_between {o : Opening} (slash : Bool)
    (h : ∀ v ∈ o.values, ∀ p ∈ v.text, isBracket p = false) :
    ∀ p ∈ o.between slash, isBracket p = false := by
  intro p hp
  rcases Opening.mem_between hp with hb | ⟨v, hv, ht⟩
  · exact hb
  · exact h v hv p ht

/-- The attributes of a tag are read whole and one by one if its values hold no brackets. -/
theorem tag_attributes {o : Opening} (haccepted : ∀ a ∈ o.attributes, a.isAccepted = true)
    (hvalues : ∀ v ∈ o.values, ∀ p ∈ v.text, isBracket p = false) (slash : Bool) (rest : Text) :
    ∃ t, tag none (o.write slash ++ rest) = some (⟨o.name, t⟩, (o.write slash).length) ∧
      scan attributeName t = o.attributes.map Attribute.name := by
  refine ⟨_, tag_write_of_unbracketed (unbracketed_between slash hvalues) rest, ?_⟩
  unfold Opening.between
  rcases ha : o.attributes with _ | ⟨a, as⟩
  · rcases hs : o.space.val with _ | ⟨p, t⟩
    · cases slash <;> rfl
    · have hp := o.space.property p (hs ▸ List.mem_cons_self)
      have ht : ∀ q ∈ t, q.isBlank = true := fun q hq =>
        o.space.property q (hs ▸ List.mem_cons_of_mem p hq)
      have htrim := trimAttributes_append p (s := []) (fun q hq => by cases hq) ht slash
      rw [List.flatMap_nil, List.nil_append, List.cons_append, List.head?_cons, Option.any_some,
        if_pos hp, ← List.nil_append t, List.append_assoc, htrim]
      exact all_pass blind_attributeName (fun q hq => by
        rw [List.mem_singleton.1 hq]; exact attributeName_avoids hp) (Nat.zero_le _) []
  · obtain ⟨p, t, h, hp⟩ := a.exists_blank_write
    have hlast : ∀ q ∈ (t ++ as.flatMap Attribute.write).getLast?, q.isBlank = false ∧ q ≠ .scalar '/' := by
      intro q hq
      refine last_of_attributes (a :: as) q ?_
      rw [List.flatMap_cons, h, List.cons_append, List.getLast?_cons, Option.mem_def.1 hq]
      rfl
    have hscan := scan_attributeName (ha ▸ haccepted)
    rw [List.flatMap_cons, h, List.cons_append] at hscan ⊢
    rw [List.cons_append, List.head?_cons, Option.any_some, if_pos hp,
      trimAttributes_append p hlast o.space.property slash]
    exact hscan

/-! ## What a component's tag mentions -/

theorem names_append (e e' : Evidence) (c : Category) :
    Evidence.names (e ++ e') c = e.names c ++ e'.names c := by
  simp [Evidence.names]

theorem names_flatMap {α : Type} (f : α → Evidence) (as : List α) (c : Category) :
    Evidence.names (as.flatMap f) c = as.flatMap fun a => (f a).names c := by
  induction as with
  | nil => rfl
  | cons a as ih => rw [List.flatMap_cons, names_append, ih, List.flatMap_cons]

theorem names_sightings (c c' : Category) (names : List Text) :
    (sightings c' names).names c = if c' = c then names else [] := by
  induction names with
  | nil => simp [Evidence.names, sightings]
  | cons name names ih =>
    simp only [Evidence.names, sightings, List.map_cons, List.filter_cons] at ih ⊢
    split <;> simp_all

/-- Only tags of components mention anything but slots. -/
theorem names_mentions {c : Category} (hc : c ≠ .slots) (components : List Text) (template : Text) :
    (mentions components template).names c =
      ((scan tag template).filter (isComponent components ·.name)).flatMap fun t =>
        (scan attributeName t.attributes).flatMap fun raw => (attributeSightings raw).names c := by
  have hslots : ∀ names : List Text, (sightings .slots names).names c = [] := fun names => by
    rw [names_sightings, if_neg hc.symm]
  have hdefault : ∀ b : Bool, Evidence.names (if b then [⟨.slots, defaultSlot⟩] else []) c = [] := by
    intro b
    cases b <;> simp [Evidence.names, hc.symm]
  unfold mentions
  simp only [names_append, hslots, names_flatMap, tagSightings]
  rw [hdefault, List.append_nil, List.append_nil]

namespace Opening

/-- A tag that closes itself, or one with an empty body. -/
def empty (o : Opening) (slash : Bool) : Text :=
  o.write slash ++ if slash then [] else closing o.name

/-- A tag with one of its attributes alone. -/
def only (o : Opening) (a : Attribute) : Opening := { o with attributes := [a] }

end Opening

theorem scan_tag_empty {o : Opening} (haccepted : ∀ a ∈ o.attributes, a.isAccepted = true)
    (hvalues : ∀ v ∈ o.values, ∀ p ∈ v.text, isBracket p = false) (slash : Bool) :
    ∃ t, scan tag (o.empty slash) = [⟨o.name, t⟩] ∧
      scan attributeName t = o.attributes.map Attribute.name := by
  have hrest : all tag none 0 (if slash then [] else closing o.name) = [] := by
    cases slash with
    | true => rfl
    | false =>
      have hclosing := beginsMarkup_tag.all_closing (lt_notMem_of_isTagName o.isTagName_name) []
      rwa [List.append_nil] at hclosing
  obtain ⟨t, ht, hscan⟩ := tag_attributes haccepted hvalues slash (if slash then [] else closing o.name)
  refine ⟨t, ?_, hscan⟩
  unfold scan Opening.empty
  rw [all_match beginsMarkup_tag.blind (o.write_ne_nil slash) ht, hrest]

/-- What a tag mentions besides slots depends on its name and the names of its attributes. -/
theorem names_mentions_empty {o : Opening} (haccepted : ∀ a ∈ o.attributes, a.isAccepted = true)
    (hvalues : ∀ v ∈ o.values, ∀ p ∈ v.text, isBracket p = false) (components : List Text)
    (slash : Bool) {c : Category} (hc : c ≠ .slots) :
    (mentions components (o.empty slash)).names c = if isComponent components o.name then
      o.attributes.flatMap fun a => (attributeSightings a.name).names c else [] := by
  obtain ⟨t, ht, hscan⟩ := scan_tag_empty haccepted hvalues slash
  rw [names_mentions hc, ht, List.filter_cons, List.filter_nil]
  cases isComponent components o.name with
  | false => rfl
  | true =>
    simp only [if_true, List.flatMap_cons, List.flatMap_nil, List.append_nil, hscan, List.flatMap_map]

/-- The inputs and events that a tag mentions are what its attributes mention one by one, each alone
and without its value, if no value holds a bracket. -/
theorem attributes_mention {o : Opening} (haccepted : ∀ a ∈ o.attributes, a.isAccepted = true)
    (hvalues : ∀ v ∈ o.values, ∀ p ∈ v.text, isBracket p = false) (components : List Text)
    (slash : Bool) {c : Category} (hc : c = .inputs ∨ c = .events) :
    (mentions components (o.empty slash)).names c =
        o.attributes.flatMap (fun a => (mentions components ((o.only a).empty slash)).names c) ∧
      ∀ a ∈ o.attributes, (mentions components ((o.only a).empty slash)).names c =
        (mentions components ((o.only a.bare).empty slash)).names c := by
  have hslots : c ≠ .slots := by
    rcases hc with rfl | rfl <;> decide
  have halone : ∀ a ∈ o.attributes, (mentions components ((o.only a).empty slash)).names c =
      if isComponent components o.name then (attributeSightings a.name).names c else [] := by
    intro a ha
    rw [names_mentions_empty (o := o.only a) (fun b hb => haccepted b (List.mem_singleton.1 hb ▸ ha))
      (fun v hv => ?_) components slash hslots]
    · simp [Opening.only]
    · obtain ⟨b, hb, hbv⟩ := List.mem_filterMap.1 hv
      exact hvalues v (List.mem_filterMap.2 ⟨b, List.mem_singleton.1 hb ▸ ha, hbv⟩)
  have hbare : ∀ a ∈ o.attributes, (mentions components ((o.only a.bare).empty slash)).names c =
      if isComponent components o.name then (attributeSightings a.name).names c else [] := by
    intro a ha
    rw [names_mentions_empty (o := o.only a.bare) (fun b hb => List.mem_singleton.1 hb ▸ haccepted a ha)
      (fun v hv => ?_) components slash hslots]
    · simp [Opening.only, Attribute.bare]
    · obtain ⟨b, hb, hbv⟩ := List.mem_filterMap.1 hv
      rw [List.mem_singleton.1 hb] at hbv
      cases hbv
  refine ⟨?_, fun a ha => (halone a ha).trans (hbare a ha).symm⟩
  rw [names_mentions_empty haccepted hvalues components slash hslots]
  cases hcomponent : isComponent components o.name with
  | false =>
    simp only [hcomponent, Bool.false_eq_true, if_false] at halone ⊢
    exact (List.flatMap_eq_nil_iff.2 halone).symm
  | true =>
    simp only [hcomponent, if_true] at halone ⊢
    exact (List.flatMap_congr halone).symm

/-! ### A tag with values of both kinds -/

/-- `<Pager :page="n + 1" @change='go("x = 1 /")' disabled v-model:size = "s" />` -/
def pager : Opening where
  name := "Pager"
  attributes := [
    { name := ":page", value := some { text := "n + 1" } },
    { name := "@change", value := some { quote := .single, text := "go(\"x = 1 /\")" } },
    { name := "disabled" },
    { name := "v-model:size", value := some { before := .one, after := .one, text := "s" } }]
  space := .one

theorem attributes_mention_pager :
    (∀ a ∈ pager.attributes, a.isAccepted = true) ∧
    (∀ v ∈ pager.values, ∀ p ∈ v.text, isBracket p = false) ∧
    (mentions ["Pager"] (pager.empty true)).names .inputs =
      pager.attributes.flatMap
        (fun a => (mentions ["Pager"] ((pager.only a).empty true)).names .inputs) ∧
    ∀ a ∈ pager.attributes, (mentions ["Pager"] ((pager.only a).empty true)).names .inputs =
      (mentions ["Pager"] ((pager.only a.bare).empty true)).names .inputs := by
  have haccepted : ∀ a ∈ pager.attributes, a.isAccepted = true := by decide
  have hvalues : ∀ v ∈ pager.values, ∀ p ∈ v.text, isBracket p = false := by decide
  exact ⟨haccepted, hvalues, attributes_mention haccepted hvalues ["Pager"] true (.inl rfl)⟩

/-- A closing bracket in a value ends the tag there: the rest of the value is read as an attribute,
and the attributes behind it are lost. -/
example : (mentions ["Pager"] "<Pager :page=\"n > 1\" size=\"2\"/>").names .inputs =
    [("page" : Text), ("n" : Text)] := by
  decide

end Template
end SurfaceCoverage
