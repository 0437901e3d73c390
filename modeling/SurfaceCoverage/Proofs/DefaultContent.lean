import Mathlib.Data.List.Infix
import SurfaceCoverage.Proofs.SlotDirectives
/-!
# Content of the default slot

Between the tags of an element, all but blanks, comments and blocks of named slots fills the default
slot (`Markup.fills`). Of a text that begins with such a child it is decided piece by piece whether
it fills the slot (`fillsDefault_prose`, `fillsDefault_comment`, `fillsDefault_block`,
`fillsDefault_element`).
-/

namespace SurfaceCoverage.Template

open Scan

/-! ## Children -/

namespace Opening

/-- A `template` tag, whatever its case. -/
def isTemplate (o : Opening) : Bool := o.name.lowerAscii = "template"

/-- The block of a named slot: a `template` with a slot directive. -/
def isSlotBlock (o : Opening) : Bool :=
  o.isTemplate && o.attributes.any fun a =>
    a.name.startsWith "#" || a.name = "v-slot" || a.name.startsWith "v-slot:"

end Opening

namespace Markup

/-- Whether there is content for the default slot: text, or an element that is no block of a named
slot. -/
def fills : Markup → Bool
  | text t => !Text.isBlank t.val
  | comment b _ next => !Text.isBlank b.val || next.fills
  | leaf b o _ next => !Text.isBlank b.val || (!o.isSlotBlock || next.fills)
  | element b o _ next => !Text.isBlank b.val || (!o.isSlotBlock || next.fills)

/-- All elements with content, in document order, each with its children. -/
def elements : Markup → List (Opening × Markup)
  | text _ => []
  | comment _ _ next => next.elements
  | leaf _ _ _ next => next.elements
  | element _ o children next => (o, children) :: (children.elements ++ next.elements)

end Markup

/-! ## Slot directives of a tag -/

theorem hasSlotDirective_append_left {s : Text} (h : hasSlotDirective s = true) (t : Text) :
    hasSlotDirective (s ++ t) = true := by
  induction s with
  | nil => cases h
  | cons c s ih =>
    simp only [hasSlotDirective, Bool.or_eq_true, decide_eq_true_eq] at h
    simp only [List.cons_append, hasSlotDirective, Bool.or_eq_true, decide_eq_true_eq]
    rcases h with (h | h) | h
    · exact .inl (.inl h)
    · obtain ⟨r, hr⟩ := Option.isSome_iff_exists.1 h
      obtain ⟨w, hw, hsame⟩ := behind?_eq_some.1 hr
      refine .inl (.inr (Option.isSome_iff_exists.2 ⟨r ++ t, behind?_eq_some.2 ⟨w, ?_, hsame⟩⟩))
      rw [← List.cons_append, hw, List.append_assoc]
    · exact .inr (ih h)

theorem hasSlotDirective_append_right (s : Text) {t : Text} (h : hasSlotDirective t = true) :
    hasSlotDirective (s ++ t) = true := by
  induction s with
  | nil => exact h
  | cons c s ih => rw [List.cons_append, hasSlotDirective, ih, Bool.or_true]

theorem hasSlotDirective_of_prefix {s t : Text} (hs : s <+: t) (h : hasSlotDirective s = true) :
    hasSlotDirective t = true := by
  obtain ⟨u, rfl⟩ := hs
  exact hasSlotDirective_append_left h u

/-- The text of a block's attributes shows its directive. -/
theorem hasSlotDirective_of_isSlotBlock {o : Opening} (h : o.isSlotBlock = true) (slash : Bool) :
    hasSlotDirective (o.between slash) = true := by
  simp only [Opening.isSlotBlock, Bool.and_eq_true, List.any_eq_true, Bool.or_eq_true,
    decide_eq_true_eq] at h
  obtain ⟨-, a, ha, hname⟩ := h
  have hdirective : hasSlotDirective a.name = true := by
    rcases hname with (hname | hname) | hname
    · obtain ⟨t, ht⟩ := Text.startsWith_iff.1 hname
      rw [← ht]
      rfl
    · rw [hname]
      decide
    · obtain ⟨t, ht⟩ := Text.startsWith_iff.1 hname
      rw [← ht]
      exact hasSlotDirective_append_left (by decide) t
  obtain ⟨as, as', has⟩ := List.append_of_mem ha
  rw [Opening.between, has, List.flatMap_append, List.flatMap_cons, Attribute.write]
  simp only [List.append_assoc]
  exact hasSlotDirective_append_right _ (hasSlotDirective_append_right _
    (hasSlotDirective_append_left hdirective _))

/-! ## The word of a `template` tag -/

theorem isCaseOf_template {c : Char} (hc : c ∈ "template".toList) (p : CodePoint) :
    p.isCaseOf c = true ↔ CodePoint.map Char.toLower p = .scalar c := by
  -- `all` has this decided over the letters of the word instead of over all characters
  have hspecial : ("template".toList.all fun c => !(c == 'i') && !(c == 's') && !(c == 'k')) = true := by
    decide
  have hletter := List.all_eq_true.1 hspecial c hc
  simp only [Bool.and_eq_true, Bool.not_eq_true'] at hletter
  obtain ⟨⟨hi, hs⟩, hk⟩ := hletter
  cases p with
  | surrogate i => simp [CodePoint.isCaseOf, CodePoint.satisfies, CodePoint.map]
  | scalar d =>
    simp [CodePoint.isCaseOf, CodePoint.satisfies, CodePoint.map, Letters.isCaseOf, hi, hs, hk]

theorem isCaseOf_delimiter {c : Char} (hc : c ∈ "template".toList) {p : CodePoint}
    (hp : delimits p = true) : p.isCaseOf c = false := by
  simp only [delimits, isQuote, isBracket, Bool.or_eq_true, decide_eq_true_eq] at hp
  have hblank : ("template".toList.all fun c => Letters.blanks.all fun n =>
      !Letters.isCaseOf c (Char.ofNat n)) = true := by
    decide
  have hsign : ("template".toList.all fun c => ['"', '\'', '<', '>', '=', '/'].all fun d =>
      !CodePoint.isCaseOf c (.scalar d)) = true := by
    decide
  simp only [List.all_eq_true, Bool.not_eq_true'] at hblank hsign
  rcases hp with (((hp | rfl | rfl) | rfl | rfl) | rfl) | rfl
  · cases p with
    | surrogate i => rfl
    | scalar d => exact Letters.forall_blank (P := fun d => Letters.isCaseOf c d = false) (hblank c hc) hp
  all_goals exact hsign c hc _ (by decide)

theorem isTemplate_iff {o : Opening} :
    o.isTemplate = true ↔ behind? CodePoint.isCaseOf "template".toList o.name = some [] := by
  have hletters : ∀ (w : List Char) (s : Text), (∀ c ∈ w, c ∈ "template".toList) →
      (List.Forall₂ (fun c p => p.isCaseOf c = true) w s ↔ s.lowerAscii = Text.ofChars w) := by
    intro w
    induction w with
    | nil => intro s _; cases s <;> simp [Text.lowerAscii, Text.ofChars]
    | cons c w ih =>
      intro s hw
      cases s with
      | nil => simp [Text.lowerAscii, Text.ofChars]
      | cons p s =>
        rw [List.forall₂_cons, ih s fun d hd => hw d (List.mem_cons_of_mem c hd),
          isCaseOf_template (hw c List.mem_cons_self)]
        simp [Text.lowerAscii, Text.ofChars]
  rw [Opening.isTemplate, decide_eq_true_eq, behind?_eq_some]
  constructor
  · intro h
    exact ⟨o.name, (List.append_nil _).symm, (hletters _ _ fun _ hc => hc).2 h⟩
  · rintro ⟨s, hs, h⟩
    rw [hs, List.append_nil]
    exact (hletters _ _ fun _ hc => hc).1 h

/-- The word of a `template` tag is found in front of such a tag; in front of another one it is not
found, or the tag's name goes on behind it. -/
theorem behind?_template (o : Opening) (slash : Bool) (rest : Text) :
    o.isTemplate = true ∧ behind? CodePoint.isCaseOf "<template".toList (o.write slash ++ rest) =
        some (o.between slash ++ .scalar '>' :: rest) ∨
      o.isTemplate = false ∧
        (behind? CodePoint.isCaseOf "<template".toList (o.write slash ++ rest) = none ∨
        ∃ c r, behind? CodePoint.isCaseOf "<template".toList (o.write slash ++ rest) = some (c :: r) ∧
          delimits c = false) := by
  have hstart : behind? CodePoint.isCaseOf "<template".toList (o.write slash ++ rest) =
      behind? CodePoint.isCaseOf "template".toList
        (o.name ++ (o.between slash ++ .scalar '>' :: rest)) := by
    rw [o.write_append]
    rfl
  obtain ⟨q, u, hq⟩ := List.exists_cons_of_ne_nil
    (List.append_ne_nil_of_right_ne_nil (o.between slash) (List.cons_ne_nil (CodePoint.scalar '>') rest))
  have hdelimits := o.delimits_head_between slash rest q (by rw [hq]; rfl)
  rw [hstart, hq, behind?_append_cons fun c hc => isCaseOf_delimiter hc hdelimits]
  cases h : behind? CodePoint.isCaseOf "template".toList o.name with
  | none =>
    refine .inr ⟨?_, .inl rfl⟩
    rw [Bool.eq_false_iff, ne_eq, isTemplate_iff, h]
    simp
  | some r =>
    rcases r with _ | ⟨c, r⟩
    · exact .inl ⟨isTemplate_iff.2 h, rfl⟩
    · refine .inr ⟨?_, .inr ⟨c, r ++ q :: u, rfl, ?_⟩⟩
      · rw [Bool.eq_false_iff, ne_eq, isTemplate_iff, h]
        simp
      · obtain ⟨s, hs, -⟩ := behind?_eq_some.1 h
        exact not_delimits_of_isTagName o.isTagName_name c (by rw [hs]; simp)

/-! ## What is removed from the content of an element -/

theorem beginsMarkup_namedSlot : BeginsMarkup namedSlot where
  blind _ _ := rfl
  avoids c hc t := by
    have hbehind : behind? CodePoint.isCaseOf "<template".toList (c :: t) = none :=
      behind?_isCaseOf_cons (by decide) hc _ t
    unfold namedSlot
    rw [hbehind]
    rfl
  closing _ := rfl
  comment _ := rfl

theorem comment_avoids_of_notMem {t : Text} (ht : CodePoint.scalar '<' ∉ t) :
    ∀ c ∈ t, comment.Avoids c := by
  intro c hc as
  have hc' : c ≠ .scalar '<' := fun h => ht (h ▸ hc)
  have hbehind : behindWord? "<!--" (c :: as) = none := if_neg hc'
  unfold comment
  rw [hbehind]
  rfl

/-- A place of the end of a `template`. -/
def closesTemplate (t : Text) : Bool := (behind? CodePoint.isCaseOf "</template>".toList t).isSome

theorem closesTemplate_append {s : Text} (hs : s ≠ []) (rest : Text) :
    closesTemplate (s ++ .scalar '<' :: rest) = closesTemplate s := by
  have htail : ("/template>".toList.all fun c => !CodePoint.isCaseOf c (.scalar '<')) = true := by
    decide
  simp only [List.all_eq_true, Bool.not_eq_true'] at htail
  obtain ⟨a, s, rfl⟩ := List.exists_cons_of_ne_nil hs
  change (if CodePoint.isCaseOf '<' a then
      behind? CodePoint.isCaseOf "/template>".toList (s ++ .scalar '<' :: rest) else none).isSome =
    (if CodePoint.isCaseOf '<' a then behind? CodePoint.isCaseOf "/template>".toList s else none).isSome
  rw [behind?_append_cons htail]
  split
  · rw [Option.isSome_map]
  · rfl

theorem closesTemplate_closing {o : Opening} (ho : o.isTemplate = true) (rest : Text) :
    closesTemplate (closing o.name ++ rest) = true := by
  obtain ⟨s, hs, hletters⟩ := behind?_eq_some.1 (isTemplate_iff.1 ho)
  rw [List.append_nil] at hs
  refine Option.isSome_iff_exists.2 ⟨rest, behind?_eq_some.2 ⟨closing o.name, rfl, ?_⟩⟩
  rw [closing, hs]
  refine .cons (by decide) (.cons (by decide) ?_)
  exact List.rel_append hletters (.cons (by decide) .nil)

theorem hasSlotDirective_cons_blank {c : CodePoint} (hc : c.isBlank = true) (t : Text) :
    hasSlotDirective (c :: t) = hasSlotDirective t := by
  have hsharp : c ≠ .scalar '#' := by
    rintro rfl
    exact absurd hc (by decide)
  have hv : CodePoint.isCaseOf 'v' c = false := by
    cases c with
    | surrogate i => rfl
    | scalar c =>
      exact Letters.forall_blank (P := fun c => Letters.isCaseOf 'v' c = false) (by decide) hc
  have hword : behind? CodePoint.isCaseOf "v-slot".toList (c :: t) = none :=
    if_neg fun h => Bool.false_ne_true (hv.symm.trans h)
  rw [hasSlotDirective, hword]
  simp [hsharp]

theorem namedSlot_of_behind {t r : Text} (h : behind? CodePoint.isCaseOf "<template".toList t = some r) :
    namedSlot none t = match r.takeWhile (· != .scalar '>') with
      | [] => none
      | p :: u =>
        if p.isBlank && hasSlotDirective u then
          (splitWhere? closesTemplate [] (r.dropWhile (· != .scalar '>')).tail).map
            fun m => ((), t.length - m.2.length + 11)
        else none := by
  unfold namedSlot
  simp only [h, List.span_eq_takeWhile_dropWhile, Option.bind_eq_bind, Option.bind_some]
  cases List.takeWhile (fun p => p != CodePoint.scalar '>') r with
  | nil => rfl
  | cons p u =>
    dsimp only
    cases p.isBlank with
    | false => rfl
    | true =>
      cases hasSlotDirective u with
      | false => rfl
      | true =>
        unfold closesTemplate
        cases splitWhere? _ [] (r.dropWhile (· != .scalar '>')).tail <;> rfl

theorem fillsDefault_prose {b : Text} (hb : CodePoint.scalar '<' ∉ b) (t : Text) :
    fillsDefault (b ++ t) = (!Text.isBlank b || fillsDefault t) := by
  have hcomment : ∀ c ∈ b, comment.Avoids c := comment_avoids_of_notMem hb
  rw [fillsDefault, remove, remove,
    removeFrom_pass beginsMarkup_namedSlot.blind (beginsMarkup_namedSlot.avoids_of_notMem hb),
    removeFrom_pass (fun _ _ => rfl) hcomment, Text.isBlank, List.all_append, Bool.not_and]
  rfl

/-- A comment ends where it says, as it holds no end. -/
theorem comment_write {r : Text} (hr : ¬ Text.ofString "-->" <:+: r) (t : Text) :
    comment none (Text.ofString "<!--" ++ (r ++ Text.ofString "-->") ++ t) =
      some ((), (Text.ofString "<!--" ++ (r ++ Text.ofString "-->")).length) := by
  have hsplit : splitWhere? (fun t => (behindWord? "-->" t).isSome) [] (r ++ (Text.ofString "-->" ++ t)) =
      some (r, Text.ofString "-->" ++ t) := by
    refine splitWhere?_append [] (fun s hs hsr => ?_) (by rw [behindWord?_append]; rfl)
    rw [Option.isSome_eq_false_iff, Option.isNone_iff_eq_none, Option.eq_none_iff_forall_ne_some]
    intro u hu
    have h := Text.dropStart?_eq_some.1 hu
    -- an end that begins in the comment would lie in it, or hold a dash where its bracket is
    rcases List.append_eq_append_iff.1 h with ⟨v, hv, hrest⟩ | ⟨v, hv, -⟩
    · rcases s with _ | ⟨a, _ | ⟨b, _ | ⟨c, s⟩⟩⟩
      · exact hs rfl
      · simp [Text.ofString, Text.ofChars] at hv hrest
        obtain ⟨-, rfl⟩ := hv
        simp at hrest
      · simp [Text.ofString, Text.ofChars] at hv hrest
        obtain ⟨-, -, rfl⟩ := hv
        simp at hrest
      · simp [Text.ofString, Text.ofChars] at hv
        obtain ⟨rfl, rfl, rfl, rfl, rfl⟩ := hv
        exact hr hsr.isInfix
    · exact hr ((List.prefix_append _ v).isInfix.trans (hv ▸ hsr.isInfix))
  have hbehind : behindWord? "<!--" (Text.ofString "<!--" ++ (r ++ Text.ofString "-->") ++ t) =
      some (r ++ (Text.ofString "-->" ++ t)) := by
    rw [List.append_assoc, List.append_assoc, behindWord?_append]
  unfold comment
  simp only [hbehind, hsplit, Option.bind_eq_bind, Option.bind_some]
  refine congrArg some (Prod.ext rfl ?_)
  simp [Text.ofString, Text.ofChars]
  omega

theorem fillsDefault_comment {r : Text} (hr : ¬ Text.ofString "-->" <:+: r)
    (hbracket : CodePoint.scalar '<' ∉ r) (t : Text) :
    fillsDefault (Text.ofString "<!--" ++ (r ++ Text.ofString "-->") ++ t) = fillsDefault t := by
  have htail : CodePoint.scalar '<' ∉ Text.ofString "!--" ++ (r ++ Text.ofString "-->") := by
    simp only [List.mem_append, not_or]
    exact ⟨by decide, hbracket, by decide⟩
  have hwrite : ∀ t, Text.ofString "<!--" ++ (r ++ Text.ofString "-->") ++ t =
      .scalar '<' :: (Text.ofString "!--" ++ (r ++ Text.ofString "-->") ++ t) := fun _ => rfl
  have hkept : removeFrom namedSlot none 0 (Text.ofString "<!--" ++ (r ++ Text.ofString "-->") ++ t) =
      Text.ofString "<!--" ++ (r ++ Text.ofString "-->") ++ removeFrom namedSlot none 0 t := by
    have hnone : namedSlot none (.scalar '<' :: (Text.ofString "!--" ++ (r ++ Text.ofString "-->") ++ t)) =
        none := beginsMarkup_namedSlot.comment _
    rw [hwrite, removeFrom_keep beginsMarkup_namedSlot.blind hnone,
      removeFrom_pass beginsMarkup_namedSlot.blind (beginsMarkup_namedSlot.avoids_of_notMem htail), hwrite]
  have hne : Text.ofString "<!--" ++ (r ++ Text.ofString "-->") ≠ [] := List.cons_ne_nil _ _
  rw [fillsDefault, remove, remove, hkept, removeFrom_match (fun _ _ => rfl) hne (comment_write hr _)]
  rfl

/-- The block of a named slot does not count if it ends at its own closing tag. -/
theorem fillsDefault_block {o : Opening} (ho : o.isTemplate = true)
    (hdirective : hasSlotDirective (o.between false) = true)
    (hbracket : CodePoint.scalar '>' ∉ o.between false) {c : Text}
    (hc : ∀ s ∈ c.tails, closesTemplate s = false) (t : Text) :
    fillsDefault (o.write false ++ (c ++ (closing o.name ++ t))) = fillsDefault t := by
  have hbehind := (behind?_template o false (c ++ (closing o.name ++ t))).resolve_right fun h => by
    rw [ho] at h
    cases h.1
  obtain ⟨p, u, hbetween, hp⟩ : ∃ p u, o.between false = p :: u ∧ p.isBlank = true := by
    rcases o.between_cases false with h | ⟨h, -⟩ | h
    · rw [h] at hdirective
      cases hdirective
    · cases h
    · exact h
  have hsplit : splitWhere? closesTemplate [] (c ++ (closing o.name ++ t)) =
      some (c, closing o.name ++ t) := by
    refine splitWhere?_append [] (fun s hs hsc => ?_) (closesTemplate_closing ho t)
    rw [closing, List.cons_append, closesTemplate_append hs]
    exact hc s ((List.mem_tails s c).2 hsc)
  -- the match is as long as the word of its closing tag makes it
  have hlength : o.name.length = 8 := by
    rw [Opening.isTemplate, decide_eq_true_eq] at ho
    have h := congrArg List.length ho
    rwa [Text.lowerAscii, List.length_map] at h
  have hmatch : namedSlot none (o.write false ++ (c ++ (closing o.name ++ t))) =
      some ((), (o.write false ++ (c ++ closing o.name)).length) := by
    have hinside : ∀ d ∈ o.between false, (d != .scalar '>') = true := fun d hd => by
      simpa using fun e : d = .scalar '>' => hbracket (e ▸ hd)
    have hend : ∀ d ∈ (CodePoint.scalar '>' :: (c ++ (closing o.name ++ t))).head?,
        (d != .scalar '>') = false := fun d hd => by cases hd; rfl
    have hu : hasSlotDirective u = true := by rwa [hbetween, hasSlotDirective_cons_blank hp] at hdirective
    rw [namedSlot_of_behind hbehind.2, takeWhile_append hinside hend, dropWhile_append hinside hend,
      hbetween]
    simp only [hp, hu, Bool.and_self, if_true, List.tail_cons, hsplit, Option.map_some]
    simp only [closing, List.length_append, List.length_cons, List.length_nil, hlength]
    refine congrArg some (Prod.ext rfl ?_)
    simp only
    omega
  have hwrite : o.write false ++ (c ++ (closing o.name ++ t)) =
      o.write false ++ (c ++ closing o.name) ++ t := by
    simp only [List.append_assoc]
  rw [hwrite] at hmatch ⊢
  rw [fillsDefault, remove, remove, removeFrom_match beginsMarkup_namedSlot.blind
    (List.append_ne_nil_of_left_ne_nil (o.write_ne_nil false) _) hmatch]
  rfl

/-- A tag that is no `template`, or shows no slot directive, begins no block. -/
theorem namedSlot_write {o : Opening} {slash : Bool}
    (ho : o.isTemplate = true → hasSlotDirective (o.between slash) = false) (t : Text) :
    namedSlot none (o.write slash ++ t) = none := by
  rcases behind?_template o slash t with ⟨htemplate, h⟩ | ⟨-, h | ⟨c, r, h, hc⟩⟩
  · have hfront := List.takeWhile_prefix (· != CodePoint.scalar '>') (l := o.between slash)
    rw [namedSlot_of_behind h, takeWhile_append_cons (by decide)]
    cases hattributes : (o.between slash).takeWhile (· != .scalar '>') with
    | nil => rfl
    | cons p u =>
      have hu : hasSlotDirective u = false := by
        by_contra hu
        rw [Bool.not_eq_false] at hu
        rw [hattributes] at hfront
        have hall := hasSlotDirective_of_prefix hfront (hasSlotDirective_append_right [p] hu)
        rw [ho htemplate] at hall
        cases hall
      simp [hu]
  · unfold namedSlot
    rw [h]
    rfl
  · rw [namedSlot_of_behind h, List.takeWhile_cons]
    cases c != .scalar '>' with
    | false => rfl
    | true => simp [not_isBlank_of_delimits hc]

/-- Any other element does. -/
theorem fillsDefault_element {o : Opening} {slash : Bool}
    (ho : o.isTemplate = true → hasSlotDirective (o.between slash) = false) (t : Text) :
    fillsDefault (o.write slash ++ t) = true := by
  have hnone := namedSlot_write ho t
  obtain ⟨c, more, hname, hc, -⟩ := exists_of_isTagName o.isTagName_name
  rw [o.write_append, hname, List.cons_append] at hnone ⊢
  have hletter : ∀ d, d.isAlpha = false → CodePoint.scalar c ≠ .scalar d := by
    intro d hd h
    rw [CodePoint.scalar.inj h, hd] at hc
    cases hc
  have hcomment : ∀ u, comment none (.scalar '<' :: .scalar c :: u) = none := by
    intro u
    have hbehind : behindWord? "<!--" (.scalar '<' :: .scalar c :: u) = none := if_neg (hletter '!' rfl)
    unfold comment
    rw [hbehind]
    rfl
  rw [fillsDefault, remove, remove, removeFrom_keep beginsMarkup_namedSlot.blind hnone,
    removeFrom_keep beginsMarkup_namedSlot.blind (beginsMarkup_namedSlot.avoids _ (hletter '<' rfl) _),
    removeFrom_keep (fun _ _ => rfl) (hcomment _)]
  rfl

end SurfaceCoverage.Template
