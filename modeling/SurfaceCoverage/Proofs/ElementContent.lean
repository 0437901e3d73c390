import SurfaceCoverage.Proofs.DefaultContent
/-!
# The content that is found for an element

The search for an element's content ends at the first closing tag of the element's name. It either
ends at the element's own closing tag, or has passed by a child that fills the default slot
(`readsContent_children`). So the elements of a name whose search finds content for the slot are
those that have it (`any_tagContent`), if the closing tags of that name are where they should be
(`Markup.Paired`), and if blocks of named slots among the children end where they seem to
(`Markup.PlainBlocks`).
-/

namespace SurfaceCoverage.Template

open Scan

/-! ## Places of closing tags -/

/-- Whether a closing tag of a name stands in front. -/
def closes (name t : Text) : Bool := t.startsWith (closing name)

theorem closes_append (name rest : Text) : closes name (closing name ++ rest) = true :=
  Text.startsWith_iff.2 (List.prefix_append _ _)

/-- No closing tag of a name begins in a piece, whatever follows the piece. -/
def OmitsClosing (name s : Text) : Prop :=
  ∀ rest t, t ≠ [] → t <:+ s → ¬ closing name <+: t ++ rest

section
variable {name s : Text}

theorem OmitsClosing.append {t : Text} (hs : OmitsClosing name s) (ht : OmitsClosing name t) :
    OmitsClosing name (s ++ t) := by
  intro rest u hne hu hfront
  rcases List.suffix_or_suffix_of_suffix hu (List.suffix_append s t) with h | ⟨v, rfl⟩
  · exact ht rest u hne h hfront
  · rcases v with _ | ⟨a, v⟩
    · exact ht rest t hne (List.suffix_refl t) hfront
    · rw [List.append_assoc] at hfront
      exact hs (t ++ rest) (a :: v) (List.cons_ne_nil a v) (List.suffix_append_self_iff.1 hu) hfront

/-- A closing tag in a text begins behind a piece in which none begins. -/
theorem OmitsClosing.infix_rest (hs : OmitsClosing name s) {rest : Text}
    (h : closing name <:+: s ++ rest) : closing name <:+: rest := by
  obtain ⟨t, hfront, hsuffix⟩ := List.infix_iff_prefix_suffix.1 h
  rcases List.suffix_or_suffix_of_suffix hsuffix (List.suffix_append s rest) with ht | ⟨v, rfl⟩
  · exact hfront.isInfix.trans ht.isInfix
  · rcases v with _ | ⟨a, v⟩
    · exact hfront.isInfix
    · have hv : a :: v <:+ s := List.suffix_append_self_iff.1 hsuffix
      exact absurd hfront (hs rest (a :: v) (List.cons_ne_nil a v) hv)

theorem omitsClosing_of_notMem (hs : CodePoint.scalar '<' ∉ s) : OmitsClosing name s := by
  intro rest t hne ht hfront
  obtain ⟨c, t, rfl⟩ := List.exists_cons_of_ne_nil hne
  rw [closing, List.cons_append, List.cons_prefix_cons] at hfront
  exact hs (hfront.1 ▸ ht.mem List.mem_cons_self)

/-- A bracket with something else than a slash behind it begins no closing tag. -/
theorem omitsClosing_cons {c : CodePoint} (hc : c ≠ .scalar '/') (hs : CodePoint.scalar '<' ∉ c :: s) :
    OmitsClosing name (.scalar '<' :: c :: s) := by
  intro rest t hne ht hfront
  rcases List.suffix_cons_iff.1 ht with rfl | ht
  · rw [closing, List.cons_append, List.cons_append, List.cons_prefix_cons, List.cons_prefix_cons]
      at hfront
    exact hc hfront.2.1.symm
  · exact omitsClosing_of_notMem hs rest t hne ht hfront

theorem omitsClosing_comment {r : Text} (hr : CodePoint.scalar '<' ∉ r) :
    OmitsClosing name (Text.ofString "<!--" ++ (r ++ Text.ofString "-->")) := by
  have htail : CodePoint.scalar '<' ∉ Text.ofString "!--" ++ (r ++ Text.ofString "-->") := by
    simp only [List.mem_append, not_or]
    exact ⟨by decide, hr, by decide⟩
  exact omitsClosing_cons (by decide) htail

theorem omitsClosing_write {o : Opening} {slash : Bool} (h : CodePoint.scalar '<' ∉ o.between slash) :
    OmitsClosing name (o.write slash) := by
  have htail := Opening.bracket_notMem_write h
  obtain ⟨c, more, hname, hc, -⟩ := exists_of_isTagName o.isTagName_name
  rw [Opening.write]
  rw [hname, List.cons_append] at htail ⊢
  refine omitsClosing_cons (fun e => ?_) htail
  rw [CodePoint.scalar.inj e] at hc
  exact absurd hc (by decide)

/-- Closing tags of two names differ before their ends. -/
theorem name_eq_of_closing {m rest : Text} (hn : isTagName name = true) (hm : isTagName m = true)
    (h : closing name <+: closing m ++ rest) : name = m := by
  have hinside : ∀ {t}, isTagName t = true → ∀ c ∈ t, (c != .scalar '>') = true := by
    intro t ht c hc
    have hdelimits := not_delimits_of_isTagName ht c hc
    by_contra he
    rw [bne_iff_ne, not_not] at he
    rw [he] at hdelimits
    exact absurd hdelimits (by decide)
  have hends : ∀ u, ∀ c ∈ (CodePoint.scalar '>' :: u).head?, (c != .scalar '>') = false :=
    fun u c hc => by cases hc; rfl
  obtain ⟨u, hu⟩ := h
  simp only [closing, List.cons_append, List.append_assoc, List.nil_append, List.cons.injEq,
    true_and] at hu
  have hwords := congrArg (List.takeWhile (· != CodePoint.scalar '>')) hu
  rwa [takeWhile_append (hinside hn) (hends _), takeWhile_append (hinside hm) (hends _)] at hwords

theorem omitsClosing_closing {m : Text} (hn : isTagName name = true) (hm : isTagName m = true)
    (hne : name ≠ m) : OmitsClosing name (closing m) := by
  intro rest t ht hsuffix hfront
  rcases List.suffix_cons_iff.1 hsuffix with rfl | hsuffix
  · exact hne (name_eq_of_closing hn hm hfront)
  · refine omitsClosing_of_notMem (fun h => ?_) rest t ht hsuffix hfront
    simp only [List.mem_cons, List.mem_append, List.not_mem_nil, or_false] at h
    rcases h with h | h | h
    · cases h
    · exact lt_notMem_of_isTagName hm h
    · cases h

/-- Content without a closing tag of the name, up to the closing tag of another one. -/
theorem omitsClosing_content {m : Text} (hn : isTagName name = true) (hm : isTagName m = true)
    (hne : name ≠ m) (hs : ¬ closing name <:+: s) : OmitsClosing name (s ++ closing m) := by
  intro rest t ht hsuffix hfront
  rcases List.suffix_or_suffix_of_suffix hsuffix (List.suffix_append s (closing m)) with h | ⟨v, rfl⟩
  · exact omitsClosing_closing hn hm hne rest t ht h hfront
  · rcases v with _ | ⟨a, v⟩
    · exact omitsClosing_closing hn hm hne rest _ ht (List.suffix_refl _) hfront
    · -- a closing tag begun in the content ends there, as it cannot reach across the next bracket
      have hv : a :: v <:+ s := List.suffix_append_self_iff.1 hsuffix
      have hbracket : CodePoint.scalar '<' ∉ .scalar '/' :: (name ++ [.scalar '>']) := by
        simp only [List.mem_cons, List.mem_append, List.not_mem_nil, or_false, not_or]
        exact ⟨by decide, lt_notMem_of_isTagName hn, by decide⟩
      rw [List.append_assoc, closing, List.cons_append, closing, List.cons_append,
        List.cons_prefix_cons] at hfront
      obtain ⟨u, hu⟩ := hfront.2
      have hdrop := Text.dropStart?_append_cons hbracket v (.scalar '/' :: (m ++ [.scalar '>']) ++ rest)
      rw [← hu, Text.dropStart?_append] at hdrop
      obtain ⟨w, hw, -⟩ := Option.map_eq_some_iff.1 hdrop.symm
      refine hs (List.IsInfix.trans ?_ hv.isInfix)
      rw [Text.dropStart?_eq_some.1 hw, ← hfront.1]
      exact (List.prefix_append (closing name) w).isInfix

theorem splitWhere?_omits (h : OmitsClosing name s) (acc rest : Text) :
    splitWhere? (closes name) acc (s ++ rest) = splitWhere? (closes name) (s.reverse ++ acc) rest := by
  refine splitWhere?_skip acc fun t ht hts => ?_
  rw [Bool.eq_false_iff, ne_eq, closes, Text.startsWith_iff]
  exact h rest t ht hts

end

/-! ## The content of an element -/

/-- The search for the end of an element with the given content finds content that fills the default
slot or does not, as told. If it does not, what is found is the whole content. -/
def ReadsContent (name s : Text) (fills : Bool) : Prop :=
  ∀ acc rest, ∃ content behind,
    splitWhere? (closes name) acc (s ++ (closing name ++ rest)) = some (acc.reverse ++ content, behind) ∧
    fillsDefault content = fills ∧ (fills = false → content = s ∧ behind = closing name ++ rest)

section
variable {name s : Text}

theorem readsContent_nil : ReadsContent name [] false := fun acc rest =>
  ⟨[], closing name ++ rest, by
    rw [List.nil_append, splitWhere?_hit acc (closes_append name rest), List.append_nil],
    rfl, fun _ => ⟨rfl, rfl⟩⟩

theorem ReadsContent.append {w : Text} {b fills : Bool} (hs : ReadsContent name s fills)
    (hw : OmitsClosing name w) (hb : ∀ t, fillsDefault (w ++ t) = (b || fillsDefault t)) :
    ReadsContent name (w ++ s) (b || fills) := by
  intro acc rest
  obtain ⟨content, behind, hsplit, hfills, hwhole⟩ := hs (w.reverse ++ acc) rest
  refine ⟨w ++ content, behind, ?_, by rw [hb, hfills], fun h => ?_⟩
  · rw [List.append_assoc, splitWhere?_omits hw, hsplit, List.reverse_append, List.reverse_reverse,
      List.append_assoc]
  · obtain ⟨rfl, rfl⟩ := hwhole (Bool.or_eq_false_iff.1 h).2
    exact ⟨rfl, rfl⟩

/-- Behind a piece that fills the slot the end may be found anywhere. -/
theorem readsContent_of_fills {w : Text} (hw : OmitsClosing name w)
    (hfills : ∀ t, fillsDefault (w ++ t) = true) (s : Text) : ReadsContent name (w ++ s) true := by
  intro acc rest
  obtain ⟨content, behind, hsplit⟩ := exists_splitWhere? (w.reverse ++ acc)
    (List.suffix_append s (closing name ++ rest)) (closes_append name rest)
  refine ⟨w ++ content, behind, ?_, hfills content, fun h => by cases h⟩
  rw [List.append_assoc, splitWhere?_omits hw, hsplit, List.reverse_append, List.reverse_reverse,
    List.append_assoc]

end

/-- Whether the blocks of named slots among the children of an element of a name end where they seem
to: such a block has content, no closing bracket in its values, and neither the end of a `template`
nor that of the element within; other `template` tags show no slot directive. -/
def Markup.PlainBlocks (name : Text) : Markup → Prop
  | .text _ => True
  | .comment _ _ next => next.PlainBlocks name
  | .leaf _ o slash next =>
    (o.isTemplate = true → hasSlotDirective (o.between slash) = false) ∧ next.PlainBlocks name
  | .element _ o children next =>
    (o.isTemplate = true → hasSlotDirective (o.between false) = true →
      o.isSlotBlock = true ∧ (∀ v ∈ o.values, CodePoint.scalar '>' ∉ v.text) ∧
      ¬ closing name <:+: children.write ∧ ∀ t ∈ children.write.tails, closesTemplate t = false) ∧
    next.PlainBlocks name

instance Markup.decidablePlainBlocks (name : Text) : (c : Markup) → Decidable (c.PlainBlocks name)
  | .text _ => .isTrue trivial
  | .comment _ _ next => decidablePlainBlocks name next
  | .leaf _ _ _ next => @instDecidableAnd _ _ inferInstance (decidablePlainBlocks name next)
  | .element _ _ _ next => @instDecidableAnd _ _ inferInstance (decidablePlainBlocks name next)

/-- Comments and values hold no opening bracket. -/
structure Markup.Unbracketed (F : Markup) : Prop where
  comments : ∀ r ∈ F.comments, CodePoint.scalar '<' ∉ r
  values : ∀ o ∈ F.openings, ∀ v ∈ o.values, CodePoint.scalar '<' ∉ v.text

namespace Markup.Unbracketed

variable {b : Prose} {r : Remark} {o : Opening} {slash : Bool} {children next : Markup}

theorem of_comment (h : (Markup.comment b r next).Unbracketed) :
    CodePoint.scalar '<' ∉ r.val ∧ next.Unbracketed := by
  have hcomments := h.comments
  have hvalues := h.values
  simp only [Markup.comments, openings, List.forall_mem_cons] at hcomments hvalues
  exact ⟨hcomments.1, hcomments.2, hvalues⟩

theorem of_leaf (h : (Markup.leaf b o slash next).Unbracketed) :
    CodePoint.scalar '<' ∉ o.between slash ∧ next.Unbracketed := by
  have hvalues := h.values
  simp only [openings, List.forall_mem_cons] at hvalues
  exact ⟨Opening.bracket_notMem_between rfl hvalues.1, h.comments, hvalues.2⟩

theorem of_element (h : (Markup.element b o children next).Unbracketed) :
    CodePoint.scalar '<' ∉ o.between false ∧ children.Unbracketed ∧ next.Unbracketed := by
  have hcomments := h.comments
  have hvalues := h.values
  simp only [Markup.comments, openings, List.forall_mem_cons, List.forall_mem_append] at hcomments hvalues
  exact ⟨Opening.bracket_notMem_between rfl hvalues.1, ⟨hcomments.1, hvalues.2.1⟩,
    hcomments.2, hvalues.2.2⟩

end Markup.Unbracketed

/-- The search for the end of an element either ends at its own closing tag or has passed by a child
that fills the default slot, so what it finds fills the slot if and only if the children do. -/
theorem readsContent_children {name : Text} (hn : isTagName name = true)
    (htemplate : name.lowerAscii ≠ "template") {c : Markup} (hc : c.Unbracketed)
    (hblocks : c.PlainBlocks name) : ReadsContent name c.write c.fills := by
  have hprose : ∀ (b : Prose) {s : Text} {fills : Bool}, ReadsContent name s fills →
      ReadsContent name (b.val ++ s) (!Text.isBlank b.val || fills) := fun b s fills hs =>
    hs.append (omitsClosing_of_notMem b.property) (fillsDefault_prose b.property)
  induction c with
  | text t =>
    have h := hprose t readsContent_nil
    rwa [List.append_nil, Bool.or_false] at h
  | comment b r next ih =>
    obtain ⟨hr, hnext⟩ := hc.of_comment
    have h := (ih hnext hblocks).append (omitsClosing_comment hr) fun t =>
      (fillsDefault_comment r.property hr t).trans (Bool.false_or _).symm
    rw [Bool.false_or, List.append_assoc, List.append_assoc] at h
    exact hprose b h
  | leaf b o slash next ih =>
    have hblock : o.isSlotBlock = false := by
      by_contra hblock
      rw [Bool.not_eq_false] at hblock
      have hdirective := hblocks.1 (Bool.and_eq_true_iff.1 hblock).1
      rw [hasSlotDirective_of_isSlotBlock hblock] at hdirective
      cases hdirective
    have h := hprose b (readsContent_of_fills (omitsClosing_write hc.of_leaf.1)
      (fillsDefault_element hblocks.1) next.write)
    rw [Markup.fills, hblock]
    exact h
  | element b o children next _ ih =>
    obtain ⟨hbetween, -, hnext⟩ := hc.of_element
    -- a block is passed by, with its content; anything else fills the slot
    by_cases hdirective : o.isTemplate = true ∧ hasSlotDirective (o.between false) = true
    · obtain ⟨hblock, hvalues, hclosing, hends⟩ := hblocks.1 hdirective.1 hdirective.2
      have hne : name ≠ o.name := by
        rintro rfl
        exact htemplate (of_decide_eq_true hdirective.1)
      have homits := (omitsClosing_write hbetween).append
        (omitsClosing_content hn o.isTagName_name hne hclosing)
      have h := (ih hnext hblocks.2).append homits fun t => by
        rw [List.append_assoc, List.append_assoc, fillsDefault_block hdirective.1 hdirective.2
          (Opening.bracket_notMem_between rfl hvalues) hends]
        exact (Bool.false_or _).symm
      rw [Bool.false_or, List.append_assoc, List.append_assoc] at h
      rw [Markup.fills, hblock]
      exact hprose b h
    · have hblock : o.isSlotBlock = false := by
        by_contra hblock
        rw [Bool.not_eq_false] at hblock
        exact hdirective ⟨(Bool.and_eq_true_iff.1 hblock).1, hasSlotDirective_of_isSlotBlock hblock false⟩
      have h := hprose b (readsContent_of_fills (omitsClosing_write hbetween)
        (fillsDefault_element fun ht => by
          rw [Bool.eq_false_iff]
          exact fun hd => hdirective ⟨ht, hd⟩) (children.write ++ (closing o.name ++ next.write)))
      rw [Markup.fills, hblock]
      exact h

/-! ## The search for content -/

/-- What stands behind the rest of an opening tag. -/
def behindTag? : Text → Option Text
  | [] => none
  | p :: t => behindWord? ">" (if p.isBlank then (p :: t).dropWhile (!isBracket ·) else p :: t)

theorem tagContent_eq (name : Text) (previous : Option CodePoint) (t : Text) :
    tagContent name previous t = (Text.dropStart? t (.scalar '<' :: name)).bind fun rest =>
      (behindTag? rest).bind fun rest => (splitWhere? (closes name) [] rest).map fun m =>
        (m.1, t.length - m.2.length + (closing name).length) := by
  unfold tagContent
  cases Text.dropStart? t (.scalar '<' :: name) with
  | none => rfl
  | some rest =>
    cases rest with
    | nil => rfl
    | cons p rest =>
      simp only [Option.bind_eq_bind, Option.bind_some, behindTag?]
      cases behindWord? ">" (if p.isBlank then (p :: rest).dropWhile (!isBracket ·) else p :: rest) with
      | none => rfl
      | some rest =>
        have hclosing : Text.ofString "</" ++ name ++ Text.ofString ">" = closing name := rfl
        simp only [Option.bind_some, hclosing]
        change (splitWhere? (closes name) [] rest).bind _ = _
        cases splitWhere? (closes name) [] rest <;> rfl

section
variable {name : Text} (hn : isTagName name = true)
include hn

theorem beginsMarkup_tagContent : BeginsMarkup (tagContent name) := by
  obtain ⟨c, more, rfl, hc, -⟩ := exists_of_isTagName hn
  have hletter : ∀ d, d.isAlpha = false → CodePoint.scalar d ≠ .scalar c := by
    intro d hd h
    rw [← CodePoint.scalar.inj h, hd] at hc
    cases hc
  have hnone : ∀ d t, d.isAlpha = false →
      Text.dropStart? (.scalar '<' :: .scalar d :: t) (.scalar '<' :: .scalar c :: more) = none :=
    fun d t hd => if_neg (hletter d hd)
  refine ⟨fun _ _ => rfl, fun p hp t => ?_, fun t => ?_, fun t => ?_⟩
  · have hstart : Text.dropStart? (p :: t) (.scalar '<' :: .scalar c :: more) = none := if_neg hp
    rw [tagContent_eq, hstart]
    rfl
  · rw [tagContent_eq, hnone '/' t rfl]
    rfl
  · rw [tagContent_eq, hnone '!' t rfl]
    rfl

/-- A tag of another name begins no content. -/
theorem tagContent_other {o : Opening} (hne : o.name ≠ name) (slash : Bool) (rest : Text) :
    tagContent name none (o.write slash ++ rest) = none := by
  obtain ⟨q, u, hq⟩ := List.exists_cons_of_ne_nil
    (List.append_ne_nil_of_right_ne_nil (o.between slash) (List.cons_ne_nil (CodePoint.scalar '>') rest))
  have hdelimits := o.delimits_head_between slash rest q (by rw [hq]; rfl)
  have hstart : Text.dropStart? (.scalar '<' :: (o.name ++ q :: u)) (.scalar '<' :: name) =
      (Text.dropStart? o.name name).map (· ++ q :: u) := by
    refine Text.dropStart?_append_cons (fun hm => ?_) o.name u
    rw [not_delimits_of_isTagName hn q hm] at hdelimits
    cases hdelimits
  rw [o.write_append, hq, tagContent_eq, hstart]
  cases h : Text.dropStart? o.name name with
  | none => rfl
  | some r =>
    have hname := Text.dropStart?_eq_some.1 h
    rcases r with _ | ⟨c, r⟩
    · exact absurd (by rw [hname, List.append_nil]) hne
    · have hc := not_delimits_of_isTagName o.isTagName_name c (by rw [hname]; simp)
      have hend : behindWord? ">" (c :: (r ++ q :: u)) = none := by
        refine if_neg ?_
        rintro rfl
        exact absurd hc (by decide)
      simp only [Option.map_some, Option.bind_some, List.cons_append, behindTag?,
        not_isBlank_of_delimits hc, Bool.false_eq_true, if_false, hend, Option.bind_none]

omit hn in
/-- Where no closing tag follows there is no content. -/
theorem tagContent_unclosed {t : Text} (h : ¬ closing name <:+: t) : tagContent name none t = none := by
  have hsuffix : ∀ r s : Text, behindTag? r = some s → s <:+ r := by
    intro r s hs
    cases r with
    | nil => cases hs
    | cons p r =>
      rw [behindTag?, behindWord?, Text.dropStart?_eq_some] at hs
      have hbehind : s <:+ if p.isBlank then (p :: r).dropWhile (!isBracket ·) else p :: r :=
        hs ▸ List.suffix_append _ _
      split at hbehind
      · exact hbehind.trans (List.dropWhile_suffix _)
      · exact hbehind
  rw [tagContent_eq, Option.bind_eq_none_iff]
  intro r hr
  rw [Option.bind_eq_none_iff]
  intro s hs
  rw [splitWhere?_eq_none [] fun u hu => ?_]
  · rfl
  · rw [Bool.eq_false_iff, ne_eq, closes, Text.startsWith_iff]
    intro hfront
    have ht : r <:+ t := Text.dropStart?_eq_some.1 hr ▸ List.suffix_append _ _
    exact h (hfront.isInfix.trans (hu.trans ((hsuffix r s hs).trans ht)).isInfix)

omit hn in
/-- Behind an opening tag of the name, whose values hold no brackets, content is searched for. -/
theorem tagContent_write {o : Opening} (ho : o.name = name)
    (hbrackets : ∀ p ∈ o.between false, isBracket p = false) {s : Text} {fills : Bool}
    (hs : ReadsContent name s fills) (rest : Text) :
    ∃ content behind, tagContent name none (o.write false ++ (s ++ (closing name ++ rest))) =
        some (content, (o.write false ++ (s ++ (closing name ++ rest))).length - behind.length +
          (closing name).length) ∧
      fillsDefault content = fills ∧ (fills = false → content = s ∧ behind = closing name ++ rest) := by
  obtain ⟨content, behind, hsplit, hfills⟩ := hs [] rest
  have hbehind : behindTag? (o.between false ++ .scalar '>' :: (s ++ (closing name ++ rest))) =
      some (s ++ (closing name ++ rest)) := by
    have hend := behindWord?_append ">" (s ++ (closing name ++ rest))
    rcases o.between_cases false with h | ⟨h, -⟩ | ⟨p, t, h, hp⟩
    · rw [h]
      exact hend
    · cases h
    · rw [h] at hbrackets ⊢
      rw [List.cons_append, behindTag?, if_pos hp, ← List.cons_append,
        dropWhile_append (fun c hc => by rw [hbrackets c hc]; rfl) fun c hc => by cases hc; rfl]
      exact hend
  have hstart : Text.dropStart? (o.write false ++ (s ++ (closing name ++ rest))) (.scalar '<' :: name) =
      some (o.between false ++ .scalar '>' :: (s ++ (closing name ++ rest))) := by
    rw [o.write_append, ho, ← List.cons_append, Text.dropStart?_append]
  refine ⟨content, behind, ?_, hfills⟩
  rw [tagContent_eq, hstart, Option.bind_some, hbehind, Option.bind_some, hsplit]
  rfl

end

/-! ## Elements of a name -/

/-- Whether the tags of a name are paired as they seem, in a template with something behind it: what is
between the tags of an element is plain, its values hold no closing bracket, and no closing tag of the
name follows an element without content, or there is only a slash behind its name. -/
def Markup.Paired (name : Text) : Markup → Text → Prop
  | .text _, _ => True
  | .comment _ _ next, behind => next.Paired name behind
  | .leaf _ o slash next, behind =>
    (o.name = name → o.between slash = [.scalar '/'] ∨ ¬ closing name <:+: next.write ++ behind) ∧
      next.Paired name behind
  | .element _ o children next, behind =>
    (if o.name = name then
      children.PlainBlocks name ∧ ∀ v ∈ o.values, CodePoint.scalar '>' ∉ v.text
    else children.Paired name (closing o.name ++ (next.write ++ behind))) ∧ next.Paired name behind

instance Markup.decidablePaired (name : Text) : (F : Markup) → (behind : Text) →
    Decidable (F.Paired name behind)
  | .text _, _ => .isTrue trivial
  | .comment _ _ next, behind => decidablePaired name next behind
  | .leaf _ _ _ next, behind => @instDecidableAnd _ _ inferInstance (decidablePaired name next behind)
  | .element _ o children next, behind =>
    have := decidablePaired name children (closing o.name ++ (next.write ++ behind))
    @instDecidableAnd _ _ inferInstance (decidablePaired name next behind)

theorem closing_infix_write {F : Markup} {e : Opening × Markup} (he : e ∈ F.elements) :
    closing e.1.name <:+: F.write := by
  induction F with
  | text t => cases he
  | comment b r next ih =>
    refine (ih he).trans (List.IsSuffix.isInfix ?_)
    simp only [Markup.write, ← List.append_assoc]
    exact List.suffix_append _ _
  | leaf b o slash next ih =>
    refine (ih he).trans (List.IsSuffix.isInfix ?_)
    simp only [Markup.write, ← List.append_assoc]
    exact List.suffix_append _ _
  | element b o children next ihc ih =>
    simp only [Markup.elements, List.mem_cons, List.mem_append] at he
    simp only [Markup.write]
    rcases he with rfl | he | he
    · exact ⟨b.val ++ o.write false ++ children.write, next.write, by simp⟩
    · exact (ihc he).trans ⟨b.val ++ o.write false, closing o.name ++ next.write, by simp⟩
    · exact (ih he).trans ⟨b.val ++ o.write false ++ children.write ++ closing o.name, [], by simp⟩

/-- Within blocks that are plain there is no element of the name. -/
theorem ne_name_of_not_fills {name : Text} (htemplate : name.lowerAscii ≠ "template") {c : Markup}
    (hblocks : c.PlainBlocks name) (hfills : c.fills = false) {e : Opening × Markup}
    (he : e ∈ c.elements) : e.1.name ≠ name := by
  induction c with
  | text t => cases he
  | comment b r next ih => exact ih hblocks (Bool.or_eq_false_iff.1 hfills).2 he
  | leaf b o slash next ih =>
    exact ih hblocks.2 (Bool.or_eq_false_iff.1 (Bool.or_eq_false_iff.1 hfills).2).2 he
  | element b o children next _ ih =>
    obtain ⟨hblock, hnext⟩ := Bool.or_eq_false_iff.1 (Bool.or_eq_false_iff.1 hfills).2
    rw [Bool.not_eq_false'] at hblock
    have ho := (Bool.and_eq_true_iff.1 hblock).1
    obtain ⟨-, -, hclosing, -⟩ := hblocks.1 ho (hasSlotDirective_of_isSlotBlock hblock false)
    simp only [Markup.elements, List.mem_cons, List.mem_append] at he
    rcases he with rfl | he | he
    · rintro rfl
      exact htemplate (of_decide_eq_true ho)
    · rintro rfl
      exact hclosing (closing_infix_write he)
    · exact ih hblocks.2 hnext he

/-- From the opening tag of an element of the name the search finds content for the slot if the
children have it, and goes on behind the element if they do not. -/
theorem any_tagContent_element {name : Text} (hn : isTagName name = true)
    (htemplate : name.lowerAscii ≠ "template") {o : Opening} (ho : o.name = name)
    (hopening : CodePoint.scalar '<' ∉ o.between false)
    (hvalues : ∀ v ∈ o.values, CodePoint.scalar '>' ∉ v.text) {children : Markup}
    (hchildren : children.Unbracketed) (hblocks : children.PlainBlocks name) (rest : Text) :
    (all (tagContent name) none 0 (o.write false ++ (children.write ++ (closing name ++ rest)))).any
        fillsDefault =
      (children.fills || (all (tagContent name) none 0 rest).any fillsDefault) := by
  have hbrackets : ∀ p ∈ o.between false, isBracket p = false := by
    intro p hm
    simp only [isBracket, Bool.or_eq_false_iff, decide_eq_false_iff_not]
    constructor <;> rintro rfl
    · exact hopening hm
    · exact Opening.bracket_notMem_between rfl hvalues hm
  have hne : o.write false ++ (children.write ++ (closing name ++ rest)) ≠ [] :=
    List.append_ne_nil_of_left_ne_nil (o.write_ne_nil false) _
  obtain ⟨content, behind, hmatch, hfills, hwhole⟩ := tagContent_write ho hbrackets
    (readsContent_children hn htemplate hchildren hblocks) rest
  cases hslot : children.fills with
  | true =>
    obtain ⟨contents, hall⟩ := exists_all_of_match hne hmatch
    rw [hall, List.any_cons, hfills, hslot, Bool.true_or, Bool.true_or]
  | false =>
    obtain ⟨rfl, rfl⟩ := hwhole hslot
    have hwrite : o.write false ++ (children.write ++ (closing name ++ rest)) =
        o.write false ++ (children.write ++ closing name) ++ rest := by
      simp only [List.append_assoc]
    have hlength : (o.write false ++ (children.write ++ closing name) ++ rest).length -
        (closing name ++ rest).length + (closing name).length =
        (o.write false ++ (children.write ++ closing name)).length := by
      simp only [List.length_append]
      omega
    rw [hwrite, hlength] at hmatch
    rw [hwrite, all_match (beginsMarkup_tagContent hn).blind
      (List.append_ne_nil_of_left_ne_nil (o.write_ne_nil false) _) hmatch, List.any_cons, hfills, hslot]

/-- From a tag that has no content the search goes on behind it. -/
theorem tagContent_leaf {name : Text} (hn : isTagName name = true) {o : Opening} {slash : Bool}
    (hopening : CodePoint.scalar '<' ∉ o.between slash) {rest : Text}
    (hpaired : o.name = name → o.between slash = [.scalar '/'] ∨ ¬ closing name <:+: rest) :
    tagContent name none (o.write slash ++ rest) = none := by
  by_cases ho : o.name = name
  · rcases hpaired ho with hslash | hclosing
    · have hstart : Text.dropStart? (o.write slash ++ rest) (.scalar '<' :: name) =
          some ([.scalar '/'] ++ .scalar '>' :: rest) := by
        rw [o.write_append, ho, hslash, ← List.cons_append, Text.dropStart?_append]
      rw [tagContent_eq, hstart]
      rfl
    · exact tagContent_unclosed fun h => hclosing ((omitsClosing_write hopening).infix_rest h)
  · exact tagContent_other hn ho slash _

/-- The search finds content for the default slot if and only if some element of the name has it. -/
theorem any_tagContent {name : Text} (hn : isTagName name = true)
    (htemplate : name.lowerAscii ≠ "template") {F : Markup} (hF : F.Unbracketed) {behind : Text}
    (hpaired : F.Paired name behind) :
    (all (tagContent name) none 0 (F.write ++ behind)).any fillsDefault =
      (F.elements.any (fun e => e.1.name = name && e.2.fills) ||
        (all (tagContent name) none 0 behind).any fillsDefault) := by
  have hp := beginsMarkup_tagContent hn
  induction F generalizing behind with
  | text t =>
    rw [Markup.write, hp.all_prose t.property]
    rfl
  | comment b r next ih =>
    obtain ⟨hr, hnext⟩ := hF.of_comment
    simp only [Markup.write, List.append_assoc]
    rw [hp.all_prose b.property, hp.all_comment hr]
    exact ih hnext hpaired
  | leaf b o slash next ih =>
    obtain ⟨hopening, hnext⟩ := hF.of_leaf
    simp only [Markup.write, List.append_assoc]
    rw [hp.all_prose b.property, hp.all_write_of_none hopening (tagContent_leaf hn hopening hpaired.1)]
    exact ih hnext hpaired.2
  | element b o children next ihc ih =>
    obtain ⟨hopening, hchildren, hnext⟩ := hF.of_element
    have hinside := hpaired.1
    simp only [Markup.write, Markup.elements, List.append_assoc, List.any_cons, List.any_append]
    rw [hp.all_prose b.property]
    by_cases ho : o.name = name
    · rw [if_pos ho] at hinside
      rw [ho, any_tagContent_element hn htemplate ho hopening hinside.2 hchildren hinside.1,
        ih hnext hpaired.2]
      -- elements of the name among the children count only if the children fill the slot themselves
      cases hslot : children.fills with
      | true => simp
      | false =>
        have hnone : children.elements.any (fun e => e.1.name = name && e.2.fills) = false := by
          rw [List.any_eq_false]
          intro e he
          simp [ne_name_of_not_fills htemplate hinside.1 hslot he]
        simp [hnone]
    · rw [if_neg ho] at hinside
      rw [hp.all_write_of_none hopening (tagContent_other hn ho false _), ihc hchildren hinside,
        hp.all_closing (lt_notMem_of_isTagName o.isTagName_name), ih hnext hpaired.2]
      simp [ho, Bool.or_assoc]

end SurfaceCoverage.Template
