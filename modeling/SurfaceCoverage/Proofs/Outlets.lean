import SurfaceCoverage.Proofs.Pieces
/-!
# Outlets and what their attributes say

The slot of an outlet is found by two searches through its attributes, one for a bound name and one
for a static name. Both look behind blanks alone, so they see attributes' names and, in values, what
stands behind a blank. If no value imitates a name there, the searches find what the attributes say
(`first_attributes`), and a template renders the slots that its outlets say, each once and in
document order.
-/

namespace SurfaceCoverage.Template

open Scan

/-! ## What is said -/

namespace Attribute

/-- Whether an attribute binds the name of an outlet to an expression. -/
def bindsName (a : Attribute) : Bool := (a.name = ":name" || a.name = "v-bind:name") && a.value.isSome

/-- The name that an attribute gives to an outlet. -/
def givenName? (a : Attribute) : Option Text := if a.name = "name" then a.value.map Value.text else none

end Attribute

/-- The slot that an outlet says it stands for: none if its name is bound. -/
def Opening.slot? (o : Opening) : Option Text :=
  if o.attributes.any Attribute.bindsName then none
  else some ((o.attributes.findSome? Attribute.givenName?).getD defaultSlot)

/-! ## What imitates a name -/

/-- What is left behind a name and its equals sign. -/
def behindName? (w : String) (t : Text) : Option Text :=
  (behindWord? w t).bind fun rest => behindWord? "=" (dropBlanks rest)

/-- Whether a text begins as a bound name does, or as a static name up to its quotation mark. -/
def beginsAsName (t : Text) : Bool :=
  (behindName? "v-bind:name" t).isSome || (behindName? ":name" t).isSome ||
    (behindName? "name" t).any fun rest => (dropBlanks rest).head?.all isQuote

/-- Whether behind a blank in a value there stands what reads as a name. -/
def imitatesName : Text → Bool
  | [] => false
  | c :: t => c.isBlank && beginsAsName t || imitatesName t

/-- An attribute that is read as it says: its value holds no closing bracket and imitates no name,
and a static name is not empty and holds no quotation mark. -/
def Attribute.isLegible (a : Attribute) : Bool :=
  a.value.all fun v => !v.text.contains (.scalar '>') && !imitatesName v.text &&
    (a.name != "name" || (!v.text.isEmpty && v.text.all (!isQuote ·)))

theorem beginsAsName_of_suffix {s : Text} (h : imitatesName s = false) {c : CodePoint} {t : Text}
    (hs : c :: t <:+ s) (hc : c.isBlank = true) : beginsAsName t = false := by
  induction s with
  | nil => simp at hs
  | cons d s ih =>
    simp only [imitatesName, Bool.or_eq_false_iff, Bool.and_eq_false_imp] at h
    rcases List.suffix_cons_iff.1 hs with hs | hs
    · cases hs
      exact h.1 hc
    · exact ih h.2 hs

/-! ## Names with their equals signs -/

theorem dropBlanks_append_quote {q : CodePoint} (hq : isQuote q = true) (t rest : Text) :
    dropBlanks (t ++ q :: rest) = dropBlanks t ++ q :: rest := by
  induction t with
  | nil => exact dropBlanks_cons (not_isBlank_of_isQuote hq) rest
  | cons c t ih =>
    cases hc : c.isBlank with
    | false => rw [List.cons_append, dropBlanks_cons hc, dropBlanks_cons hc, List.cons_append]
    | true => simpa [dropBlanks, hc] using ih

theorem behindName?_cons_delimiter {w : String} (hw : ∀ c ∈ Text.ofString w, delimits c = false)
    (hne : Text.ofString w ≠ []) {c : CodePoint} (hc : delimits c = true) (t : Text) :
    behindName? w (c :: t) = none := by
  obtain ⟨d, more, hd⟩ := List.exists_cons_of_ne_nil hne
  have hnil : behindWord? w [] = none := by rw [behindWord?, hd, Text.dropStart?]
  have h := behindWord?_append_delimiter hw hc [] t
  rw [List.nil_append, hnil] at h
  rw [behindName?, h]
  rfl

theorem behindName?_append_quote {w : String} (hw : ∀ c ∈ Text.ofString w, delimits c = false)
    {q : CodePoint} (hq : isQuote q = true) (t rest : Text) :
    behindName? w (t ++ q :: rest) = (behindName? w t).map (· ++ q :: rest) := by
  have hequals : q ∉ Text.ofString "=" := by
    intro h
    rw [List.mem_singleton.1 h] at hq
    exact absurd hq (by decide)
  unfold behindName?
  rw [behindWord?_append_delimiter hw (delimits_of_isQuote hq)]
  cases behindWord? w t with
  | none => rfl
  | some r =>
    simp only [Option.map_some, Option.bind_some]
    rw [dropBlanks_append_quote hq]
    exact Text.dropStart?_append_cons hequals _ _

/-- A name with an equals sign is found at an attribute only if it is the attribute's name, and
there is a value behind it. -/
theorem behindName?_write {w : String} (hw : ∀ c ∈ Text.ofString w, delimits c = false) (a : Attribute)
    {rest : Text} (hrest : ∀ c ∈ rest.head?, delimits c = true)
    (he : (dropBlanks rest).head? ≠ some (.scalar '=')) :
    behindName? w (a.name ++ (a.assigned ++ rest)) = if a.name = w then
      a.value.map fun v => v.after.val ++ v.quote.mark :: (v.text ++ v.quote.mark :: rest) else none := by
  have hnone : ∀ t : Text, (t.head? ≠ some (.scalar '=')) → behindWord? "=" t = none := by
    intro t ht
    rcases t with _ | ⟨c, t⟩
    · rfl
    · simp only [List.head?_cons, ne_eq, Option.some.injEq] at ht
      exact if_neg ht
  rw [behindName?, behindWord?_append_of_head hw _ (a.delimits_head_assigned hrest)]
  rcases a.behindWord?_name w with ⟨hname, h⟩ | ⟨hname, h | ⟨c, r, h, hc⟩⟩
  · rw [if_pos hname, h, Option.map_some, Option.bind_some, List.nil_append, Attribute.assigned]
    cases a.value with
    | none => exact hnone _ he
    | some v =>
      simp only [Option.map_some, Option.getD_some, Value.write, List.append_assoc, List.cons_append,
        List.nil_append]
      rw [dropBlanks_append v.before.property, dropBlanks_cons rfl]
      exact behindWord?_append "=" _
  · rw [if_neg hname, h]
    rfl
  · rw [if_neg hname, h, Option.map_some, Option.bind_some, List.cons_append,
      dropBlanks_cons (not_isBlank_of_delimits hc)]
    refine hnone _ fun h => ?_
    rw [Option.some.inj h] at hc
    exact absurd hc (by decide)

/-! ## A search through the attributes -/

/-- A pattern that looks behind blanks for attributes by their names: at a legible attribute it finds
what `said` tells, and in a legible value nothing. -/
structure ReadsNames {β : Type} (p : Pattern CodePoint β) (said : Attribute → Option β) : Prop where
  ends : ∀ previous, p previous [] = none
  begins : ∀ c t, c.isBlank = false → p (some c) t = none
  avoids : ∀ previous c t, delimits c = true → p previous (c :: t) = none
  name : ∀ c a rest, c.isBlank = true → a.isLegible = true → (∀ d ∈ rest.head?, delimits d = true) →
    (dropBlanks rest).head? ≠ some (.scalar '=') →
    (p (some c) (a.name ++ (a.assigned ++ rest))).map (·.1) = said a
  value : ∀ c q t rest, c.isBlank = true → isQuote q = true → beginsAsName t = false →
    p (some c) (t ++ q :: rest) = none

section
variable {β : Type} {p : Pattern CodePoint β} {said : Attribute → Option β} (hp : ReadsNames p said)
include hp

theorem ReadsNames.misses_delimiters {s : Text} (hs : ∀ c ∈ s, delimits c = true)
    (previous : Option CodePoint) (rest : Text) : Misses p previous s rest :=
  misses_of_avoids (fun c hc previous as => hp.avoids previous c as (hs c hc)) previous rest

theorem ReadsNames.misses_name {s : Text} (hs : ∀ c ∈ s, delimits c = false) {c : CodePoint}
    (hc : c.isBlank = false) (rest : Text) : Misses p (some c) s rest := by
  induction s generalizing c with
  | nil => trivial
  | cons d s ih =>
    have hs' := fun e he => hs e (List.mem_cons_of_mem d he)
    exact ⟨hp.begins c _ hc, ih hs' (not_isBlank_of_delimits (hs d List.mem_cons_self))⟩

/-- In a value that imitates no name nothing is found. The induction knows of the element before the
place that, if it is a blank, it is one of the value. -/
theorem ReadsNames.misses_value {t : Text} (ht : imitatesName t = false) {q : CodePoint}
    (hq : isQuote q = true) (rest : Text) : Misses p (some q) t (q :: rest) := by
  suffices h : ∀ s c, s <:+ t → (c.isBlank = true → c :: s <:+ t) → Misses p (some c) s (q :: rest) by
    refine h t q (List.suffix_refl t) fun hb => ?_
    rw [not_isBlank_of_isQuote hq] at hb
    cases hb
  intro s
  induction s with
  | nil => exact fun _ _ _ => trivial
  | cons d s ih =>
    intro c hs hc
    refine ⟨?_, ih d ((List.suffix_cons d s).trans hs) fun _ => hs⟩
    cases hb : c.isBlank with
    | false => exact hp.begins c _ hb
    | true => exact hp.value c q (d :: s) rest hb hq (beginsAsName_of_suffix ht (hc hb) hb)

theorem ReadsNames.misses_assigned {a : Attribute} (ha : a.isLegible = true)
    (previous : Option CodePoint) (rest : Text) : Misses p previous a.assigned rest := by
  unfold Attribute.isLegible at ha
  unfold Attribute.assigned
  cases hv : a.value with
  | none => trivial
  | some v =>
    simp only [hv, Option.all_some, Bool.and_eq_true, Bool.not_eq_true'] at ha
    have hquote := delimits_of_isQuote v.quote.isQuote_mark
    have hfront : ∀ c ∈ v.before.val ++ .scalar '=' :: v.after.val, delimits c = true := by
      intro c hc
      simp only [List.mem_append, List.mem_cons] at hc
      rcases hc with hc | rfl | hc
      · exact delimits_of_isBlank (v.before.property c hc)
      · rfl
      · exact delimits_of_isBlank (v.after.property c hc)
    have hwrite : v.write =
        v.before.val ++ .scalar '=' :: v.after.val ++ v.quote.mark :: (v.text ++ [v.quote.mark]) := by
      simp [Value.write]
    rw [Option.map_some, Option.getD_some, hwrite, misses_append]
    refine ⟨hp.misses_delimiters hfront _ _, hp.avoids _ _ _ hquote, ?_⟩
    rw [misses_append]
    refine ⟨hp.misses_value ha.1.2 v.quote.isQuote_mark rest, ?_⟩
    exact hp.misses_delimiters (fun c hc => by rw [List.mem_singleton.1 hc]; exact hquote) _ _

/-- The search finds what the first attribute says that says something. -/
theorem ReadsNames.first_attributes {as : List Attribute} (has : ∀ a ∈ as, a.isLegible = true)
    {ending : Text} (hends : ∀ c ∈ ending, delimits c = true)
    (he : (dropBlanks ending).head? ≠ some (.scalar '=')) (previous : Option CodePoint) :
    firstFrom p previous (as.flatMap Attribute.write ++ ending) = as.findSome? said := by
  have hends' : ∀ previous, firstFrom p previous ending = none := by
    intro previous
    have h := firstFrom_misses (hp.misses_delimiters hends previous [])
    rw [List.append_nil] at h
    rw [h, firstFrom, hp.ends]
    rfl
  induction as generalizing previous with
  | nil => exact hends' previous
  | cons a as ih =>
    have ha := has a List.mem_cons_self
    have hhead := delimits_head_attributes as fun c hc => hends c (List.mem_of_head? hc)
    have hequals := equals_notBehind_attributes as he
    obtain ⟨b, hb, hlast⟩ := exists_lastOf a.gap.property.1 previous
    have hname := hp.name b a _ (a.gap.property.2 b hb) ha hhead hequals
    simp only [List.flatMap_cons, Attribute.write, List.append_assoc]
    have hgap := fun c hc => delimits_of_isBlank (a.gap.property.2 c hc)
    rw [firstFrom_misses (hp.misses_delimiters hgap _ _),
      hlast, List.findSome?_cons, ← hname]
    obtain ⟨n, ns, hn⟩ := List.exists_cons_of_ne_nil a.name_ne_nil
    have hdelimits := a.not_delimits_name
    rw [hn] at hdelimits ⊢
    rw [List.cons_append, firstFrom]
    cases p (some b) (n :: (ns ++ (a.assigned ++ (as.flatMap Attribute.write ++ ending)))) with
    | some m => rfl
    | none =>
      have hnames := hp.misses_name (fun c hc => hdelimits c (List.mem_cons_of_mem n hc))
        (not_isBlank_of_delimits (hdelimits n List.mem_cons_self))
        (a.assigned ++ (as.flatMap Attribute.write ++ ending))
      simp only [Option.map_none]
      rw [firstFrom_misses hnames, firstFrom_misses (hp.misses_assigned ha _ _)]
      exact ih (fun c hc => has c (List.mem_cons_of_mem a hc)) _

end

/-! ## The two searches of an outlet -/

theorem boundName_eq (previous : Option CodePoint) (t : Text) : boundName previous t =
    if attributeBegins previous then
      ((behindName? "v-bind:name" t).or (behindName? ":name" t)).map fun _ => ((), 1)
    else none := by
  -- only one of the two words can stand in front, so it does not matter which is tried first
  have hone : ∀ r, behindWord? "v-bind:name" t = some r → behindWord? ":name" t = none := by
    intro r hr
    rw [behindWord?, Text.dropStart?_eq_some] at hr
    rw [hr]
    rfl
  unfold boundName behindName?
  cases attributeBegins previous with
  | false => rfl
  | true =>
    cases h : behindWord? "v-bind:name" t with
    | none =>
      cases behindWord? ":name" t with
      | none => rfl
      | some r => cases hequals : behindWord? "=" (dropBlanks r) <;> simp [hequals]
    | some r => cases hequals : behindWord? "=" (dropBlanks r) <;> simp [hone r h, hequals]

/-- The text in quotation marks of either kind behind blanks. -/
def quotedText? (t : Text) : Option (Text × Nat) :=
  match dropBlanks t with
  | [] => none
  | q :: rest =>
    let (value, rest) := rest.span (!isQuote ·)
    if isQuote q && !value.isEmpty && !rest.isEmpty then some (value, 1) else none

theorem staticName_eq (previous : Option CodePoint) (t : Text) : staticName previous t =
    if attributeBegins previous then (behindName? "name" t).bind quotedText? else none := by
  unfold staticName behindName?
  cases attributeBegins previous with
  | false => rfl
  | true =>
    cases behindWord? "name" t with
    | none => rfl
    | some r => rfl

theorem quotedText?_eq_some {v : Value} (hne : v.text ≠ []) (hquotes : ∀ c ∈ v.text, isQuote c = false)
    (rest : Text) : quotedText? (v.after.val ++ v.quote.mark :: (v.text ++ v.quote.mark :: rest)) =
      some (v.text, 1) := by
  have hblanks : dropBlanks (v.after.val ++ v.quote.mark :: (v.text ++ v.quote.mark :: rest)) =
      v.quote.mark :: (v.text ++ v.quote.mark :: rest) := by
    rw [dropBlanks_append v.after.property, dropBlanks_cons (not_isBlank_of_isQuote v.quote.isQuote_mark)]
  have htext : ∀ c ∈ v.text, (!isQuote c) = true := fun c hc => by rw [hquotes c hc]; rfl
  have hquote : ∀ c ∈ (v.quote.mark :: rest).head?, (!isQuote c) = false := fun c hc => by
    cases hc
    rw [v.quote.isQuote_mark]
    rfl
  unfold quotedText?
  simp only [hblanks, span_append htext hquote, v.quote.isQuote_mark]
  simp [hne]

theorem readsNames_boundName :
    ReadsNames boundName fun a => if a.bindsName then some () else none where
  ends previous := by
    rw [boundName_eq]
    exact ite_self none
  begins c t hc := by
    rw [boundName_eq, attributeBegins, Option.all_some, hc]
    rfl
  avoids previous c t hc := by
    rw [boundName_eq, behindName?_cons_delimiter (by decide) (by decide) hc,
      behindName?_cons_delimiter (by decide) (by decide) hc]
    exact ite_self none
  name c a rest hc _ hrest he := by
    have hdistinct : ¬((":name" : Text) = ("v-bind:name" : Text)) := by decide
    rw [boundName_eq, attributeBegins, Option.all_some, hc, if_pos rfl,
      behindName?_write (by decide) a hrest he, behindName?_write (by decide) a hrest he]
    unfold Attribute.bindsName
    by_cases h1 : a.name = "v-bind:name"
    · simp only [h1, if_true]
      cases a.value <;> simp
    · by_cases h2 : a.name = ":name"
      · simp only [h2, if_true]
        cases a.value <;> simp [hdistinct]
      · simp [h1, h2]
  value c q t rest hc hq ht := by
    simp only [beginsAsName, Bool.or_eq_false_iff, Option.isSome_eq_false_iff,
      Option.isNone_iff_eq_none] at ht
    rw [boundName_eq, behindName?_append_quote (by decide) hq,
      behindName?_append_quote (by decide) hq, ht.1.1, ht.1.2]
    exact ite_self none

theorem readsNames_staticName : ReadsNames staticName Attribute.givenName? where
  ends previous := by
    rw [staticName_eq]
    exact ite_self none
  begins c t hc := by
    rw [staticName_eq, attributeBegins, Option.all_some, hc]
    rfl
  avoids previous c t hc := by
    rw [staticName_eq, behindName?_cons_delimiter (by decide) (by decide) hc]
    exact ite_self none
  name c a rest hc ha hrest he := by
    rw [staticName_eq, attributeBegins, Option.all_some, hc, if_pos rfl,
      behindName?_write (by decide) a hrest he, Attribute.givenName?]
    by_cases hname : a.name = "name"
    · rw [if_pos hname, if_pos hname]
      unfold Attribute.isLegible at ha
      cases hv : a.value with
      | none => rfl
      | some v =>
        simp only [hv, hname, Option.all_some, Bool.and_eq_true, Bool.or_eq_true, List.all_eq_true,
          Bool.not_eq_true', List.isEmpty_eq_false_iff, bne_self_eq_false, Bool.false_eq_true,
          false_or] at ha
        rw [Option.map_some, Option.bind_some, quotedText?_eq_some ha.2.1 ha.2.2]
        rfl
    · rw [if_neg hname, if_neg hname]
      rfl
  value c q t rest hc hq ht := by
    simp only [beginsAsName, Bool.or_eq_false_iff] at ht
    rw [staticName_eq, behindName?_append_quote (by decide) hq]
    cases hname : behindName? "name" t with
    | none => exact ite_self none
    | some r =>
      have hr := ht.2
      rw [hname, Option.any_some] at hr
      rcases hd : dropBlanks r with _ | ⟨d, ds⟩ <;> rw [hd] at hr
      · cases hr
      · rw [List.head?_cons, Option.all_some] at hr
        simp only [Option.map_some, Option.bind_some, quotedText?, dropBlanks_append_quote hq, hd,
          List.cons_append, hr, Bool.false_and, Bool.false_eq_true, if_false, ite_self]

/-! ## Outlets -/

theorem beginsMarkup_outlet : BeginsMarkup outlet where
  blind _ _ := rfl
  avoids c hc t := by
    have hbehind : behind? CodePoint.isCaseOf "<slot".toList (c :: t) = none :=
      behind?_isCaseOf_cons (by decide) hc _ t
    unfold outlet
    rw [hbehind]
    rfl
  closing _ := rfl
  comment _ := rfl

/-- An outlet is read whole if its values hold no closing bracket. -/
theorem outlet_write {o : Opening} (hname : o.name = "slot") {slash : Bool}
    (hb : CodePoint.scalar '>' ∉ o.between slash) (rest : Text) :
    outlet none (o.write slash ++ rest) = some (
      if (o.between slash).head?.any CodePoint.isBlank then o.between slash else [],
      (o.write slash).length) := by
  have hbehind : behind? CodePoint.isCaseOf "<slot".toList (o.write slash ++ rest) =
      some (o.between slash ++ .scalar '>' :: rest) := by
    rw [o.write_append, hname]
    rfl
  rw [o.length_write, hname]
  unfold outlet
  simp only [hbehind, Option.bind_eq_bind, Option.bind_some]
  rcases o.between_cases slash with h | ⟨-, h⟩ | ⟨p, t, h, hp⟩
  · have hend : behindWord? ">" (.scalar '>' :: rest) = some rest := behindWord?_append ">" rest
    simp only [h, List.nil_append, hend]
    rfl
  · have hend : behindWord? "/>" (.scalar '/' :: .scalar '>' :: rest) = some rest :=
      behindWord?_append "/>" rest
    simp only [h, List.singleton_append, hend]
    rfl
  · rw [h] at hb ⊢
    have hspan : (p :: t ++ .scalar '>' :: rest).span (fun p => p != CodePoint.scalar '>') =
        (p :: t, .scalar '>' :: rest) := by
      refine span_append (fun c hc => ?_) fun c hc => ?_
      · simpa using fun e : c = .scalar '>' => hb (e ▸ hc)
      · cases hc
        rfl
    have hlength : List.length (Text.ofString "slot") + (p :: t).length + 2 = 6 + (p :: t).length := by
      rw [Nat.add_right_comm]
      rfl
    rw [List.cons_append] at hspan ⊢
    simp only [hp, if_true, hspan, List.head?_cons, Option.any_some, hlength]
    rfl

/-- A search through the attributes of a tag finds what the first of them says that says something. -/
theorem ReadsNames.first_between {β : Type} {p : Pattern CodePoint β} {said : Attribute → Option β}
    (hp : ReadsNames p said) {o : Opening} (ho : ∀ a ∈ o.attributes, a.isLegible = true) (slash : Bool) :
    first p (if (o.between slash).head?.any CodePoint.isBlank then o.between slash else []) =
      o.attributes.findSome? said := by
  have hread : first p (o.between slash) = o.attributes.findSome? said := by
    refine hp.first_attributes ho (fun c hc => ?_) ?_ none
    · rcases List.mem_append.1 hc with hc | hc
      · exact delimits_of_isBlank (o.space.property c hc)
      · cases slash
        · cases hc
        · rw [List.mem_singleton.1 hc]
          rfl
    · rw [dropBlanks_append o.space.property]
      cases slash <;> decide
  cases hblank : (o.between slash).head?.any CodePoint.isBlank with
  | true => exact hread
  | false =>
    rcases ha : o.attributes with _ | ⟨a, as⟩
    · simp [first, firstFrom, hp.ends]
    · obtain ⟨c, t, hwrite, hc⟩ := a.exists_blank_write
      rw [Opening.between, ha, List.flatMap_cons, hwrite] at hblank
      simp [hc] at hblank

theorem bracket_notMem_of_isLegible {o : Opening} (ho : ∀ a ∈ o.attributes, a.isLegible = true)
    (slash : Bool) : CodePoint.scalar '>' ∉ o.between slash := by
  refine Opening.bracket_notMem_between rfl fun v hv => ?_
  obtain ⟨a, ha, hav⟩ := List.mem_filterMap.1 hv
  have h := ho a ha
  simp only [Attribute.isLegible, hav, Option.all_some, Bool.and_eq_true, Bool.not_eq_true'] at h
  simpa using h.1.1

theorem outletName?_eq_slot? {o : Opening} (ho : ∀ a ∈ o.attributes, a.isLegible = true) (slash : Bool) :
    outletName? (if (o.between slash).head?.any CodePoint.isBlank then o.between slash else []) =
      o.slot? := by
  have hbound : (o.attributes.findSome? fun a => if a.bindsName then some () else none).isSome =
      o.attributes.any Attribute.bindsName := by
    rw [Bool.eq_iff_iff, List.findSome?_isSome_iff, List.any_eq_true]
    simp
  rw [outletName?, readsNames_boundName.first_between ho, readsNames_staticName.first_between ho, hbound]
  rfl

/-! ## Accesses to slots -/

/-- The place of an access to slots. -/
def slotsMentioned : Pattern CodePoint Unit := fun _ t => (behindWord? "$slots" t).map fun _ => ((), 6)

theorem readsWords_slotsMentioned : ReadsWords slotsMentioned := by
  have hword : ∀ c ∈ Text.ofString "$slots", delimits c = false := by decide
  have havoids : ∀ c, c ≠ .scalar '$' → slotsMentioned.Avoids c := by
    intro c hc t
    have hnone : behindWord? "$slots" (c :: t) = none := if_neg hc
    rw [slotsMentioned, hnone]
    rfl
  refine ⟨fun _ _ => rfl, fun c hc => havoids c ?_, fun s c rest hc => ?_, fun s b n h => ?_,
    fun name h => ?_⟩
  · rintro rfl
    exact absurd hc (by decide)
  · rw [slotsMentioned, slotsMentioned, behindWord?_append_delimiter hword hc, Option.map_map]
    rfl
  · rw [slotsMentioned, Option.map_eq_some_iff] at h
    obtain ⟨r, hr, hn⟩ := h
    cases hn
    rw [Text.dropStart?_eq_some.1 hr, List.length_append]
    exact Nat.le_add_right _ _
  · obtain ⟨c, more, rfl, hc, hmore⟩ := exists_of_isTagName h
    have htag : ∀ d ∈ CodePoint.scalar c :: more, slotsMentioned.Avoids d := by
      intro d hd
      refine havoids d ?_
      rintro rfl
      rcases List.mem_cons.1 hd with hd | hd
      · rw [← CodePoint.scalar.inj hd] at hc
        exact absurd hc (by decide)
      · exact absurd (hmore _ hd) (by decide)
    have hscan := all_pass (fun _ _ => rfl) htag (Nat.zero_le _) []
    rwa [List.append_nil] at hscan

/-- A template whose words do not mention slots accesses none. -/
theorem scan_slotAccess {F : Markup} (h : ∀ s ∈ F.words, ¬ Text.ofString "$slots" <:+: s) :
    scan slotAccess F.write = [] := by
  have hwords : scan slotsMentioned F.write = [] := by
    rw [readsWords_slotsMentioned.scan_write, List.flatMap_eq_nil_iff]
    intro s hs
    refine (all_eq_nil_iff fun _ _ => rfl).2 fun t _ ht => ?_
    rw [slotsMentioned, Option.map_eq_none_iff, Option.eq_none_iff_forall_ne_some]
    intro r hr
    have hfront : Text.ofString "$slots" <+: t := ⟨r, (Text.dropStart?_eq_some.1 hr).symm⟩
    exact h s hs (hfront.isInfix.trans ht.isInfix)
  refine (all_eq_nil_iff fun _ _ => rfl).2 fun t hne ht => ?_
  have hnone := (all_eq_nil_iff fun _ _ => rfl).1 hwords t hne ht
  rw [slotsMentioned, Option.map_eq_none_iff] at hnone
  rw [slotAccess, hnone]
  rfl

/-! ## The slots of a template -/

theorem ne_nil_of_slot? {o : Opening} (ho : ∀ a ∈ o.attributes, a.isLegible = true) {s : Text}
    (hs : o.slot? = some s) : s ≠ [] := by
  unfold Opening.slot? at hs
  split at hs
  · cases hs
  · rw [← Option.some.inj hs]
    cases hgiven : o.attributes.findSome? Attribute.givenName? with
    | none => exact List.cons_ne_nil _ _
    | some t =>
      obtain ⟨a, ha, hat⟩ := List.exists_of_findSome?_eq_some hgiven
      have hlegible := ho a ha
      unfold Attribute.givenName? at hat
      unfold Attribute.isLegible at hlegible
      split at hat
      · rename_i hname
        obtain ⟨v, hv, rfl⟩ := Option.map_eq_some_iff.1 hat
        simp only [hv, hname, Option.all_some, Bool.and_eq_true, Bool.or_eq_true, Bool.not_eq_true',
          List.isEmpty_eq_false_iff, bne_self_eq_false, Bool.false_eq_true, false_or] at hlegible
        exact hlegible.2.1
      · cases hat

theorem readsPieces_outlet : ReadsPieces (outlet.map outletName?) (fun _ => []) (fun _ => [])
    (fun o => [o.slot?]) (CodePoint.scalar '<' ∉ ·)
    fun o => o.name = "slot" ∧ ∀ a ∈ o.attributes, a.isLegible = true := by
  refine (beginsMarkup_outlet.map outletName?).readsPieces fun o slash rest ho => ?_
  have hmatch : outlet.map outletName? none (o.write slash ++ rest) =
      some (o.slot?, (o.write slash).length) := by
    rw [Pattern.map, outlet_write ho.1 (bracket_notMem_of_isLegible ho.2 slash), Option.map_some,
      outletName?_eq_slot? ho.2]
  rw [all_match (beginsMarkup_outlet.map outletName?).blind (o.write_ne_nil slash) hmatch]
  rfl

/-- A template of outlets that are read as they say renders the slots that they say, in document
order and each once. -/
theorem slotNames_outlets {F : Markup} (houtlets : ∀ o ∈ F.openings, o.name = "slot")
    (hlegible : ∀ o ∈ F.openings, ∀ a ∈ o.attributes, a.isLegible = true)
    (hcomments : ∀ r ∈ F.comments, CodePoint.scalar '<' ∉ r)
    (hwords : ∀ s ∈ F.words, ¬ Text.ofString "$slots" <:+: s) :
    (slotNames F.write).toList = (F.openings.filterMap Opening.slot?).eraseDups := by
  have hread : (scan outlet F.write).map outletName? = F.openings.map Opening.slot? := by
    have h := readsPieces_outlet.scan_write hcomments fun o ho => ⟨houtlets o ho, hlegible o ho⟩
    rw [Markup.collect_opening, ← List.map_eq_flatMap] at h
    rw [← h, scan, scan, all_map]
  have hnames : (scan outlet F.write).filterMap outletName? = F.openings.filterMap Opening.slot? := by
    have h := congrArg (List.filterMap id) hread
    rwa [List.filterMap_map, List.filterMap_map] at h
  have hfilter : ((F.openings.filterMap Opening.slot?).filter fun t => !t.isEmpty) =
      F.openings.filterMap Opening.slot? := by
    refine List.filter_eq_self.2 fun s hs => ?_
    obtain ⟨o, ho, hos⟩ := List.mem_filterMap.1 hs
    simp [ne_nil_of_slot? (hlegible o ho) hos]
  rw [slotNames, scan_slotAccess hwords, List.append_nil, MemberList.toList_ofList, hnames, hfilter]

/-! ### Three outlets -/

/-- `Title: <slot name="header" title='name = it is' /><slot :name="slot.key" v-if="a && b" />` and
`<slot :row="name = 5">none</slot>` behind it. -/
def panel : Markup :=
  .leaf ⟨"Title: ", by decide⟩
    { name := "slot"
      attributes := [{ name := "name", value := some { text := "header" } },
        { name := "title", value := some { quote := .single, text := "name = it is" } }]
      space := .one } true <|
  .leaf .none
    { name := "slot"
      attributes := [{ name := ":name", value := some { text := "slot.key" } },
        { name := "v-if", value := some { text := "a && b" } }]
      space := .one } true <|
  .element .none
    { name := "slot", attributes := [{ name := ":row", value := some { text := "name = 5" } }] }
    (.text ⟨"none", by decide⟩) (.text .none)

theorem slotNames_outlets_panel :
    (∀ o ∈ panel.openings, o.name = "slot") ∧
    (∀ o ∈ panel.openings, ∀ a ∈ o.attributes, a.isLegible = true) ∧
    (∀ r ∈ panel.comments, CodePoint.scalar '<' ∉ r) ∧
    (∀ s ∈ panel.words, ¬ Text.ofString "$slots" <:+: s) ∧
    (slotNames panel.write).toList = [("header" : Text), ("default" : Text)] := by
  have houtlets : ∀ o ∈ panel.openings, o.name = "slot" := by decide
  have hlegible : ∀ o ∈ panel.openings, ∀ a ∈ o.attributes, a.isLegible = true := by decide
  have hcomments : ∀ r ∈ panel.comments, CodePoint.scalar '<' ∉ r := by decide
  have hwords : ∀ s ∈ panel.words, ¬ Text.ofString "$slots" <:+: s := by decide +kernel
  refine ⟨houtlets, hlegible, hcomments, hwords, ?_⟩
  rw [slotNames_outlets houtlets hlegible hcomments hwords]
  decide

/-- A name in a value behind a blank is taken for the name of the outlet. -/
example : (slotNames "<slot title=\"my name='x'\" />").toList = [("x" : Text)] := by decide

end SurfaceCoverage.Template
