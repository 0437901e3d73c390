import SurfaceCoverage.Proofs.Markup
/-!
# Scans of a template piece by piece

A scan of a template reads its texts, its comments and its opening tags one by one, in document order
(`all_write`), if matches neither reach from one into the next nor begin in a closing tag. That is so
for a pattern that begins at the bracket of an opening tag (`BeginsMarkup`), and for one that reads
words and stops where names end (`ReadsWords`).
-/

namespace SurfaceCoverage.Template

open Scan

/-! ## What is collected from the pieces -/

namespace Markup

variable {β : Type} (prose remark : Text → List β) (opening : Opening → List β)

/-- What texts, comments and opening tags give, in document order. -/
def collect : Markup → List β
  | text t => prose t.val
  | comment b r next => prose b.val ++ (remark r.val ++ next.collect)
  | leaf b o _ next => prose b.val ++ (opening o ++ next.collect)
  | element b o children next => prose b.val ++ (opening o ++ (children.collect ++ next.collect))

variable {prose remark opening}

theorem mem_collect {F : Markup} {x : β} : x ∈ F.collect prose remark opening ↔
    (∃ t ∈ F.texts, x ∈ prose t) ∨ (∃ r ∈ F.comments, x ∈ remark r) ∨ ∃ o ∈ F.openings, x ∈ opening o := by
  induction F with
  | text t => simp [collect, texts, comments, openings]
  | comment b r next ih =>
    simp only [collect, texts, comments, openings, List.mem_append, ih, List.exists_mem_cons_iff,
      or_assoc, or_left_comm]
  | leaf b o slash next ih =>
    simp only [collect, texts, comments, openings, List.mem_append, ih, List.exists_mem_cons_iff,
      or_assoc, or_left_comm]
  | element b o children next ihc ih =>
    simp only [collect, texts, comments, openings, List.mem_append, ihc, ih, List.exists_mem_cons_iff,
      or_and_right, exists_or, or_assoc, or_left_comm]

theorem flatMap_collect {γ : Type} (f : β → List γ) (F : Markup) :
    (F.collect prose remark opening).flatMap f = F.collect (fun t => (prose t).flatMap f)
      (fun r => (remark r).flatMap f) (fun o => (opening o).flatMap f) := by
  induction F with
  | text t => rfl
  | comment b r next ih => simp only [collect, List.flatMap_append, ih]
  | leaf b o slash next ih => simp only [collect, List.flatMap_append, ih]
  | element b o children next ihc ih => simp only [collect, List.flatMap_append, ihc, ih]

theorem collect_opening (F : Markup) :
    F.collect (fun _ => []) (fun _ => []) opening = F.openings.flatMap opening := by
  induction F with
  | text t => rfl
  | comment b r next ih => exact ih
  | leaf b o slash next ih => simp only [collect, openings, ih, List.nil_append, List.flatMap_cons]
  | element b o children next ihc ih =>
    simp only [collect, openings, ihc, ih, List.nil_append, List.flatMap_cons, List.flatMap_append]

end Markup

/-- A pattern that reads pieces one by one: texts that are followed by markup or by nothing, and those
comments and opening tags that are `plain`. -/
structure ReadsPieces {β : Type} (p : Pattern CodePoint β) (prose remark : Text → List β)
    (opening : Opening → List β) (plainRemark : Text → Prop) (plain : Opening → Prop) : Prop where
  prose : ∀ t rest, CodePoint.scalar '<' ∉ t → (∀ c ∈ rest.head?, c = .scalar '<') →
    all p none 0 (t ++ rest) = prose t ++ all p none 0 rest
  remark : ∀ r rest, plainRemark r →
    all p none 0 (Text.ofString "<!--" ++ (r ++ (Text.ofString "-->" ++ rest))) =
      remark r ++ all p none 0 rest
  opening : ∀ o slash rest, plain o →
    all p none 0 (o.write slash ++ rest) = opening o ++ all p none 0 rest
  closing : ∀ name rest, isTagName name = true →
    all p none 0 (Template.closing name ++ rest) = all p none 0 rest

section
variable {β : Type} {p : Pattern CodePoint β} {prose remark : Text → List β} {opening : Opening → List β}
  {plainRemark : Text → Prop} {plain : Opening → Prop}

theorem ReadsPieces.all_write (hp : ReadsPieces p prose remark opening plainRemark plain) {F : Markup}
    (hr : ∀ r ∈ F.comments, plainRemark r) (ho : ∀ o ∈ F.openings, plain o) {rest : Text}
    (hrest : ∀ c ∈ rest.head?, c = .scalar '<') :
    all p none 0 (F.write ++ rest) = F.collect prose remark opening ++ all p none 0 rest := by
  induction F generalizing rest with
  | text t => exact hp.prose _ _ t.property hrest
  | comment b r next ih =>
    simp only [Markup.comments, Markup.openings, List.forall_mem_cons] at hr ho
    simp only [Markup.write, Markup.collect, List.append_assoc]
    rw [hp.prose _ _ b.property fun c hc => by cases hc; rfl, hp.remark _ _ hr.1, ih hr.2 ho hrest]
  | leaf b o slash next ih =>
    simp only [Markup.comments, Markup.openings, List.forall_mem_cons] at hr ho
    simp only [Markup.write, Markup.collect, List.append_assoc]
    rw [hp.prose _ _ b.property fun c hc => by cases hc; rfl, hp.opening _ _ _ ho.1, ih hr ho.2 hrest]
  | element b o children next ihc ih =>
    simp only [Markup.comments, Markup.openings, List.forall_mem_cons, List.forall_mem_append] at hr ho
    simp only [Markup.write, Markup.collect, List.append_assoc]
    rw [hp.prose _ _ b.property fun c hc => by cases hc; rfl, hp.opening _ _ _ ho.1,
      ihc hr.1 ho.2.1 fun c hc => by cases hc; rfl, hp.closing _ _ o.isTagName_name,
      ih hr.2 ho.2.2 hrest]

theorem ReadsPieces.scan_write (hp : ReadsPieces p prose remark opening plainRemark plain) {F : Markup}
    (hr : ∀ r ∈ F.comments, plainRemark r) (ho : ∀ o ∈ F.openings, plain o) :
    scan p F.write = F.collect prose remark opening := by
  have hnil : ∀ c ∈ ([] : Text).head?, c = .scalar '<' := fun c hc => by cases hc
  rw [scan, ← List.append_nil F.write, hp.all_write hr ho hnil, all, List.append_nil]

/-! ## Patterns that begin at the bracket of an opening tag -/

/-- An opening tag at which nothing begins is passed over. -/
theorem BeginsMarkup.all_write_of_none (hp : BeginsMarkup p) {o : Opening} {slash : Bool}
    (hb : CodePoint.scalar '<' ∉ o.between slash) {rest : Text}
    (h : p none (o.write slash ++ rest) = none) :
    all p none 0 (o.write slash ++ rest) = all p none 0 rest := by
  rw [Opening.write, List.cons_append] at h ⊢
  rw [all]
  simp only [h]
  rw [all_blind hp.blind]
  exact hp.all_prose (Opening.bracket_notMem_write hb) rest

theorem BeginsMarkup.all_comment (hp : BeginsMarkup p) {r : Text} (hr : CodePoint.scalar '<' ∉ r)
    (rest : Text) : all p none 0 (Text.ofString "<!--" ++ (r ++ (Text.ofString "-->" ++ rest))) =
      all p none 0 rest := by
  have htail : CodePoint.scalar '<' ∉ Text.ofString "!--" ++ (r ++ Text.ofString "-->") := by
    simp only [List.mem_append, not_or]
    exact ⟨by decide, hr, by decide⟩
  have hwrite : Text.ofString "<!--" ++ (r ++ (Text.ofString "-->" ++ rest)) =
      .scalar '<' :: (Text.ofString "!--" ++ (r ++ Text.ofString "-->") ++ rest) := by
    simp [Text.ofString, Text.ofChars]
  have hnone : p none (.scalar '<' :: (Text.ofString "!--" ++ (r ++ Text.ofString "-->") ++ rest)) = none :=
    hp.comment _
  rw [hwrite, all]
  simp only [hnone]
  rw [all_blind hp.blind]
  exact hp.all_prose htail rest

theorem BeginsMarkup.readsPieces (hp : BeginsMarkup p)
    (ho : ∀ o slash rest, plain o → all p none 0 (o.write slash ++ rest) = opening o ++ all p none 0 rest) :
    ReadsPieces p (fun _ => []) (fun _ => []) opening (CodePoint.scalar '<' ∉ ·) plain where
  prose _ rest ht _ := hp.all_prose ht rest
  remark _ rest hr := hp.all_comment hr rest
  opening := ho
  closing _ rest hn := hp.all_closing (lt_notMem_of_isTagName hn) rest

end

/-! ## Patterns that read words -/

/-- The name of an attribute and the text of its value. -/
def Attribute.words (a : Attribute) : List Text := a.name :: (a.value.map Value.text).toList

/-- Texts, comments, attributes' names and their values in document order. A comment's last word goes
on with the dashes before its end. -/
def Markup.words (F : Markup) : List Text :=
  F.collect (fun t => [t]) (fun r => [r ++ Text.ofString "--"])
    fun o => o.attributes.flatMap Attribute.words

/-- A pattern whose matches stop where names end, and that matches nothing in a tag's name. -/
structure ReadsWords {β : Type} (p : Pattern CodePoint β) : Prop where
  blind : Blind p
  avoids : ∀ c, delimits c = true ∨ c = .scalar '!' ∨ c = .scalar '-' → p.Avoids c
  stops : ∀ s c rest, delimits c = true → p none (s ++ c :: rest) = p none s
  fits : ∀ s b n, p none s = some (b, n) → n ≤ s.length
  tags : ∀ name, isTagName name = true → scan p name = []

/-- Behind the attributes of a tag there is nothing that a name could go on with. -/
theorem Opening.exists_ending (o : Opening) (slash : Bool) : ∃ c ending,
    (∀ d ∈ c :: ending, delimits d = true) ∧ ∀ rest : Text, o.between slash ++ .scalar '>' :: rest =
      o.attributes.flatMap Attribute.write ++ (c :: ending ++ rest) := by
  have hends : ∀ d ∈ o.space.val ++ (if slash then [.scalar '/'] else []) ++ [.scalar '>'],
      delimits d = true := by
    intro d hd
    simp only [List.mem_append, List.mem_singleton] at hd
    rcases hd with (hd | hd) | rfl
    · exact delimits_of_isBlank (o.space.property d hd)
    · cases slash
      · cases hd
      · rw [List.mem_singleton.1 hd]
        rfl
    · rfl
  obtain ⟨c, ending, h⟩ := List.exists_cons_of_ne_nil
    (List.append_ne_nil_of_right_ne_nil (o.space.val ++ if slash then [.scalar '/'] else [])
      (List.cons_ne_nil (CodePoint.scalar '>') []))
  rw [h] at hends
  exact ⟨c, ending, hends, fun rest => by simp [Opening.between, ← h]⟩

section
variable {β : Type} {p : Pattern CodePoint β} (hp : ReadsWords p)
include hp

/-- A word is read on its own if a name ends behind it. -/
theorem ReadsWords.all_word (s : Text) {rest : Text} (hrest : ∀ c ∈ rest.head?, delimits c = true) :
    all p none 0 (s ++ rest) = scan p s ++ all p none 0 rest := by
  refine all_append hp.blind (fun t b n _ h => hp.fits t b n h) (fun t _ _ => ?_) (Nat.zero_le _)
  rcases rest with _ | ⟨c, rest⟩
  · rw [List.append_nil]
  · exact hp.stops t c rest (hrest c rfl)

theorem ReadsWords.all_delimiters {s : Text} (hs : ∀ c ∈ s, delimits c = true) (rest : Text) :
    all p none 0 (s ++ rest) = all p none 0 rest :=
  all_pass hp.blind (fun c hc => hp.avoids c (.inl (hs c hc))) (Nat.zero_le _) rest

theorem ReadsWords.all_value (v : Value) (rest : Text) :
    all p none 0 (v.write ++ rest) = scan p v.text ++ all p none 0 rest := by
  have hquote := delimits_of_isQuote v.quote.isQuote_mark
  have hfront : ∀ c ∈ v.before.val ++ .scalar '=' :: (v.after.val ++ [v.quote.mark]),
      delimits c = true := by
    intro c hc
    simp only [List.mem_append, List.mem_cons, List.not_mem_nil, or_false] at hc
    rcases hc with hc | rfl | hc | rfl
    · exact delimits_of_isBlank (v.before.property c hc)
    · rfl
    · exact delimits_of_isBlank (v.after.property c hc)
    · exact hquote
  have hwrite : v.write ++ rest = v.before.val ++ .scalar '=' :: (v.after.val ++ [v.quote.mark]) ++
      (v.text ++ ([v.quote.mark] ++ rest)) := by
    simp [Value.write]
  rw [hwrite, hp.all_delimiters hfront, hp.all_word _ fun c hc => by cases hc; exact hquote,
    hp.all_delimiters fun c hc => by rw [List.mem_singleton.1 hc]; exact hquote]

theorem ReadsWords.all_attributes (as : List Attribute) {rest : Text}
    (hrest : ∀ c ∈ rest.head?, delimits c = true) : all p none 0 (as.flatMap Attribute.write ++ rest) =
      (as.flatMap Attribute.words).flatMap (scan p) ++ all p none 0 rest := by
  induction as with
  | nil => rfl
  | cons a as ih =>
    have hnext := delimits_head_attributes as hrest
    simp only [List.flatMap_cons, List.flatMap_append, Attribute.write, Attribute.words, List.append_assoc]
    rw [hp.all_delimiters fun c hc => delimits_of_isBlank (a.gap.property.2 c hc),
      hp.all_word _ (a.delimits_head_assigned hnext), Attribute.assigned]
    cases a.value with
    | none =>
      simp only [Option.map_none, Option.getD_none, Option.toList_none, List.flatMap_nil, List.nil_append]
      rw [ih]
    | some v =>
      simp only [Option.map_some, Option.getD_some, Option.toList_some, List.flatMap_singleton]
      rw [hp.all_value, ih]

theorem ReadsWords.all_opening (o : Opening) (slash : Bool) (rest : Text) :
    all p none 0 (o.write slash ++ rest) =
      (o.attributes.flatMap Attribute.words).flatMap (scan p) ++ all p none 0 rest := by
  obtain ⟨c, ending, hends, hbetween⟩ := o.exists_ending slash
  have hwrite : o.write slash ++ rest =
      [.scalar '<'] ++ (o.name ++ (o.between slash ++ .scalar '>' :: rest)) := o.write_append slash rest
  have hhead : ∀ d ∈ (c :: ending ++ rest).head?, delimits d = true := fun d hd => by
    cases hd
    exact hends c List.mem_cons_self
  rw [hwrite, hp.all_delimiters (by decide), hp.all_word _ (o.delimits_head_between slash rest),
    hp.tags _ o.isTagName_name, List.nil_append, hbetween, hp.all_attributes _ hhead,
    hp.all_delimiters hends]

theorem ReadsWords.readsPieces : ReadsPieces p (scan p) (fun r => scan p (r ++ Text.ofString "--"))
    (fun o => (o.attributes.flatMap Attribute.words).flatMap (scan p)) (fun _ => True) (fun _ => True) where
  prose t rest _ hrest := hp.all_word t fun c hc => by rw [hrest c hc]; rfl
  remark r rest _ := by
    have hwrite : Text.ofString "<!--" ++ (r ++ (Text.ofString "-->" ++ rest)) =
        Text.ofString "<!--" ++ (r ++ Text.ofString "--" ++ ([.scalar '>'] ++ rest)) := by
      simp [Text.ofString, Text.ofChars]
    have hfront : ∀ c ∈ Text.ofString "<!--",
        delimits c = true ∨ c = .scalar '!' ∨ c = .scalar '-' := by decide
    rw [hwrite, all_pass hp.blind (fun c hc => hp.avoids c (hfront c hc)) (Nat.zero_le _),
      hp.all_word _ fun c hc => by cases hc; rfl, hp.all_delimiters (by decide)]
  opening o slash rest _ := hp.all_opening o slash rest
  closing name rest hn := by
    have hwrite : closing name ++ rest =
        [CodePoint.scalar '<', .scalar '/'] ++ (name ++ ([.scalar '>'] ++ rest)) := by
      simp [closing]
    have hfront : ∀ c ∈ [CodePoint.scalar '<', .scalar '/'], delimits c = true := by decide
    rw [hwrite, hp.all_delimiters hfront, hp.all_word _ fun c hc => by cases hc; rfl, hp.tags _ hn,
      hp.all_delimiters (by decide), List.nil_append]

/-- A scan of a template reads each of its words on its own. -/
theorem ReadsWords.scan_write (F : Markup) : scan p F.write = F.words.flatMap (scan p) := by
  rw [hp.readsPieces.scan_write (fun _ _ => trivial) fun _ _ => trivial, Markup.words,
    Markup.flatMap_collect]
  simp only [List.flatMap_singleton]

end

end SurfaceCoverage.Template
