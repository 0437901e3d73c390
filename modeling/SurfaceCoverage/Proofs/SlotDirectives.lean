import SurfaceCoverage.Proofs.Pieces
/-!
# Slot directives in the words of a template

A directive with a name is read within one word: a text, a comment, an attribute's name or its value.
A directive without one is an attribute of that name, or stands between blanks within a word.
-/

namespace SurfaceCoverage.Template

open Scan

/-! ## Directives with a name -/

/-- What stands behind the sign of a directive. -/
def behindSign? (t : Text) : Option Text := (behindWord? "#" t).or (behindWord? "v-slot:" t)

theorem length_of_behindSign? {t r : Text} (h : behindSign? t = some r) : r.length ≤ t.length := by
  rcases Option.or_eq_some_iff.1 h with h | ⟨-, h⟩ <;>
    rw [Text.dropStart?_eq_some.1 h, List.length_append] <;> exact Nat.le_add_left _ _

theorem slotDirective_eq (previous : Option CodePoint) (t : Text) : slotDirective previous t =
    (behindSign? t).bind fun r => if (r.takeWhile continuesSlot).isEmpty then none
      else some (r.takeWhile continuesSlot, t.length - r.length + (r.takeWhile continuesSlot).length) := rfl

theorem behindSign?_of_ne {c : CodePoint} {t : Text} (hsharp : c ≠ .scalar '#') (hv : c ≠ .scalar 'v') :
    behindSign? (c :: t) = none := by
  have hsharp : behindWord? "#" (c :: t) = none := if_neg hsharp
  have hv : behindWord? "v-slot:" (c :: t) = none := if_neg hv
  rw [behindSign?, hsharp, hv]
  rfl

/-- The sign of a directive is no delimiter, so it does not go on behind one. -/
theorem behindSign?_append_delimiter {c : CodePoint} (hc : delimits c = true) (s rest : Text) :
    behindSign? (s ++ c :: rest) = (behindSign? s).map (· ++ c :: rest) := by
  have hsharp : ∀ d ∈ Text.ofString "#", delimits d = false := by decide
  have hv : ∀ d ∈ Text.ofString "v-slot:", delimits d = false := by decide
  rw [behindSign?, behindWord?_append_delimiter hsharp hc, behindWord?_append_delimiter hv hc,
    behindSign?]
  cases behindWord? "#" s <;> rfl

theorem mem_of_behindSign? {t r : Text} (h : behindSign? t = some r) :
    CodePoint.scalar '#' ∈ t ∨ CodePoint.scalar ':' ∈ t := by
  rcases Option.or_eq_some_iff.1 h with h | ⟨-, h⟩ <;> rw [Text.dropStart?_eq_some.1 h] <;>
    simp [Text.ofString, Text.ofChars]

theorem slotDirective_avoids {c : CodePoint} (hsharp : c ≠ .scalar '#') (hv : c ≠ .scalar 'v') :
    slotDirective.Avoids c := by
  intro t
  rw [slotDirective_eq, behindSign?_of_ne hsharp hv]
  rfl

theorem slotDirective_append_delimiter {c : CodePoint} (hc : delimits c = true) (s rest : Text) :
    slotDirective none (s ++ c :: rest) = slotDirective none s := by
  rw [slotDirective_eq, slotDirective_eq, behindSign?_append_delimiter hc]
  cases hr : behindSign? s with
  | none => rfl
  | some r =>
    have hname := takeWhile_append_cons (continuesSlot_of_delimits hc) r rest
    have hlength : (s ++ c :: rest).length - (r ++ c :: rest).length = s.length - r.length := by
      simp only [List.length_append]
      omega
    simp only [Option.map_some, Option.bind_some, hname, hlength]

theorem slotDirective_fits {s x : Text} {n : Nat} (h : slotDirective none s = some (x, n)) :
    n ≤ s.length := by
  rw [slotDirective_eq, Option.bind_eq_some_iff] at h
  obtain ⟨r, hr, h⟩ := h
  split at h
  · cases h
  · cases h
    have hlength := length_of_behindSign? hr
    have hname := (List.takeWhile_prefix continuesSlot (l := r)).length_le
    omega

/-- No directive stands in the name of a tag, which has neither of the signs' last characters. -/
theorem scan_slotDirective_of_isTagName {name : Text} (h : isTagName name = true) :
    scan slotDirective name = [] := by
  refine (all_eq_nil_iff fun _ _ => rfl).2 fun t _ ht => ?_
  obtain ⟨c, more, rfl, hc, hmore⟩ := exists_of_isTagName h
  have htag : ∀ d ∈ t, d ≠ .scalar '#' ∧ d ≠ .scalar ':' := by
    intro d hd
    rcases List.mem_cons.1 (ht.mem hd) with rfl | hd
    · constructor <;> intro e <;> rw [CodePoint.scalar.inj e] at hc <;> exact absurd hc (by decide)
    · constructor <;> rintro rfl <;> exact absurd (hmore _ hd) (by decide)
  rw [slotDirective_eq, Option.bind_eq_none_iff]
  intro r hr
  rcases mem_of_behindSign? hr with hsharp | hcolon
  · exact absurd rfl (htag _ hsharp).1
  · exact absurd rfl (htag _ hcolon).2

theorem readsWords_slotDirective : ReadsWords slotDirective where
  blind _ _ := rfl
  avoids c hc := by
    refine slotDirective_avoids ?_ ?_ <;> rintro rfl <;> exact absurd hc (by decide)
  stops s _ rest hc := slotDirective_append_delimiter hc s rest
  fits _ _ _ := slotDirective_fits
  tags _ := scan_slotDirective_of_isTagName

/-- An attribute that is a directive gives its name. -/
theorem scan_directive {a x : Text} (ha : a = Text.ofString "#" ++ x ∨ a = Text.ofString "v-slot:" ++ x)
    (hx : x ≠ []) (hname : ∀ c ∈ x, continuesSlot c = true) : scan slotDirective a = [x] := by
  have htake : (x ++ []).takeWhile continuesSlot = x := takeWhile_append hname fun c hc => by cases hc
  rw [List.append_nil] at htake
  have hbehind : behindSign? a = some x := by
    rcases ha with rfl | rfl
    · rw [behindSign?, behindWord?_append]
      rfl
    · have hsharp : behindWord? "#" (Text.ofString "v-slot:" ++ x) = none := rfl
      rw [behindSign?, hsharp, behindWord?_append]
      rfl
  have hread : slotDirective none a = some (x, a.length) := by
    have hlength := length_of_behindSign? hbehind
    rw [slotDirective_eq, hbehind, Option.bind_some, htake, if_neg (by simpa using hx),
      Nat.sub_add_cancel hlength]
  have hne : a ≠ [] := by
    rcases ha with rfl | rfl <;> exact List.cons_ne_nil _ _
  have hall := all_match (fun _ _ => rfl) hne (by rwa [List.append_nil])
  rwa [List.append_nil] at hall

/-! ## Directives without a name -/

/-- Code points behind which a directive without a name ends. -/
def endsBare (q : CodePoint) : Bool := q.isBlank || q = '>' || q = '/' || q = '='

/-- Whether a text begins with a directive without a name. -/
def beginsBare (t : Text) : Bool := ((behindWord? "v-slot" t).bind List.head?).any endsBare

/-- A directive without a name stands behind a blank in a text. -/
def StandsBare (s : Text) : Prop :=
  ∃ c q, c.isBlank = true ∧ endsBare q = true ∧ c :: (Text.ofString "v-slot" ++ [q]) <:+: s

theorem bareDirective_cons (previous : Option CodePoint) (c : CodePoint) (t : Text) :
    bareDirective previous (c :: t) = if c.isBlank && beginsBare t then some ((), 1) else none := by
  unfold bareDirective beginsBare
  dsimp only
  cases c.isBlank with
  | false => rfl
  | true =>
    cases behindWord? "v-slot" t with
    | none => rfl
    | some r =>
      cases r with
      | nil => rfl
      | cons q r => rfl

theorem beginsBare_iff {t : Text} :
    beginsBare t = true ↔ ∃ q, endsBare q = true ∧ Text.ofString "v-slot" ++ [q] <+: t := by
  rw [beginsBare, Option.any_eq_true]
  constructor
  · rintro ⟨q, hq, h⟩
    obtain ⟨r, hr, hhead⟩ := Option.bind_eq_some_iff.1 hq
    obtain ⟨u, rfl⟩ := List.head?_eq_some_iff.1 hhead
    exact ⟨q, h, u, by rw [Text.dropStart?_eq_some.1 hr]; simp⟩
  · rintro ⟨q, h, u, rfl⟩
    refine ⟨q, ?_, h⟩
    rw [List.append_assoc, behindWord?_append]
    rfl

theorem mem_scan_bareDirective {s : Text} : () ∈ scan bareDirective s ↔ StandsBare s := by
  have hmem : () ∈ scan bareDirective s ↔ ¬ scan bareDirective s = [] := by
    cases scan bareDirective s <;> simp
  rw [hmem, scan, all_eq_nil_iff fun _ _ => rfl]
  constructor
  · intro h
    simp only [not_forall] at h
    obtain ⟨t, hne, ht, hmatch⟩ := h
    obtain ⟨c, t, rfl⟩ := List.exists_cons_of_ne_nil hne
    rw [bareDirective_cons] at hmatch
    have hc : (c.isBlank && beginsBare t) = true := by
      by_contra hc
      exact hmatch (if_neg hc)
    rw [Bool.and_eq_true, beginsBare_iff] at hc
    obtain ⟨hblank, q, hq, hfront⟩ := hc
    exact ⟨c, q, hblank, hq, ((List.cons_prefix_cons.2 ⟨rfl, hfront⟩).isInfix).trans ht.isInfix⟩
  · rintro ⟨c, q, hc, hq, u, v, rfl⟩ h
    have hsuffix : c :: (Text.ofString "v-slot" ++ [q] ++ v) <:+
        u ++ c :: (Text.ofString "v-slot" ++ [q]) ++ v := ⟨u, by simp⟩
    have hnone := h _ (List.cons_ne_nil _ _) hsuffix
    have hbegins : beginsBare (Text.ofString "v-slot" ++ [q] ++ v) = true :=
      beginsBare_iff.2 ⟨q, hq, v, rfl⟩
    rw [bareDirective_cons, hc, hbegins] at hnone
    cases hnone

theorem blind_bareDirective : Blind bareDirective := fun _ _ => rfl

theorem bareDirective_avoids {c : CodePoint} (hc : c.isBlank = false) : bareDirective.Avoids c := by
  intro t
  rw [bareDirective_cons, hc]
  rfl

theorem bareDirective_fits {s : Text} {b : Unit} {n : Nat} (h : bareDirective none s = some (b, n)) :
    n ≤ s.length := by
  rcases s with _ | ⟨c, s⟩
  · cases h
  · rw [bareDirective_cons] at h
    split at h
    · cases h
      simp
    · cases h

/-- Pieces without blanks hold no directive. -/
theorem all_bareDirective_solid {s : Text} (hs : ∀ c ∈ s, c.isBlank = false) (rest : Text) :
    all bareDirective none 0 (s ++ rest) = all bareDirective none 0 rest :=
  all_pass blind_bareDirective (fun c hc => bareDirective_avoids (hs c hc)) (Nat.zero_le _) rest

theorem beginsBare_eq_false {t : Text} (ht : t.head? ≠ some (.scalar 'v')) : beginsBare t = false := by
  have hnone : behindWord? "v-slot" t = none := by
    rcases t with _ | ⟨c, t⟩
    · rfl
    · simp only [List.head?_cons, ne_eq, Option.some.injEq] at ht
      exact if_neg ht
  rw [beginsBare, hnone]
  rfl

/-- Blanks in front of anything but a directive's word hold none. -/
theorem all_bareDirective_blanks {s : Text} (hs : ∀ c ∈ s, c.isBlank = true) {rest : Text}
    (hrest : rest.head? ≠ some (.scalar 'v')) :
    all bareDirective none 0 (s ++ rest) = all bareDirective none 0 rest := by
  induction s with
  | nil => rfl
  | cons c s ih =>
    have hs' := fun d hd => hs d (List.mem_cons_of_mem c hd)
    have hhead : (s ++ rest).head? ≠ some (.scalar 'v') := by
      rcases s with _ | ⟨d, s⟩
      · exact hrest
      · intro h
        have hd := hs' d List.mem_cons_self
        rw [Option.some.inj h] at hd
        exact absurd hd (by decide)
    rw [List.cons_append, all, bareDirective_cons, beginsBare_eq_false hhead, Bool.and_false]
    simp only [Bool.false_eq_true, if_false]
    rw [all_blind blind_bareDirective]
    exact ih hs'

/-- A word is read on its own if what stands behind it does not end a directive, or the word itself
ends with a dash. -/
theorem all_bareDirective_word {s : Text} {q : CodePoint} (hq : delimits q = true)
    (h : endsBare q = false ∨ s.getLast? = some (.scalar '-')) (rest : Text) :
    all bareDirective none 0 (s ++ q :: rest) =
      scan bareDirective s ++ all bareDirective none 0 (q :: rest) := by
  have hword : ∀ c ∈ Text.ofString "v-slot", delimits c = false := by decide
  refine all_append blind_bareDirective (fun t b n _ => bareDirective_fits) (fun t hne ht => ?_)
    (Nat.zero_le _)
  obtain ⟨c, t, rfl⟩ := List.exists_cons_of_ne_nil hne
  have hbegins : beginsBare (t ++ q :: rest) = beginsBare t := by
    rw [beginsBare, beginsBare, behindWord?_append_delimiter hword hq]
    -- only a directive's word at the end of `t` could see what stands behind it
    cases hr : behindWord? "v-slot" t with
    | none => rfl
    | some r =>
      cases r with
      | cons d r => rfl
      | nil =>
        rcases h with h | h
        · simp [h]
        · have ht' := Text.dropStart?_eq_some.1 hr
          obtain ⟨u, rfl⟩ := ht
          rw [ht', List.append_nil, List.getLast?_append] at h
          exact absurd h (by simp [Text.ofString, Text.ofChars])
  rw [List.cons_append, bareDirective_cons, bareDirective_cons, hbegins]

/-- What an attribute gives: itself if it is a directive without a name, and those in its value. -/
def bareIn (a : Attribute) : List Unit :=
  (if a.name = "v-slot" then [()] else []) ++ (a.value.map fun v => scan bareDirective v.text).getD []

theorem not_endsBare_of_isQuote {q : CodePoint} (h : isQuote q = true) : endsBare q = false := by
  simp only [isQuote, Bool.or_eq_true, decide_eq_true_eq] at h
  rcases h with rfl | rfl <;> decide

theorem all_bareDirective_value (v : Value) (rest : Text) : all bareDirective none 0 (v.write ++ rest) =
    scan bareDirective v.text ++ all bareDirective none 0 rest := by
  have hquote := not_isBlank_of_isQuote v.quote.isQuote_mark
  have hwrite : v.write ++ rest = v.before.val ++ ([.scalar '='] ++ (v.after.val ++ ([v.quote.mark] ++
      (v.text ++ v.quote.mark :: rest)))) := by
    simp [Value.write]
  have hhead : ([v.quote.mark] ++ (v.text ++ v.quote.mark :: rest)).head? ≠ some (.scalar 'v') := by
    intro h
    have hv := v.quote.isQuote_mark
    rw [Option.some.inj h] at hv
    exact absurd hv (by decide)
  have hsolid : ∀ c ∈ [v.quote.mark], c.isBlank = false := fun c hc => by
    rw [List.mem_singleton.1 hc, hquote]
  rw [hwrite, all_bareDirective_blanks v.before.property (by simp), all_bareDirective_solid (by decide),
    all_bareDirective_blanks v.after.property hhead, all_bareDirective_solid hsolid,
    all_bareDirective_word (delimits_of_isQuote v.quote.isQuote_mark)
      (.inl (not_endsBare_of_isQuote v.quote.isQuote_mark)), ← List.singleton_append,
    all_bareDirective_solid hsolid]

theorem delimits_of_endsBare {q : CodePoint} (h : endsBare q = true) : delimits q = true := by
  simp only [endsBare, Bool.or_eq_true, decide_eq_true_eq] at h
  rcases h with ((h | rfl) | rfl) | rfl
  · exact delimits_of_isBlank h
  all_goals rfl

/-- Behind a blank an attribute is a directive without a name if it is called so. -/
theorem beginsBare_name (a : Attribute) {rest : Text} (hrest : ∃ q t, rest = q :: t ∧ endsBare q = true) :
    beginsBare (a.name ++ (a.assigned ++ rest)) = decide (a.name = "v-slot") := by
  have hword : ∀ c ∈ Text.ofString "v-slot", delimits c = false := by decide
  obtain ⟨q, t, hhead, hq⟩ : ∃ q t, a.assigned ++ rest = q :: t ∧ endsBare q = true := by
    unfold Attribute.assigned
    cases hv : a.value with
    | none => exact hrest
    | some v =>
      rw [Option.map_some, Option.getD_some, Value.write]
      rcases hb : v.before.val with _ | ⟨b, bs⟩
      · exact ⟨.scalar '=', _, rfl, rfl⟩
      · exact ⟨b, _, rfl, by simp [endsBare, v.before.property b (hb ▸ List.mem_cons_self)]⟩
  rw [beginsBare, hhead, behindWord?_append_delimiter hword (delimits_of_endsBare hq)]
  rcases a.behindWord?_name "v-slot" with ⟨hname, h⟩ | ⟨hname, h | ⟨c, r, h, hc⟩⟩
  · rw [h]
    simp [hname, hq]
  · simp [h, hname]
  · have hends : endsBare c = false := by
      by_contra hends
      rw [Bool.not_eq_false] at hends
      rw [delimits_of_endsBare hends] at hc
      cases hc
    simp [h, hname, hends]

theorem all_bareDirective_attributes (as : List Attribute) {rest : Text}
    (hrest : ∃ q t, rest = q :: t ∧ endsBare q = true) :
    all bareDirective none 0 (as.flatMap Attribute.write ++ rest) =
      as.flatMap bareIn ++ all bareDirective none 0 rest := by
  induction as with
  | nil => rfl
  | cons a as ih =>
    have hnext : ∃ q t, as.flatMap Attribute.write ++ rest = q :: t ∧ endsBare q = true := by
      rcases as with _ | ⟨b, bs⟩
      · exact hrest
      · obtain ⟨p, t, h, hp⟩ := b.exists_blank_write
        exact ⟨p, _, by rw [List.flatMap_cons, h]; rfl, by simp [endsBare, hp]⟩
    -- only the last blank before the name can begin a directive
    obtain ⟨gap, c, hgap⟩ : ∃ gap c, a.gap.val = gap ++ [c] :=
      ⟨_, _, (List.dropLast_append_getLast a.gap.property.1).symm⟩
    have hblank : ∀ d ∈ gap ++ [c], d.isBlank = true := hgap ▸ a.gap.property.2
    have hc := hblank c (by simp)
    have hv : (c :: (a.name ++ (a.assigned ++ (as.flatMap Attribute.write ++ rest)))).head? ≠
        some (.scalar 'v') := by
      rw [List.head?_cons]
      intro h
      rw [Option.some.inj h] at hc
      exact absurd hc (by decide)
    have hbehind : all bareDirective none 0
        (a.name ++ (a.assigned ++ (as.flatMap Attribute.write ++ rest))) =
        (a.value.map fun v => scan bareDirective v.text).getD [] ++
          (as.flatMap bareIn ++ all bareDirective none 0 rest) := by
      rw [all_bareDirective_solid fun d hd => not_isBlank_of_delimits (a.not_delimits_name d hd),
        Attribute.assigned]
      cases a.value with
      | none => exact ih
      | some v =>
        simp only [Option.map_some, Option.getD_some]
        rw [all_bareDirective_value, ih]
    simp only [List.flatMap_cons, Attribute.write, bareIn, hgap, List.append_assoc,
      List.cons_append, List.nil_append]
    rw [all_bareDirective_blanks (fun d hd => hblank d (List.mem_append_left _ hd)) hv, all,
      bareDirective_cons, hc, beginsBare_name a hnext, Bool.true_and, ← hbehind]
    by_cases hname : a.name = "v-slot"
    · simp only [hname, decide_true, if_true]
      rw [all_blind blind_bareDirective]
      rfl
    · simp only [hname, decide_false, Bool.false_eq_true, if_false, List.nil_append]
      rw [all_blind blind_bareDirective]

theorem all_bareDirective_opening (o : Opening) (slash : Bool) (rest : Text) :
    all bareDirective none 0 (o.write slash ++ rest) =
      o.attributes.flatMap bareIn ++ all bareDirective none 0 rest := by
  have hwrite : o.write slash ++ rest = .scalar '<' :: o.name ++ (o.attributes.flatMap Attribute.write ++
      (o.space.val ++ ((if slash then [.scalar '/'] else []) ++ [.scalar '>'] ++ rest))) := by
    simp [Opening.write, Opening.between]
  have hname : ∀ c ∈ CodePoint.scalar '<' :: o.name, c.isBlank = false := by
    intro c hc
    rcases List.mem_cons.1 hc with rfl | hc
    · rfl
    · exact not_isBlank_of_delimits (not_delimits_of_isTagName o.isTagName_name c hc)
  have hsolid : ∀ c ∈ (if slash then [CodePoint.scalar '/'] else []) ++ [.scalar '>'],
      c.isBlank = false := by
    cases slash <;> decide
  have hhead : ((if slash then [CodePoint.scalar '/'] else []) ++ [CodePoint.scalar '>'] ++ rest).head? ≠
      some (.scalar 'v') := by
    cases slash <;> simp
  have hends : ∃ q t, o.space.val ++ ((if slash then [.scalar '/'] else []) ++ [.scalar '>'] ++ rest) =
      q :: t ∧ endsBare q = true := by
    rcases hs : o.space.val with _ | ⟨q, t⟩
    · cases slash <;> exact ⟨_, _, rfl, rfl⟩
    · exact ⟨q, _, rfl, by simp [endsBare, o.space.property q (hs ▸ List.mem_cons_self)]⟩
  rw [hwrite, all_bareDirective_solid hname, all_bareDirective_attributes _ hends,
    all_bareDirective_blanks o.space.property hhead, all_bareDirective_solid hsolid]

theorem readsPieces_bareDirective : ReadsPieces bareDirective (scan bareDirective)
    (fun r => scan bareDirective (r ++ Text.ofString "--")) (fun o => o.attributes.flatMap bareIn)
    (fun _ => True) (fun _ => True) where
  prose t rest _ hrest := by
    rcases rest with _ | ⟨c, rest⟩
    · rw [List.append_nil, all, List.append_nil, scan]
    · rw [hrest c rfl, all_bareDirective_word rfl (.inl rfl)]
  remark r rest _ := by
    have hwrite : Text.ofString "<!--" ++ (r ++ (Text.ofString "-->" ++ rest)) =
        Text.ofString "<!--" ++ (r ++ Text.ofString "--" ++ .scalar '>' :: rest) := by
      simp [Text.ofString, Text.ofChars]
    have hlast : (r ++ Text.ofString "--").getLast? = some (.scalar '-') := by
      rw [List.getLast?_append]
      rfl
    rw [hwrite, all_bareDirective_solid (by decide), all_bareDirective_word rfl (.inr hlast)]
    exact congrArg _ (all_bareDirective_solid (s := [.scalar '>']) (by decide) rest)
  opening o slash rest _ := all_bareDirective_opening o slash rest
  closing name rest hn := by
    have hsolid : ∀ c ∈ closing name, c.isBlank = false := by
      intro c hc
      simp only [closing, List.mem_cons, List.mem_append, List.not_mem_nil, or_false] at hc
      rcases hc with rfl | rfl | hc | rfl
      · rfl
      · rfl
      · exact not_isBlank_of_delimits (not_delimits_of_isTagName hn c hc)
      · rfl
    exact all_bareDirective_solid hsolid rest

/-- Whether an attribute of some element is a directive without a name, or one stands within a text, a
comment or a value. -/
def Markup.HasBare (F : Markup) : Prop :=
  (∃ o ∈ F.openings, ∃ a ∈ o.attributes, a.name = "v-slot") ∨ ∃ s ∈ F.words, StandsBare s

theorem mem_bareIn {a : Attribute} :
    () ∈ bareIn a ↔ a.name = "v-slot" ∨ ∃ s ∈ a.words, StandsBare s := by
  have hname : ¬ StandsBare a.name := by
    rintro ⟨c, q, hc, -, h⟩
    rw [not_isBlank_of_delimits (a.not_delimits_name c (h.mem List.mem_cons_self))] at hc
    cases hc
  rw [bareIn, List.mem_append, Attribute.words, List.exists_mem_cons_iff]
  refine or_congr (by split <;> simp [*]) ?_
  cases a.value with
  | none => simp [hname]
  | some v => simp [hname, mem_scan_bareDirective]

/-- A directive without a name is found in a template if and only if there is one. -/
theorem isSome_first_bareDirective (F : Markup) :
    (first bareDirective F.write).isSome = true ↔ F.HasBare := by
  have hfirst : (first bareDirective F.write).isSome = true ↔ () ∈ scan bareDirective F.write := by
    rw [first, firstFrom_eq_head? fun _ => rfl, scan]
    cases all bareDirective none 0 F.write <;> simp
  have hwords : (∃ s ∈ F.words, StandsBare s) ↔ (∃ t ∈ F.texts, StandsBare t) ∨
      (∃ r ∈ F.comments, StandsBare (r ++ Text.ofString "--")) ∨
      ∃ o ∈ F.openings, ∃ a ∈ o.attributes, ∃ s ∈ a.words, StandsBare s := by
    simp only [Markup.words, Markup.mem_collect, List.mem_singleton, List.mem_flatMap]
    constructor
    · rintro ⟨s, ⟨t, ht, rfl⟩ | ⟨r, hr, rfl⟩ | ⟨o, ho, a, ha, hs⟩, h⟩
      · exact .inl ⟨s, ht, h⟩
      · exact .inr (.inl ⟨r, hr, h⟩)
      · exact .inr (.inr ⟨o, ho, a, ha, s, hs, h⟩)
    · rintro (⟨t, ht, h⟩ | ⟨r, hr, h⟩ | ⟨o, ho, a, ha, s, hs, h⟩)
      · exact ⟨t, .inl ⟨t, ht, rfl⟩, h⟩
      · exact ⟨_, .inr (.inl ⟨r, hr, rfl⟩), h⟩
      · exact ⟨s, .inr (.inr ⟨o, ho, a, ha, hs⟩), h⟩
  rw [hfirst, readsPieces_bareDirective.scan_write (fun _ _ => trivial) fun _ _ => trivial,
    Markup.mem_collect, Markup.HasBare, hwords]
  simp only [List.mem_flatMap, mem_scan_bareDirective, mem_bareIn, and_or_left, exists_or, or_left_comm]

end SurfaceCoverage.Template
