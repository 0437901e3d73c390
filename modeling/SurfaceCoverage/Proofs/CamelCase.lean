import SurfaceCoverage.Proofs.Pooling
/-!
# Names in camel case

Camel case is made in one pass from left to right. What the pass leaves is dashed again only where
two dashes stood in front of a digit: the second goes, the digit is its own capital, and so the first
dash comes to stand in front of it. All other names are left alone by a second pass, and then reports
make no difference between a name with dashes and the same name in camel case, neither where it is
declared nor where it is mentioned.
-/

namespace SurfaceCoverage

namespace Text

/-- A code point is a dash, and a small letter or a digit is next. -/
def DashesNext (p : CodePoint) (t : Text) : Prop :=
  p = .scalar '-' ∧ ∃ c : Char, followsDash c = true ∧ t.head? = some (.scalar c)

/-- Somewhere a dash stands in front of a small letter or a digit. -/
def IsDashed (t : Text) : Prop :=
  ∃ c : Char, followsDash c = true ∧ [CodePoint.scalar '-', .scalar c] <:+: t

/-- Somewhere two dashes stand in front of a digit. -/
def DashesDigit (t : Text) : Prop :=
  ∃ d : Char, d.isDigit = true ∧ [CodePoint.scalar '-', .scalar '-', .scalar d] <:+: t

theorem not_isDashed_nil : ¬ IsDashed [] := by
  rintro ⟨c, -, h⟩
  cases List.infix_nil.1 h

theorem not_dashesDigit_nil : ¬ DashesDigit [] := by
  rintro ⟨d, -, h⟩
  cases List.infix_nil.1 h

theorem isDashed_cons {p : CodePoint} {t : Text} :
    IsDashed (p :: t) ↔ DashesNext p t ∨ t.IsDashed := by
  unfold IsDashed DashesNext
  constructor
  · rintro ⟨c, hc, h⟩
    rcases List.infix_cons_iff.1 h with h | h
    · obtain ⟨hp, rest, rfl⟩ := List.cons_prefix_cons.1 h
      exact .inl ⟨hp.symm, c, hc, rfl⟩
    · exact .inr ⟨c, hc, h⟩
  · rintro (⟨rfl, c, hc, hhead⟩ | ⟨c, hc, h⟩)
    · obtain ⟨rest, rfl⟩ := List.head?_eq_some_iff.1 hhead
      exact ⟨c, hc, List.infix_cons_iff.2 (.inl ⟨rest, rfl⟩)⟩
    · exact ⟨c, hc, List.infix_cons_iff.2 (.inr h)⟩

theorem dashesDigit_cons {p : CodePoint} {t : Text} : DashesDigit (p :: t) ↔
    (p = .scalar '-' ∧ ∃ d : Char, d.isDigit = true ∧ [CodePoint.scalar '-', .scalar d] <+: t) ∨
      t.DashesDigit := by
  unfold DashesDigit
  constructor
  · rintro ⟨d, hd, h⟩
    rcases List.infix_cons_iff.1 h with h | h
    · obtain ⟨hp, hbegins⟩ := List.cons_prefix_cons.1 h
      exact .inl ⟨hp.symm, d, hd, hbegins⟩
    · exact .inr ⟨d, hd, h⟩
  · rintro (⟨rfl, d, hd, h⟩ | ⟨d, hd, h⟩)
    · exact ⟨d, hd, List.infix_cons_iff.2 (.inl (List.cons_prefix_cons.2 ⟨rfl, h⟩))⟩
    · exact ⟨d, hd, List.infix_cons_iff.2 (.inr h)⟩

end Text

/-! ## One pass -/

attribute [local simp] camelize

theorem toNat_lt_of_followsDash {c : Char} (h : followsDash c = true) : c.toNat < 128 := by
  have hle : c.val ≤ 'z'.val := by
    rcases Bool.or_eq_true_iff.1 h with h | h
    · exact of_decide_eq_true (Bool.and_eq_true_iff.1 h).2
    · exact UInt32.le_trans (of_decide_eq_true (Bool.and_eq_true_iff.1 h).2) (by decide)
  exact Nat.lt_of_le_of_lt (UInt32.le_iff_toNat_le.1 hle) (by decide)

/-- Of the capitals, digits alone can follow a dash once more. -/
theorem followsDash_toUpper {c : Char} (h : followsDash c = true) :
    followsDash c.toUpper = c.isDigit ∧ (c.isDigit = true → c.toUpper = c) ∧ c ≠ '-' ∧
      c.toUpper ≠ '-' := by
  have hascii : ∀ n < 128, followsDash (Char.ofNat n) = true →
      followsDash (Char.ofNat n).toUpper = (Char.ofNat n).isDigit ∧
        ((Char.ofNat n).isDigit = true → (Char.ofNat n).toUpper = Char.ofNat n) ∧
        Char.ofNat n ≠ '-' ∧ (Char.ofNat n).toUpper ≠ '-' := by
    decide
  have hc := hascii c.toNat (toNat_lt_of_followsDash h)
  rw [Char.ofNat_toNat] at hc
  exact hc h

theorem followsDash_of_isDigit {c : Char} (h : c.isDigit = true) : followsDash c = true := by
  simp [followsDash, h]

theorem camelize_dashed {c : Char} (h : followsDash c = true) (t : Text) :
    camelize (.scalar '-' :: .scalar c :: t) = .scalar c.toUpper :: camelize t := by
  rw [camelize, if_pos h]

/-- A code point that is no dash in front of a small letter or a digit is kept. -/
theorem camelize_kept {p : CodePoint} {t : Text} (h : ¬ Text.DashesNext p t) :
    camelize (p :: t) = p :: camelize t := by
  by_cases hdash : ∃ (c : Char) (rest : Text), p = .scalar '-' ∧ t = .scalar c :: rest
  · obtain ⟨c, rest, rfl, rfl⟩ := hdash
    rw [camelize, if_neg fun hc => h ⟨rfl, c, hc, rfl⟩]
  · rw [camelize]
    exact fun c rest hp ht => hdash ⟨c, rest, hp, ht⟩

/-- A text is empty, or begins with a dashed letter or digit, or with a code point that is kept. -/
theorem camelize_induction {motive : Text → Prop} (nil : motive [])
    (dashed : ∀ (c : Char) (t : Text), followsDash c = true → motive t →
      motive (.scalar '-' :: .scalar c :: t))
    (kept : ∀ (p : CodePoint) (t : Text), ¬ Text.DashesNext p t → motive t → motive (p :: t))
    (t : Text) : motive t := by
  induction t using camelize.induct with
  | case1 c t hc ih => exact dashed c t hc ih
  | case2 c t hc ih =>
    refine kept _ _ ?_ ih
    rintro ⟨-, d, hd, hhead⟩
    cases hhead
    exact hc hd
  | case3 p t hp ih =>
    refine kept _ _ ?_ ih
    rintro ⟨rfl, d, hd, hhead⟩
    obtain ⟨rest, rfl⟩ := List.head?_eq_some_iff.1 hhead
    exact hp d rest rfl rfl
  | case4 => exact nil

/-- Camel case brings a letter or digit to the front only from behind a dash. -/
theorem head_camelize {t : Text} {c : Char} (hc : followsDash c = true) :
    (camelize t).head? = some (.scalar c) ↔ t.head? = some (.scalar c) ∨
      (c.isDigit = true ∧ [CodePoint.scalar '-', .scalar c] <+: t) := by
  obtain ⟨-, -, hdash, -⟩ := followsDash_toUpper hc
  induction t using camelize_induction with
  | nil => simp
  | dashed d t hd ih =>
    obtain ⟨hfollows, hself, -, -⟩ := followsDash_toUpper hd
    rw [camelize_dashed hd]
    constructor
    · intro h
      cases h
      rw [hc] at hfollows
      rw [hself hfollows.symm]
      exact .inr ⟨hfollows.symm, t, rfl⟩
    · rintro (h | ⟨hdigit, h⟩)
      · cases h
        exact absurd rfl hdash
      · simp only [List.cons_prefix_cons] at h
        cases h.2.1
        rw [hself hdigit]
        rfl
  | kept p t hp ih =>
    rw [camelize_kept hp]
    refine ⟨.inl, ?_⟩
    rintro (h | ⟨hdigit, h⟩)
    · exact h
    · obtain ⟨hp', rest, rfl⟩ := List.cons_prefix_cons.1 h
      exact absurd ⟨hp'.symm, c, hc, rfl⟩ hp

/-- What is dashed after a pass had two dashes in front of a digit before. -/
theorem isDashed_camelize {t : Text} : (camelize t).IsDashed ↔ t.DashesDigit := by
  induction t using camelize_induction with
  | nil => exact iff_of_false Text.not_isDashed_nil Text.not_dashesDigit_nil
  | dashed c t hc ih =>
    obtain ⟨-, -, hdash, hcapital⟩ := followsDash_toUpper hc
    rw [camelize_dashed hc, Text.isDashed_cons, Text.dashesDigit_cons, Text.dashesDigit_cons, ih]
    constructor
    · rintro (⟨h, -⟩ | h)
      · exact absurd (CodePoint.scalar.inj h) hcapital
      · exact .inr (.inr h)
    · rintro (⟨-, d, -, h⟩ | ⟨h, -⟩ | h)
      · cases (List.cons_prefix_cons.1 h).1
        exact absurd rfl hdash
      · cases h
        exact absurd rfl hdash
      · exact .inr h
  | kept p t hp ih =>
    rw [camelize_kept hp, Text.isDashed_cons, Text.dashesDigit_cons, ih]
    refine or_congr_left (and_congr_right fun hdash => ?_)
    -- the letter or digit behind the dash comes from behind a second dash
    constructor
    · rintro ⟨c, hc, h⟩
      rcases (head_camelize hc).1 h with h | ⟨hdigit, h⟩
      · exact absurd ⟨hdash, c, hc, h⟩ hp
      · exact ⟨c, hdigit, h⟩
    · rintro ⟨d, hd, h⟩
      have hfollows := followsDash_of_isDigit hd
      exact ⟨d, hfollows, (head_camelize hfollows).2 (.inr ⟨hd, h⟩)⟩

theorem length_camelize_le (t : Text) : (camelize t).length ≤ t.length := by
  induction t using camelize_induction with
  | nil => simp
  | dashed c t hc ih =>
    rw [camelize_dashed hc]
    simp only [List.length_cons]
    omega
  | kept p t hp ih =>
    rw [camelize_kept hp]
    simpa using ih

/-- A pass leaves alone what is not dashed. -/
theorem camelize_eq_self_iff {t : Text} : camelize t = t ↔ ¬ t.IsDashed := by
  induction t using camelize_induction with
  | nil => exact iff_of_true rfl Text.not_isDashed_nil
  | dashed c t hc ih =>
    refine iff_of_false (fun h => ?_) fun h => h (Text.isDashed_cons.2 (.inl ⟨rfl, c, hc, rfl⟩))
    have hlength := congrArg List.length h
    have := length_camelize_le t
    rw [camelize_dashed hc] at hlength
    simp only [List.length_cons] at hlength
    omega
  | kept p t hp ih =>
    rw [camelize_kept hp, Text.isDashed_cons, List.cons.injEq, ih]
    simp [hp]

/-- A second pass leaves a name alone unless two dashes stand in front of a digit. -/
theorem camelize_camelize {t : Text} : camelize (camelize t) = camelize t ↔ ¬ t.DashesDigit := by
  rw [camelize_eq_self_iff, isDashed_camelize]

theorem camelize_ne_nil {t : Text} (h : t ≠ []) : camelize t ≠ [] := by
  cases t using camelize_induction with
  | nil => exact absurd rfl h
  | dashed c t hc => simp [camelize_dashed hc]
  | kept p t hp => simp [camelize_kept hp]

/-! ## Spellings in reports -/

/-- Reports make no difference between two names: neither which of them is declared nor which of them
is mentioned decides whether it is covered, and any other name is covered by the one if it is by the
other. -/
def CountAlike (m n : Text) : Prop :=
  ∀ (k : Category) (e : Evidence) (s s' : Surface), m ∈ s.get k → n ∈ s'.get k →
    ((Report.ofEvidence s e).Marks k m ↔ (Report.ofEvidence s' e).Marks k n) ∧
    (∀ found, found = m ∨ found = n → (Report.ofEvidence s (⟨k, found⟩ :: e)).Marks k m ∧
      (Report.ofEvidence s' (⟨k, found⟩ :: e)).Marks k n) ∧
    ∀ t, Report.ofEvidence t (⟨k, m⟩ :: e) = Report.ofEvidence t (⟨k, n⟩ :: e)

theorem Evidence.covers_cons {k c : Category} {found name : Text} {e : Evidence} :
    Evidence.covers (⟨k, found⟩ :: e) c name =
      (decide (k = c ∧ camelize found = camelize name) || e.covers c name) := by
  rw [Bool.eq_iff_iff, Evidence.covers_iff, Bool.or_eq_true, decide_eq_true_iff, Evidence.covers_iff]
  simp only [List.mem_cons, Sighting.mk.injEq, or_and_right, exists_or]
  refine or_congr_left ⟨?_, ?_⟩
  · rintro ⟨_, ⟨rfl, rfl⟩, h⟩
    exact ⟨rfl, h⟩
  · rintro ⟨rfl, h⟩
    exact ⟨found, ⟨rfl, rfl⟩, h⟩

/-- Names that camel case makes the same count alike. -/
theorem countAlike_of_camelize_eq {m n : Text} (h : camelize m = camelize n) : CountAlike m n := by
  intro k e s s' hm hn
  refine ⟨?_, fun found hfound => ?_, fun t => Report.ofEvidence_congr fun c name _ => ?_⟩
  · rw [Report.marks_ofEvidence, Report.marks_ofEvidence, Evidence.covers, Evidence.covers, h]
    exact and_congr_left' (iff_of_true hm hn)
  · have hspelled : camelize found = camelize n := by
      rcases hfound with rfl | rfl
      · exact h
      · rfl
    rw [Report.marks_ofEvidence, Report.marks_ofEvidence, Evidence.covers_cons,
      Evidence.covers_cons, h, hspelled]
    exact ⟨⟨hm, by simp⟩, hn, by simp⟩
  · rw [Evidence.covers_cons, Evidence.covers_cons, h]

theorem countAlike_iff {m n : Text} (hm : m ≠ []) (hn : n ≠ []) :
    CountAlike m n ↔ camelize m = camelize n := by
  refine ⟨fun h => ?_, countAlike_of_camelize_eq⟩
  have hdeclared {name : Text} (hname : name ≠ []) :
      name ∈ (Surface.ofLists fun _ => [name]).get .inputs :=
    MemberList.mem_ofList.2 ⟨List.mem_singleton_self name, hname⟩
  obtain ⟨-, hmarks, -⟩ := h .inputs [] _ _ (hdeclared hm) (hdeclared hn)
  have hcovers := (Report.marks_ofEvidence.1 (hmarks n (.inr rfl)).1).2
  rw [Evidence.covers_cons] at hcovers
  simpa [Evidence.covers, Evidence.names, eq_comm] using hcovers

/-- Camel case made twice is camel case made once for all names but those with two dashes in front of
a digit; and just these are the names for which the spelling, with dashes or in camel case, decides
what reports say. -/
theorem spellings_count_alike (n : Text) :
    (camelize (camelize n) = camelize n ↔ ¬ n.DashesDigit) ∧
      (CountAlike n (camelize n) ↔ ¬ n.DashesDigit) := by
  refine ⟨camelize_camelize, ?_⟩
  by_cases hn : n = []
  · subst hn
    exact iff_of_true (countAlike_of_camelize_eq rfl) Text.not_dashesDigit_nil
  · rw [countAlike_iff hn (camelize_ne_nil hn), eq_comm, camelize_camelize]

/-- With two dashes in front of a digit there are three spellings, and a slot that is declared with
both dashes is not covered by its name in camel case. -/
theorem not_countAlike_doubled :
    ¬ (∀ s, camelize (camelize s) = camelize s) ∧
    (Report.ofEvidence (.ofLists fun _ => ["item--2"]) [⟨.slots, camelize "item--2"⟩]).get .slots =
      [⟨"item--2", false⟩] ∧
    (Report.ofEvidence (.ofLists fun _ => ["item--2"]) [⟨.slots, "item--2"⟩]).get .slots =
      [⟨"item--2", true⟩] := by
  refine ⟨fun h => ?_, rfl, rfl⟩
  exact absurd (h "item--2") (by decide)

end SurfaceCoverage
