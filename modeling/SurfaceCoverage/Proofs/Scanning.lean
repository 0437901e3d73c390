import Mathlib.Data.List.Forall2
import Mathlib.Data.List.TakeDrop
import SurfaceCoverage.Text.Letters
import SurfaceCoverage.Text.Scan
/-!
# Scans of a text that is written piece by piece

A scan of a sequence goes through its pieces in turn. A piece at whose elements a pattern cannot
begin is passed over, a match takes its whole piece, and each time the scan goes on with the rest as
if it began there. The rest stands in every lemma, since where a match ends may depend on it.
-/

namespace SurfaceCoverage

namespace Scan

attribute [local simp] all removeFrom firstFrom behind? splitWhere? lastWhere?

variable {α β : Type} {p : Pattern α β}

/-- A pattern that does not look at what stands before its place. -/
def Blind (p : Pattern α β) : Prop := ∀ previous as, p previous as = p none as

/-- A pattern that does not begin at an element, whatever comes behind it. -/
def Pattern.Avoids (p : Pattern α β) (a : α) : Prop := ∀ as, p none (a :: as) = none

/-- A pattern with something else made of what it matches. -/
def Pattern.map {γ : Type} (f : β → γ) (p : Pattern α β) : Pattern α γ := fun previous as =>
  (p previous as).map fun m => (f m.1, m.2)

/-! ## All matches -/

theorem all_map {γ : Type} (f : β → γ) (p : Pattern α β) (previous : Option α) (n : Nat) (as : List α) :
    all (p.map f) previous n as = (all p previous n as).map f := by
  induction as generalizing previous n with
  | nil => rfl
  | cons a as ih =>
    cases n with
    | succ n => exact ih (some a) n
    | zero =>
      rw [all, all, Pattern.map]
      cases p previous (a :: as) with
      | none => exact ih (some a) 0
      | some m => exact congrArg (f m.1 :: ·) (ih (some a) (m.2 - 1))

theorem all_blind (hp : Blind p) (previous : Option α) (n : Nat) (as : List α) :
    all p previous n as = all p none n as := by
  cases as with
  | nil => rfl
  | cons a as =>
    cases n with
    | zero => rw [all, all, hp previous]
    | succ n => rfl

theorem all_skip (hp : Blind p) (s rest : List α) :
    all p none s.length (s ++ rest) = all p none 0 rest := by
  induction s with
  | nil => rfl
  | cons a s ih =>
    rw [List.length_cons, List.cons_append, all, all_blind hp]
    exact ih

/-- A piece that a pattern avoids is passed over, also from within a match that ends in it. -/
theorem all_pass (hp : Blind p) {s : List α} (hs : ∀ a ∈ s, p.Avoids a) {n : Nat} (hn : n ≤ s.length)
    (rest : List α) : all p none n (s ++ rest) = all p none 0 rest := by
  induction s generalizing n with
  | nil =>
    rw [Nat.le_zero.1 hn]
    rfl
  | cons a s ih =>
    have hs' := fun b hb => hs b (List.mem_cons_of_mem a hb)
    cases n with
    | zero =>
      rw [List.cons_append, all]
      simp only [hs a List.mem_cons_self (s ++ rest)]
      rw [all_blind hp]
      exact ih hs' (Nat.zero_le _)
    | succ n =>
      rw [List.cons_append, all, all_blind hp]
      exact ih hs' (Nat.le_of_succ_le_succ hn)

theorem exists_all_of_match {s : List α} {m : β × Nat} (hs : s ≠ []) (h : p none s = some m) :
    ∃ bs, all p none 0 s = m.1 :: bs := by
  obtain ⟨a, s, rfl⟩ := List.exists_cons_of_ne_nil hs
  rw [all]
  simp only [h]
  exact ⟨_, rfl⟩

/-- A piece at whose places a pattern does not match is passed over. -/
theorem all_pass_of_suffix (hp : Blind p) {s rest : List α}
    (hs : ∀ t, t ≠ [] → t <:+ s → p none (t ++ rest) = none) :
    all p none 0 (s ++ rest) = all p none 0 rest := by
  induction s with
  | nil => rfl
  | cons a s ih =>
    have ha := hs (a :: s) (List.cons_ne_nil a s) (List.suffix_refl _)
    rw [List.cons_append] at ha ⊢
    rw [all]
    simp only [ha]
    rw [all_blind hp]
    exact ih fun t hne ht => hs t hne (ht.trans (List.suffix_cons a s))

/-- A match takes its piece. -/
theorem all_match (hp : Blind p) {s rest : List α} {b : β} (hs : s ≠ [])
    (h : p none (s ++ rest) = some (b, s.length)) : all p none 0 (s ++ rest) = b :: all p none 0 rest := by
  obtain ⟨a, s, rfl⟩ := List.exists_cons_of_ne_nil hs
  rw [List.cons_append] at h ⊢
  rw [all]
  simp only [h, List.length_cons, Nat.add_sub_cancel]
  rw [all_blind hp, all_skip hp]

/-- A match that ends within a piece whose other elements the pattern avoids. -/
theorem all_match_within (hp : Blind p) {a : α} {s rest : List α} {b : β} {n : Nat}
    (h : p none (a :: (s ++ rest)) = some (b, n + 1)) (hs : ∀ a ∈ s, p.Avoids a) (hn : n ≤ s.length) :
    all p none 0 (a :: (s ++ rest)) = b :: all p none 0 rest := by
  rw [all]
  simp only [h, Nat.add_sub_cancel]
  rw [all_blind hp, all_pass hp hs hn]

/-- A piece is scanned on its own if matches in it neither reach nor see what follows it. -/
theorem all_append (hp : Blind p) {s rest : List α}
    (hfits : ∀ t b n, t <:+ s → p none t = some (b, n) → n ≤ t.length)
    (hrest : ∀ t, t ≠ [] → t <:+ s → p none (t ++ rest) = p none t) {n : Nat} (hn : n ≤ s.length) :
    all p none n (s ++ rest) = all p none n s ++ all p none 0 rest := by
  -- `n` elements still belong to the match before, which has to end within the piece as well
  induction s generalizing n with
  | nil =>
    rw [Nat.le_zero.1 hn]
    rfl
  | cons a s ih =>
    have hsuffix : ∀ {t}, t <:+ s → t <:+ a :: s := fun ht => ht.trans (List.suffix_cons a s)
    have ih := fun n => @ih (fun t b n ht => hfits t b n (hsuffix ht))
      (fun t h ht => hrest t h (hsuffix ht)) n
    cases n with
    | succ n =>
      rw [List.cons_append, all, all, all_blind hp, all_blind hp (some a) n s]
      exact ih n (Nat.le_of_succ_le_succ hn)
    | zero =>
      have hsame := hrest (a :: s) (List.cons_ne_nil a s) (List.suffix_refl _)
      rw [List.cons_append] at hsame ⊢
      rw [all, all, hsame]
      cases hmatch : p none (a :: s) with
      | none =>
        simp only
        rw [all_blind hp, all_blind hp (some a) 0 s]
        exact ih 0 (Nat.zero_le _)
      | some m =>
        have hlength := hfits _ _ _ (List.suffix_refl _) hmatch
        rw [List.length_cons] at hlength
        simp only
        rw [all_blind hp, all_blind hp (some a) _ s, ih (m.2 - 1) (by omega), List.cons_append]

/-- Nothing is found if and only if the pattern matches at no place. -/
theorem all_eq_nil_iff (hp : Blind p) {s : List α} :
    all p none 0 s = [] ↔ ∀ t, t ≠ [] → t <:+ s → p none t = none := by
  induction s with
  | nil => exact ⟨fun _ t h ht => absurd (List.suffix_nil.1 ht) h, fun _ => rfl⟩
  | cons a s ih =>
    rw [all]
    cases hmatch : p none (a :: s) with
    | none =>
      simp only
      rw [all_blind hp, ih]
      refine ⟨fun h t hne ht => ?_, fun h t hne ht => h t hne (ht.trans (List.suffix_cons a s))⟩
      rcases List.suffix_cons_iff.1 ht with rfl | ht
      · exact hmatch
      · exact h t hne ht
    | some m =>
      constructor
      · intro h
        cases h
      · intro h
        rw [h _ (List.cons_ne_nil a s) (List.suffix_refl _)] at hmatch
        cases hmatch

/-- The first match is the first of all. -/
theorem firstFrom_eq_head? (hp : ∀ previous, p previous [] = none) (previous : Option α) (as : List α) :
    firstFrom p previous as = (all p previous 0 as).head? := by
  induction as generalizing previous with
  | nil => rw [firstFrom, hp, all, List.head?_nil, Option.map_none]
  | cons a as ih =>
    rw [firstFrom, all]
    cases p previous (a :: as) with
    | none => exact ih (some a)
    | some m => rfl

/-! ## Removal -/

theorem removeFrom_blind (hp : Blind p) (previous : Option α) (n : Nat) (as : List α) :
    removeFrom p previous n as = removeFrom p none n as := by
  cases as with
  | nil => rfl
  | cons a as =>
    cases n with
    | zero => rw [removeFrom, removeFrom, hp previous]
    | succ n => rfl

theorem removeFrom_keep (hp : Blind p) {a : α} {s : List α} (h : p none (a :: s) = none) :
    removeFrom p none 0 (a :: s) = a :: removeFrom p none 0 s := by
  rw [removeFrom]
  simp only [h]
  rw [removeFrom_blind hp]

theorem removeFrom_pass (hp : Blind p) {s : List α} (hs : ∀ a ∈ s, p.Avoids a) (rest : List α) :
    removeFrom p none 0 (s ++ rest) = s ++ removeFrom p none 0 rest := by
  induction s with
  | nil => rfl
  | cons a s ih =>
    rw [List.cons_append, removeFrom_keep hp (hs a List.mem_cons_self _),
      ih fun b hb => hs b (List.mem_cons_of_mem a hb)]
    rfl

theorem removeFrom_skip (hp : Blind p) (s rest : List α) :
    removeFrom p none s.length (s ++ rest) = removeFrom p none 0 rest := by
  induction s with
  | nil => rfl
  | cons a s ih =>
    rw [List.length_cons, List.cons_append, removeFrom, removeFrom_blind hp]
    exact ih

theorem removeFrom_match (hp : Blind p) {s rest : List α} {b : β} (hs : s ≠ [])
    (h : p none (s ++ rest) = some (b, s.length)) :
    removeFrom p none 0 (s ++ rest) = removeFrom p none 0 rest := by
  obtain ⟨a, s, rfl⟩ := List.exists_cons_of_ne_nil hs
  rw [List.cons_append] at h ⊢
  rw [removeFrom]
  simp only [h, List.length_cons, Nat.add_sub_cancel]
  rw [removeFrom_blind hp, removeFrom_skip hp]

/-! ## The first match -/

/-- The element before the place behind a piece. -/
def lastOf (previous : Option α) (s : List α) : Option α := s.foldl (fun _ a => some a) previous

@[simp] theorem lastOf_nil (previous : Option α) : lastOf previous [] = previous := rfl

@[simp] theorem lastOf_cons (previous : Option α) (a : α) (s : List α) :
    lastOf previous (a :: s) = lastOf (some a) s := rfl

@[simp] theorem lastOf_append (previous : Option α) (s t : List α) :
    lastOf previous (s ++ t) = lastOf (lastOf previous s) t := by
  simp [lastOf]

/-- A pattern matches nowhere in a piece that is followed by a rest. -/
def Misses (p : Pattern α β) : Option α → List α → List α → Prop
  | _, [], _ => True
  | previous, a :: s, rest => p previous (a :: (s ++ rest)) = none ∧ Misses p (some a) s rest

theorem firstFrom_misses {previous : Option α} {s rest : List α} (h : Misses p previous s rest) :
    firstFrom p previous (s ++ rest) = firstFrom p (lastOf previous s) rest := by
  induction s generalizing previous with
  | nil => rfl
  | cons a s ih =>
    rw [List.cons_append, firstFrom]
    simp only [h.1]
    exact ih h.2

theorem misses_append {previous : Option α} {s t rest : List α} :
    Misses p previous (s ++ t) rest ↔
      Misses p previous s (t ++ rest) ∧ Misses p (lastOf previous s) t rest := by
  induction s generalizing previous with
  | nil => simp [Misses]
  | cons a s ih => simp only [List.cons_append, Misses, ih, lastOf_cons, List.append_assoc, and_assoc]

theorem misses_of_avoids {s : List α} (hs : ∀ a ∈ s, ∀ previous as, p previous (a :: as) = none)
    (previous : Option α) (rest : List α) : Misses p previous s rest := by
  induction s generalizing previous with
  | nil => trivial
  | cons a s ih =>
    exact ⟨hs a List.mem_cons_self _ _, ih (fun b hb => hs b (List.mem_cons_of_mem a hb)) _⟩

theorem misses_of_suffix {s rest : List α}
    (h : ∀ previous t, t ≠ [] → t <:+ s → p previous (t ++ rest) = none) (previous : Option α) :
    Misses p previous s rest := by
  induction s generalizing previous with
  | nil => trivial
  | cons a s ih =>
    exact ⟨h previous (a :: s) (List.cons_ne_nil a s) (List.suffix_refl _),
      ih (fun previous t hne ht => h previous t hne (ht.trans (List.suffix_cons a s))) _⟩

/-- The last element of a piece stands before what follows it. -/
theorem exists_lastOf {s : List α} (hs : s ≠ []) (previous : Option α) :
    ∃ a ∈ s, lastOf previous s = some a := by
  induction s generalizing previous with
  | nil => exact absurd rfl hs
  | cons a s ih =>
    rcases s with _ | ⟨b, s⟩
    · exact ⟨a, List.mem_cons_self, rfl⟩
    · obtain ⟨c, hc, hlast⟩ := ih (List.cons_ne_nil b s) (some a)
      exact ⟨c, List.mem_cons_of_mem a hc, hlast⟩

/-! ## Runs and words -/

/-- A run ends where an element does not go on with it. -/
theorem takeWhile_append {test : α → Bool} {s rest : List α} (hs : ∀ a ∈ s, test a = true)
    (hr : ∀ a ∈ rest.head?, test a = false) : (s ++ rest).takeWhile test = s := by
  rw [List.takeWhile_append_of_pos hs]
  cases rest with
  | nil => simp
  | cons a rest => simp [hr a rfl]

/-- What stands behind the end of a run does not count. -/
theorem takeWhile_append_cons {test : α → Bool} {a : α} (ha : test a = false) (s rest : List α) :
    (s ++ a :: rest).takeWhile test = s.takeWhile test := by
  induction s with
  | nil => simp [ha]
  | cons b s ih =>
    rw [List.cons_append, List.takeWhile_cons, List.takeWhile_cons, ih]

theorem dropWhile_append {test : α → Bool} {s rest : List α} (hs : ∀ a ∈ s, test a = true)
    (hr : ∀ a ∈ rest.head?, test a = false) : (s ++ rest).dropWhile test = rest := by
  rw [List.dropWhile_append_of_pos hs]
  cases rest with
  | nil => simp
  | cons a rest => simp [hr a rfl]

theorem dropWhile_append_cons {test : α → Bool} {a : α} (ha : test a = false) (s rest : List α) :
    (s ++ a :: rest).dropWhile test = s.dropWhile test ++ a :: rest := by
  rw [List.dropWhile_append]
  split
  · rename_i h
    rw [List.isEmpty_iff.1 h, List.dropWhile_cons_of_neg (by simp [ha])]
    rfl
  · rfl

theorem span_append {test : α → Bool} {s rest : List α} (hs : ∀ a ∈ s, test a = true)
    (hr : ∀ a ∈ rest.head?, test a = false) : (s ++ rest).span test = (s, rest) := by
  rw [List.span_eq_takeWhile_dropWhile, takeWhile_append hs hr, dropWhile_append hs hr]

theorem behind?_eq_some {same : Char → α → Bool} {w : List Char} {as rest : List α} :
    behind? same w as = some rest ↔
      ∃ s, as = s ++ rest ∧ List.Forall₂ (fun c a => same c a = true) w s := by
  induction w generalizing as with
  | nil =>
    rw [behind?, Option.some.injEq]
    constructor
    · rintro rfl
      exact ⟨[], rfl, .nil⟩
    · rintro ⟨s, rfl, hs⟩
      cases hs
      rfl
  | cons c w ih =>
    cases as with
    | nil =>
      rw [behind?]
      constructor
      · intro h
        cases h
      · rintro ⟨s, hs, hf⟩
        cases hf
        cases hs
    | cons a as =>
      rw [behind?]
      constructor
      · intro h
        split at h
        · obtain ⟨s, rfl, hf⟩ := ih.1 h
          exact ⟨a :: s, rfl, .cons ‹_› hf⟩
        · cases h
      · rintro ⟨s, hs, hf⟩
        cases hf with
        | cons ha hf =>
          cases hs
          rw [if_pos ha]
          exact ih.2 ⟨_, rfl, hf⟩

/-- A word that does not hold an element does not reach across it. -/
theorem behind?_append_cons {same : Char → α → Bool} {w : List Char} {a : α}
    (ha : ∀ c ∈ w, same c a = false) (s rest : List α) :
    behind? same w (s ++ a :: rest) = (behind? same w s).map (· ++ a :: rest) := by
  induction w generalizing s with
  | nil => rfl
  | cons c w ih =>
    cases s with
    | nil => simp [ha c List.mem_cons_self]
    | cons b s =>
      rw [List.cons_append, behind?, behind?]
      split
      · exact ih (fun d hd => ha d (List.mem_cons_of_mem c hd)) s
      · rfl

/-- A split passes by a piece in which the test fails everywhere. -/
theorem splitWhere?_skip {test : List α → Bool} {s rest : List α} (acc : List α)
    (hs : ∀ t, t ≠ [] → t <:+ s → test (t ++ rest) = false) :
    splitWhere? test acc (s ++ rest) = splitWhere? test (s.reverse ++ acc) rest := by
  induction s generalizing acc with
  | nil => rfl
  | cons a s ih =>
    have ha := hs (a :: s) (List.cons_ne_nil a s) (List.suffix_refl _)
    rw [List.cons_append] at ha ⊢
    rw [splitWhere?, if_neg (by simp [ha]),
      ih (a :: acc) fun t ht hts => hs t ht (hts.trans (List.suffix_cons a s)), List.reverse_cons,
      List.append_assoc, List.singleton_append]

theorem splitWhere?_hit {test : List α → Bool} {s : List α} (acc : List α) (hs : test s = true) :
    splitWhere? test acc s = some (acc.reverse, s) := by
  cases s <;> rw [splitWhere?, if_pos hs]

theorem splitWhere?_append {test : List α → Bool} {s rest : List α} (acc : List α)
    (hs : ∀ t, t ≠ [] → t <:+ s → test (t ++ rest) = false) (hr : test rest = true) :
    splitWhere? test acc (s ++ rest) = some (acc.reverse ++ s, rest) := by
  rw [splitWhere?_skip acc hs, splitWhere?_hit _ hr, List.reverse_append, List.reverse_reverse]

theorem exists_splitWhere? {test : List α → Bool} {s t : List α} (acc : List α) (ht : t <:+ s)
    (h : test t = true) : ∃ u v, splitWhere? test acc s = some (acc.reverse ++ u, v) := by
  induction s generalizing acc with
  | nil =>
    rw [List.suffix_nil.1 ht] at h
    exact ⟨[], [], by simp [h]⟩
  | cons a s ih =>
    by_cases ha : test (a :: s) = true
    · exact ⟨[], a :: s, by simp [ha]⟩
    · rcases List.suffix_cons_iff.1 ht with rfl | ht
      · exact absurd h ha
      · obtain ⟨u, v, hsplit⟩ := ih (a :: acc) ht
        exact ⟨a :: u, v, by simp [ha, hsplit]⟩

theorem splitWhere?_eq_none {test : List α → Bool} {s : List α} (acc : List α)
    (hs : ∀ t, t <:+ s → test t = false) : splitWhere? test acc s = none := by
  induction s generalizing acc with
  | nil => rw [splitWhere?, if_neg (by simp [hs [] (List.suffix_refl _)])]
  | cons a s ih =>
    rw [splitWhere?, if_neg (by simp [hs _ (List.suffix_refl _)])]
    exact ih _ fun t ht => hs t (ht.trans (List.suffix_cons a s))

theorem lastWhere?_miss {test : List α → Bool} {s : List α} (n : Nat) (found : Option Nat)
    (hs : ∀ t, t <:+ s → test t = false) : lastWhere? test n found s = found := by
  induction s generalizing n with
  | nil => rw [lastWhere?, if_neg (by simp [hs [] (List.suffix_refl _)])]
  | cons a s ih =>
    rw [lastWhere?, if_neg (by simp [hs _ (List.suffix_refl _)])]
    exact ih (n + 1) fun t ht => hs t (ht.trans (List.suffix_cons a s))

/-- The last place where a test succeeds, whatever places there are before it. -/
theorem lastWhere?_append {test : List α → Bool} (s : List α) {a : α} {rest : List α} (n : Nat)
    (found : Option Nat) (ha : test (a :: rest) = true) (hrest : ∀ t, t <:+ rest → test t = false) :
    lastWhere? test n found (s ++ a :: rest) = some (n + s.length) := by
  induction s generalizing n found with
  | nil =>
    rw [List.nil_append, lastWhere?, if_pos ha, lastWhere?_miss _ _ hrest]
    rfl
  | cons b s ih =>
    rw [List.cons_append, lastWhere?, ih, List.length_cons]
    congr 1
    omega

end Scan

namespace Text

theorem dropStart?_eq_some {t w r : Text} : dropStart? t w = some r ↔ t = w ++ r := by
  induction w generalizing t with
  | nil => cases t <;> simp [dropStart?, eq_comm]
  | cons b w ih =>
    cases t with
    | nil => simp [dropStart?]
    | cons a t =>
      rw [dropStart?]
      split
      · rename_i h
        rw [ih, h, List.cons_append, List.cons.injEq, eq_self, true_and]
      · rename_i h
        simp [h]

theorem dropStart?_append (w r : Text) : dropStart? (w ++ r) w = some r := dropStart?_eq_some.2 rfl

/-- A word that does not hold an element does not reach across it. -/
theorem dropStart?_append_cons {c : CodePoint} {w : Text} (hc : c ∉ w) (s r : Text) :
    dropStart? (s ++ c :: r) w = (dropStart? s w).map (· ++ c :: r) := by
  induction w generalizing s with
  | nil => cases s <;> simp [dropStart?]
  | cons b w ih =>
    have hb : c ≠ b := fun h => hc (h ▸ List.mem_cons_self)
    have hw : c ∉ w := fun h => hc (List.mem_cons_of_mem b h)
    cases s with
    | nil => simp [dropStart?, hb]
    | cons a s =>
      rw [List.cons_append, dropStart?, dropStart?]
      split
      · exact ih hw s
      · rfl

theorem startsWith_iff {t w : Text} : t.startsWith w = true ↔ w <+: t := by
  rw [startsWith, Option.isSome_iff_exists]
  constructor
  · rintro ⟨r, hr⟩
    exact ⟨r, (dropStart?_eq_some.1 hr).symm⟩
  · rintro ⟨r, hr⟩
    exact ⟨r, dropStart?_eq_some.2 hr.symm⟩

end Text
end SurfaceCoverage
