import SurfaceCoverage.Proofs.Inquiry
/-!
# Expansions without a trail

If lookups have answers of their own, an expansion is a function of its depth: `unfold`. More depth
can only turn the failure to end into something else (`unfold_le`). A word is above another one if
the one cannot end before the other does (`Above`). A word above itself never ends, whatever the
depth (`endless_of_above_self`).
-/

namespace SurfaceCoverage

variable {α β : Type}

/-- What lookups come to. -/
abbrev Lookups := Query → Except Failure (Option Declaration)

theorem Inquiry.eval_congr {f g : Mention → Except Failure β}
    (h : ∀ m, f m ≠ .error .endless → g m = f m) {p : Inquiry β α}
    (hp : p.eval f ≠ .error .endless) : p.eval g = p.eval f := by
  induction p with
  | done e => rfl
  | ask m next ih =>
    simp only [eval] at hp ⊢
    cases hf : f m with
    | error e =>
      rw [hf] at hp
      have he : f m ≠ .error .endless := by
        rw [hf]
        intro he
        exact hp (by cases he; rfl)
      rw [h m he, hf]
      rfl
    | ok b =>
      rw [hf] at hp
      rw [h m (by rw [hf]; simp), hf]
      exact ih b hp

namespace Expansion

/-- What a word comes to, with words nested to a depth. -/
def unfold (x : Expansion β) (look : Lookups) : Nat → Mention → Except Failure β
  | depth, m => do
    match (← look m.query).bind (x.inquire m.meaning) with
    | none => return x.missed
    | some p =>
      match depth with
      | 0 => .error .endless
      | depth + 1 => p.eval (x.unfold look depth)

variable {x : Expansion β} {look : Lookups} {m m' : Mention}

/-- A word leads to a declaration that goes on. -/
def Opens (x : Expansion β) (look : Lookups) (m : Mention) (p : Inquiry β β) : Prop :=
  ∃ d, look m.query = .ok (some d) ∧ x.inquire m.meaning d = some p

theorem unfold_of_opens {p : Inquiry β β} (h : x.Opens look m p) :
    x.unfold look 0 m = .error .endless ∧
      ∀ k, x.unfold look (k + 1) m = p.eval (x.unfold look k) := by
  obtain ⟨d, hd, hp⟩ := h
  refine ⟨?_, fun k => ?_⟩
  · rw [unfold, hd]
    simp only [bind, Except.bind, Option.bind_some, hp]
  · rw [unfold, hd]
    simp only [bind, Except.bind, Option.bind_some, hp]

/-- A word that does not lead on comes to the same at every depth. -/
theorem unfold_of_not_opens (h : ∀ p, ¬ x.Opens look m p) (k : Nat) :
    x.unfold look k m = (look m.query).map fun _ => x.missed := by
  rw [unfold]
  rcases hl : look m.query with f | _ | d
  · rfl
  · rfl
  · cases hp : x.inquire m.meaning d with
    | none =>
      show (match (some d).bind (x.inquire m.meaning) with | none => _ | some p => _) = _
      rw [Option.bind_some, hp]
      rfl
    | some p => exact absurd ⟨d, hl, hp⟩ (h p)

/-- Words that are looked up alike unfold alike. -/
theorem unfold_congr (hl : look m.query = look m'.query) (hm : m.meaning = m'.meaning) (k : Nat) :
    x.unfold look k m = x.unfold look k m' := by
  rw [unfold, unfold, hl, hm]

theorem unfold_succ (k : Nat) (h : x.unfold look k m ≠ .error .endless) :
    x.unfold look (k + 1) m = x.unfold look k m := by
  induction k generalizing m with
  | zero =>
    by_cases ho : ∃ p, x.Opens look m p
    · obtain ⟨p, hp⟩ := ho
      exact absurd (unfold_of_opens hp).1 h
    · have hn : ∀ p, ¬ x.Opens look m p := fun p hp => ho ⟨p, hp⟩
      rw [unfold_of_not_opens hn, unfold_of_not_opens hn]
  | succ k ih =>
    by_cases ho : ∃ p, x.Opens look m p
    · obtain ⟨p, hp⟩ := ho
      have hk := (unfold_of_opens hp).2
      rw [hk] at h
      rw [hk, hk]
      exact Inquiry.eval_congr (fun m' hm => ih hm) h
    · have hn : ∀ p, ¬ x.Opens look m p := fun p hp => ho ⟨p, hp⟩
      rw [unfold_of_not_opens hn, unfold_of_not_opens hn]

/-- More depth changes nothing that has ended. -/
theorem unfold_le {j k : Nat} (hjk : j ≤ k) (h : x.unfold look j m ≠ .error .endless) :
    x.unfold look k m = x.unfold look j m := by
  induction hjk with
  | refl => rfl
  | step _ ih => rw [unfold_succ _ (by rw [ih]; exact h), ih]

/-- A word that comes to a value at some depth comes to it at each one, or does not end there. -/
theorem unfold_of_ok {k : Nat} {b : β} (h : x.unfold look k m = .ok b) (j : Nat) :
    x.unfold look j m = .ok b ∨ x.unfold look j m = .error .endless := by
  by_cases he : x.unfold look j m = .error .endless
  · exact .inr he
  · rcases Nat.le_total j k with hjk | hkj
    · exact .inl (by rw [← unfold_le hjk he, h])
    · exact .inl (by rw [unfold_le hkj (by rw [h]; simp), h])

/-- A word cannot end before another one does. -/
structure Above (x : Expansion β) (look : Lookups) (m m' : Mention) : Prop where
  zero : x.unfold look 0 m = .error .endless
  later : ∃ n, 0 < n ∧ ∀ k, x.unfold look k m' = .error .endless →
    x.unfold look (k + n) m = .error .endless

theorem Above.trans {m'' : Mention} (h : x.Above look m m') (h' : x.Above look m' m'') :
    x.Above look m m'' := by
  obtain ⟨n, hn, hlater⟩ := h.later
  obtain ⟨n', hn', hlater'⟩ := h'.later
  refine ⟨h.zero, n' + n, by omega, fun k hk => ?_⟩
  rw [← Nat.add_assoc]
  exact hlater (k + n') (hlater' k hk)

/-- A word that cannot end before itself never ends. -/
theorem endless_of_above_self (h : x.Above look m m) (k : Nat) :
    x.unfold look k m = .error .endless := by
  obtain ⟨n, hn, hlater⟩ := h.later
  have hmul : ∀ i, x.unfold look (i * n) m = .error .endless := by
    intro i
    induction i with
    | zero => rw [Nat.zero_mul]; exact h.zero
    | succ i ih => rw [Nat.succ_mul]; exact hlater _ ih
  -- some multiple of `n` is as deep as `k`, and less depth does not help
  refine Classical.byContradiction fun hk => ?_
  have hle : k ≤ k * n := Nat.le_mul_of_pos_right k hn
  rw [← unfold_le hle hk] at hk
  exact hk (hmul k)

/-- A word that cannot end before one that never ends does not end either. -/
theorem endless_of_above (h : x.Above look m m') (h' : ∀ k, x.unfold look k m' = .error .endless)
    (k : Nat) : x.unfold look k m = .error .endless := by
  obtain ⟨n, -, hlater⟩ := h.later
  refine Classical.byContradiction fun hk => ?_
  have hdeep := hlater k (h' k)
  rw [unfold_le (Nat.le_add_right k n) hk] at hdeep
  exact hk hdeep

end Expansion
end SurfaceCoverage
