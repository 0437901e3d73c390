import Mathlib.Data.List.Forall2
import SurfaceCoverage.Proofs.Literals
/-!
# Results that follow others

A computation attains another if it gives a value whenever the other does, and one that is related
to the other's. Computations that are built alike from parts that attain each other do so as well.
-/

namespace SurfaceCoverage

/-- Whenever the second computation gives a value, the first gives one that it is related to. -/
def Attains {α β : Type} (R : α → β → Prop) (e : Except Failure α) (e' : Except Failure β) : Prop :=
  ∀ b, e' = .ok b → ∃ a, e = .ok a ∧ R a b

section
variable {α β γ δ : Type} {R : α → β → Prop} {S : γ → δ → Prop} {e : Except Failure α}
  {e' : Except Failure β}

theorem attains_pure {a : α} {b : β} (h : R a b) : Attains R (pure a) (pure b) := by
  intro b' hb
  cases hb
  exact ⟨a, rfl, h⟩

theorem attains_of_eq {e e' : Except Failure α} {R : α → α → Prop} (h : e = e') (hR : ∀ a, R a a) :
    Attains R e e' := by
  intro b hb
  exact ⟨b, h.trans hb, hR b⟩

theorem attains_bind {f : α → Except Failure γ} {g : β → Except Failure δ} (h : Attains R e e')
    (hfg : ∀ a b, R a b → Attains S (f a) (g b)) : Attains S (e >>= f) (e' >>= g) := by
  intro d hd
  obtain ⟨b, hb, hd⟩ := exists_ok_of_bind hd
  obtain ⟨a, ha, hab⟩ := h b hb
  obtain ⟨c, hc, hcd⟩ := hfg a b hab d hd
  exact ⟨c, by rw [ha]; exact hc, hcd⟩

theorem Attains.trans {e'' : Except Failure γ} {T : β → γ → Prop} (h : Attains R e e')
    (h' : Attains T e' e'') : Attains (fun a c => ∃ b, R a b ∧ T b c) e e'' := by
  intro c hc
  obtain ⟨b, hb, hbc⟩ := h' c hc
  obtain ⟨a, ha, hab⟩ := h b hb
  exact ⟨a, ha, b, hab, hbc⟩

theorem attains_refl {e : Except Failure (List α)} : Attains (· ⊆ ·) e e :=
  attains_of_eq rfl List.Subset.refl

theorem attains_nil {e : Except Failure (List α)} : Attains (· ⊆ ·) (.ok []) e :=
  fun b _ => ⟨[], rfl, List.nil_subset b⟩

/-- Results of elements that come from others, in order, come from theirs. -/
theorem attains_mapM {f : α → Except Failure γ} {g : β → Except Failure δ} {as : List α}
    {bs : List β} (h : List.SublistForall₂ R as bs) (hfg : ∀ a b, R a b → Attains S (f a) (g b)) :
    Attains (List.SublistForall₂ S) (as.mapM f) (bs.mapM g) := by
  induction h with
  | nil =>
    intro ds _
    exact ⟨[], rfl, .nil⟩
  | cons hab _ ih =>
    rw [List.mapM_cons, List.mapM_cons]
    exact attains_bind (hfg _ _ hab) fun c d hcd =>
      attains_bind ih fun cs ds hcs => attains_pure (.cons hcd hcs)
  | cons_right _ ih =>
    intro ds hds
    rw [List.mapM_cons] at hds
    obtain ⟨d, -, hds⟩ := exists_ok_of_bind hds
    obtain ⟨rest, hrest, hds⟩ := exists_ok_of_bind hds
    cases hds
    obtain ⟨cs, hcs, hsub⟩ := ih rest hrest
    exact ⟨cs, hcs, .cons_right hsub⟩

theorem flatten_subset {as bs : List (List α)} (h : List.SublistForall₂ (· ⊆ ·) as bs) :
    as.flatten ⊆ bs.flatten := by
  induction h with
  | nil => exact List.nil_subset _
  | cons hab _ ih =>
    exact List.append_subset.2 ⟨List.Subset.trans hab (List.subset_append_left _ _),
      List.Subset.trans ih (List.subset_append_right _ _)⟩
  | cons_right _ ih => exact List.Subset.trans ih (List.subset_append_right _ _)

section
variable {S : γ → γ → Prop} [Std.Refl S] [IsTrans γ S] {g : γ → β → Except Failure γ} {c d : γ}

/-- A fold of which no step takes anything away takes nothing away. -/
theorem rel_of_foldlM (hadd : ∀ b d d', g d b = .ok d' → S d d') {bs : List β} {r : γ}
    (h : bs.foldlM g d = .ok r) : S d r := by
  induction bs generalizing d with
  | nil =>
    cases h
    exact Std.Refl.refl _
  | cons b bs ih =>
    rw [List.foldlM_cons] at h
    obtain ⟨d', hb, h⟩ := exists_ok_of_bind h
    exact IsTrans.trans _ _ _ (hadd b d d' hb) (ih h)

/-- A fold over more elements has all that the fold over fewer has. -/
theorem attains_foldlM {f : γ → α → Except Failure γ} {as : List α} {bs : List β}
    (h : List.SublistForall₂ R as bs)
    (hfg : ∀ a b, R a b → ∀ c d, S c d → Attains S (f c a) (g d b))
    (hadd : ∀ b d d', g d b = .ok d' → S d d') (hcd : S c d) :
    Attains S (as.foldlM f c) (bs.foldlM g d) := by
  induction h generalizing c d with
  | nil =>
    intro r hr
    exact ⟨c, rfl, IsTrans.trans _ _ _ hcd (rel_of_foldlM hadd hr)⟩
  | cons hab _ ih =>
    rw [List.foldlM_cons, List.foldlM_cons]
    exact attains_bind (hfg _ _ hab c d hcd) fun c d hcd => ih hcd
  | @cons_right b _ _ _ ih =>
    intro r hr
    rw [List.foldlM_cons] at hr
    obtain ⟨d', hb, hr⟩ := exists_ok_of_bind hr
    exact ih (IsTrans.trans _ _ _ hcd (hadd b d d' hb)) r hr

end

end

end SurfaceCoverage
