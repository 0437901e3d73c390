import SurfaceCoverage.Proofs.Descent
import SurfaceCoverage.Proofs.Faults
import SurfaceCoverage.Proofs.Transparency
/-!
# Words that do not end

An expansion comes to ask for a word if the words before it come to values. Seen so, a word does not
end if and only if it leads to a word that leads back to itself: a cycle is never left, and without
cycles the depth suffices. For names, where everything can be read, each reference counts: a word
does not end as soon as one of the references under it leads back to itself.
-/

namespace SurfaceCoverage

open Relation (TransGen ReflTransGen)

variable {α β : Type} {w : Workspace} {limit : Int} {P : Failure → Prop} {B : β → Prop}

/-! ## What an inquiry comes to ask -/

namespace Inquiry

/-- An inquiry comes to ask for a word if the words before it have values. -/
def Comes (V : Mention → β → Prop) : Inquiry β α → Mention → Prop
  | done _, _ => False
  | ask m next, m' => m' = m ∨ ∃ b, V m b ∧ (next b).Comes V m'

variable {A : Mention → Prop} {Q : α → Prop} {V : Mention → β → Prop} {p : Inquiry β α} {m : Mention}

/-- What an inquiry comes to ask is among what it may ask for. -/
theorem Keeps.of_comes (hp : p.Keeps A P B Q) (hV : ∀ m b, A m → V m b → B b) (h : p.Comes V m) :
    A m := by
  induction p with
  | done e => exact h.elim
  | ask m' next ih =>
    rcases h with rfl | ⟨b, hb, h⟩
    · exact hp.1
    · exact ih b (hp.2 b (hV m' b hp.1 hb)) h

/-- An inquiry does not end if a word that it comes to does not. -/
theorem eval_of_comes {f : Mention → Except Failure β}
    (hV : ∀ m b, V m b → f m = .ok b ∨ f m = .error .endless) (h : p.Comes V m)
    (hm : f m = .error .endless) : p.eval f = .error .endless := by
  induction p with
  | done e => exact h.elim
  | ask m' next ih =>
    rw [eval]
    rcases h with rfl | ⟨b, hb, h⟩
    · rw [hm]
      rfl
    · rcases hV m' b hb with hf | hf
      · rw [hf]
        exact ih b h
      · rw [hf]
        rfl

/-- If an inquiry does not end, then it comes to a word that does not. -/
theorem comes_of_eval {f : Mention → Except Failure β} (hp : p.Keeps A P B Q) (hP : ¬ P .endless)
    (hB : ∀ m b, A m → f m = .ok b → B b) (hV : ∀ m b, f m = .ok b → V m b)
    (h : p.eval f = .error .endless) : ∃ m, p.Comes V m ∧ f m = .error .endless := by
  induction p with
  | done e => exact absurd (hp.1 .endless h) hP
  | ask m next ih =>
    rw [eval] at h
    cases hf : f m with
    | error e =>
      rw [hf] at h
      cases h
      exact ⟨m, .inl rfl, hf⟩
    | ok b =>
      rw [hf] at h
      obtain ⟨m', hm', he⟩ := ih b (hp.2 b (hB m b hp.1 hf)) h
      exact ⟨m', .inr ⟨b, hV m b hf, hm'⟩, he⟩

end Inquiry

/-! ## Expansions -/

namespace Expansion

variable {x : Expansion β} {look : Lookups} {m m' : Mention}

/-- A word comes to a value at some depth. -/
def Value (x : Expansion β) (look : Lookups) (m : Mention) (b : β) : Prop :=
  ∃ k, x.unfold look k m = .ok b

/-- What words come to on a fresh trail, and which words the inquiries about declarations come to. -/
def references (x : Expansion β) (w : Workspace) (limit : Int) : References where
  finds m d := lookup w limit m.query = .ok (some d)
  asks d meaning m := ∃ p, x.inquire meaning d = some p ∧ p.Comes (x.Value (lookup w limit)) m
  declares h := by
    obtain ⟨qs, hr⟩ := route_of_lookup h
    exact hr.declares

/-- A word does not end before a word that it refers to. -/
theorem above_of_refers (h : (x.references w limit).Refers m m') :
    x.Above (lookup w limit) m m' := by
  obtain ⟨d, hd, p, hp, hcomes⟩ := h
  have hopens := unfold_of_opens ⟨d, hd, hp⟩
  refine ⟨hopens.1, 1, Nat.one_pos, fun k hk => ?_⟩
  rw [hopens.2]
  refine Inquiry.eval_of_comes (fun a b hab => ?_) hcomes hk
  obtain ⟨j, hj⟩ := hab
  exact unfold_of_ok hj k

end Expansion

/-- If no word ends before one that it refers to, then a word that leads to a cycle never ends. -/
theorem References.LeadsToCycle.endless {G : References} {M : Mention → Prop}
    (hM : ∀ a b, M a → G.Refers a b → M b) {x : Expansion β} {look : Lookups}
    (hG : ∀ a b, M a → G.Refers a b → x.Above look a b) {m : Mention} (hm : M m)
    (h : G.LeadsToCycle m) (k : Nat) : x.unfold look k m = .error .endless := by
  obtain ⟨m', hr, hc⟩ := h
  have habove {a b : Mention} (ha : M a) (h : TransGen G.Refers a b) : x.Above look a b := by
    induction h with
    | single h => exact hG _ _ ha h
    | tail hr h ih => exact ih.trans (hG _ _ (References.reached hM ha hr.to_reflTransGen) h)
  -- the word on the cycle is above itself, and the first word is that one or above it
  rcases Relation.reflTransGen_iff_eq_or_transGen.1 hr with rfl | hr
  · exact Expansion.endless_of_above_self (habove hm hc) k
  · have hm' : M m' := References.reached hM hm hr.to_reflTransGen
    exact Expansion.endless_of_above (habove hm hr) (Expansion.endless_of_above_self (habove hm' hc)) k

/-- A word that does not end leads to a declaration that goes on. -/
theorem Expansion.opens_of_endless {x : Expansion β} {look : Lookups} {m : Mention} {k : Nat}
    (hl : look m.query ≠ .error .endless) (h : x.unfold look k m = .error .endless) :
    ∃ p, x.Opens look m p := by
  refine Classical.byContradiction fun hno => ?_
  rw [unfold_of_not_opens fun p hp => hno ⟨p, hp⟩] at h
  cases hr : look m.query with
  | error f =>
    rw [hr] at h
    cases h
    exact hl hr
  | ok r =>
    rw [hr] at h
    cases h

section
variable {x : Expansion β} {R : Region w} (hx : x.Keeps R.scopes P B)
include hx

theorem Expansion.mentions_of_refers {m m' : Mention} (hm : R.Mentions m)
    (h : (x.references w limit).Refers m m') : R.Mentions m' := by
  obtain ⟨d, hd, p, hp, hcomes⟩ := h
  have hstands := standsIn_of_lookup (q := m.query) hm.1 hd
  refine Region.mentions_of_asks hstands ((hx.inquire m.meaning d p hstands hp).of_comes ?_ hcomes)
  rintro a b ha ⟨k, hk⟩
  exact Expansion.unfold_keeps hx (Region.mentions_of_asks hstands ha) hk

/-- A word that does not end at some depth has a descent of that length. -/
theorem Expansion.exists_descent (hP : ¬ P .endless)
    (hlook : ∀ m, R.Mentions m → lookup w limit m.query ≠ .error .endless) {k : Nat} {m : Mention}
    (hm : R.Mentions m) (h : x.unfold (lookup w limit) k m = .error .endless) :
    ∃ t m' d, Descent (x.references w limit) m t m' ∧ t.length = k ∧
      (x.references w limit).finds m' d := by
  induction k generalizing m with
  | zero =>
    obtain ⟨p, d, hd, -⟩ := opens_of_endless (hlook m hm) h
    exact ⟨[], m, d, .start, rfl, hd⟩
  | succ k ih =>
    obtain ⟨p, d, hd, hp⟩ := opens_of_endless (hlook m hm) h
    rw [(unfold_of_opens ⟨d, hd, hp⟩).2] at h
    have hstands := standsIn_of_lookup (q := m.query) hm.1 hd
    obtain ⟨m', hcomes, he⟩ := Inquiry.comes_of_eval (V := x.Value (lookup w limit))
      (hx.inquire m.meaning d p hstands hp) hP
      (fun a b ha hb => unfold_keeps hx (Region.mentions_of_asks hstands ha) hb)
      (fun a b hb => ⟨k, hb⟩) h
    have hm' : R.Mentions m' := mentions_of_refers hx hm ⟨d, hd, p, hp, hcomes⟩
    obtain ⟨t, m'', d', ht, hlen, hd'⟩ := ih hm' he
    refine ⟨t ++ [(m, d)], m'', d', ht.prepend hd ⟨p, hp, hcomes⟩, ?_, hd'⟩
    rw [List.length_append, hlen]
    rfl

end

/-- Lookups in a project end. -/
theorem lookup_ne_endless (R : Region w) {m : Mention} (hm : R.Mentions m) :
    lookup w limit m.query ≠ .error .endless :=
  fun h => failsOnly_map (R.faultsOnly_ne_endless.walk (q := m.query) hm.1 _ _) .endless h rfl

/-- At the depth that it is given, the expansion of a word does not end if and only if the word leads
to one that leads back to itself. -/
theorem Expansion.endless_iff_leadsToCycle {hw : Path.IsCanonical w.project.directory}
    {x : Expansion β} {base : Scope} (hx : x.Keeps (Region.project w hw base).scopes P B)
    (hP : ¬ P .endless) {m : Mention} (hm : (Region.project w hw base).Mentions m) :
    x.unfold (lookup w limit) (Search.depthBound w base) m = .error .endless ↔
      (x.references w limit).LeadsToCycle m := by
  constructor
  · intro h
    refine Classical.byContradiction fun hacyc => ?_
    -- a descent as long as the depth has more declarations than there are
    obtain ⟨t, m', d, ht, hlen, hd⟩ :=
      exists_descent hx hP (fun _ => lookup_ne_endless (Region.project w hw base)) hm h
    have hdeclared {a : Mention} {e : Declaration}
        (hr : ReflTransGen (x.references w limit).Refers m a)
        (he : (x.references w limit).finds a e) : e ∈ w.declarations base := by
      have ha := References.reached (fun _ _ => mentions_of_refers hx) hm hr
      have hstands := standsIn_of_lookup (q := a.query) ha.1 he
      exact Region.mem_declarations hstands.1 hstands.2
    have hlt := ht.length_lt hacyc hd (fun p hp => ?_) (hdeclared ht.reflTransGen hd)
    · omega
    · obtain ⟨hr, he, -⟩ := ht.leads hp
      exact hdeclared hr he
  · intro h
    exact h.endless (fun _ _ => mentions_of_refers hx) (fun _ _ _ => above_of_refers) hm _

/-! ## Names -/

/-- An inquiry with answers fails only as it or an answer does. -/
theorem Inquiry.eval_failsOnly {A : Mention → Prop} {Q : α → Prop} {p : Inquiry β α}
    (hp : p.Keeps A P B Q) {f : Mention → Except Failure β}
    (hf : ∀ m, A m → FailsOnly P (f m) ∧ ∀ b, f m = .ok b → B b) : FailsOnly P (p.eval f) := by
  induction p with
  | done e => exact hp.1
  | ask m next ih => exact failsOnly_bind (hf m hp.1).1 fun b hb => ih b (hp.2 b ((hf m hp.1).2 b hb))

/-- What words unfold to fails only as lookups and literals do, or does not end. -/
theorem Expansion.unfold_failsOnly {x : Expansion β} {R : Region w} (hx : x.Keeps R.scopes P B)
    (hP : P .endless) (hlook : ∀ m, R.Mentions m → FailsOnly P (lookup w limit m.query)) {k : Nat}
    {m : Mention} (hm : R.Mentions m) : FailsOnly P (x.unfold (lookup w limit) k m) := by
  induction k generalizing m with
  | zero =>
    by_cases ho : ∃ p, x.Opens (lookup w limit) m p
    · obtain ⟨p, hp⟩ := ho
      rw [(unfold_of_opens hp).1]
      intro f hf
      cases hf
      exact hP
    · rw [unfold_of_not_opens fun p hp => ho ⟨p, hp⟩]
      exact failsOnly_map (hlook m hm)
  | succ k ih =>
    by_cases ho : ∃ p, x.Opens (lookup w limit) m p
    · obtain ⟨p, hp⟩ := ho
      rw [(unfold_of_opens hp).2]
      obtain ⟨d, hd, hp⟩ := hp
      have hstands := standsIn_of_lookup (q := m.query) hm.1 hd
      refine Inquiry.eval_failsOnly (hx.inquire m.meaning d p hstands hp) fun m' hm' => ?_
      have hm' := Region.mentions_of_asks hstands hm'
      exact ⟨ih hm', fun b hb => Expansion.unfold_keeps hx hm' hb⟩
    · rw [unfold_of_not_opens fun p hp => ho ⟨p, hp⟩]
      exact failsOnly_map (hlook m hm)

/-- Items that can be read do not end if one of their words does not. -/
theorem Item.eval_endless {scope : Scope} {items : List Item} {f : Mention → Except Failure (List Text)}
    (hr : ∀ item ∈ items, item.Reads (· = .endless))
    (hf : ∀ meaning word, .reference meaning word ∈ items →
      FailsOnly (· = .endless) (f ⟨scope, meaning, word⟩))
    {meaning : Meaning} {word : Text} (hm : .reference meaning word ∈ items)
    (he : f ⟨scope, meaning, word⟩ = .error .endless) :
    (Item.inquiries scope items).eval f = .error .endless := by
  induction items with
  | nil => cases hm
  | cons item items ih =>
    rw [Item.inquiries, Inquiry.eval_bind]
    -- an item before the word comes to names or does not end either
    have hfirst : FailsOnly (· = .endless) ((item.inquiry scope).eval f) := by
      refine Inquiry.eval_failsOnly (Item.inquiry_keeps (hr item List.mem_cons_self)) ?_
      rintro ⟨_, meaning, word⟩ ⟨rfl, h⟩
      exact ⟨hf meaning word (h ▸ List.mem_cons_self), fun _ _ => trivial⟩
    cases hi : (item.inquiry scope).eval f with
    | error g =>
      rw [hfirst g hi]
      rfl
    | ok names =>
      have hrest : .reference meaning word ∈ items := by
        rcases List.mem_cons.1 hm with rfl | hm
        · rw [Item.inquiry, Inquiry.eval_single, he] at hi
          cases hi
        · exact hm
      have hend := ih (fun i hi => hr i (List.mem_cons_of_mem _ hi))
        (fun meaning word h => hf meaning word (List.mem_cons_of_mem _ h)) hrest
      show Inquiry.eval f ((Item.inquiries scope items).bind fun rest => .done (.ok (names ++ rest))) = _
      rw [Inquiry.eval_bind, hend]
      rfl

/-- What words come to on a fresh trail, and all the references of declarations. -/
def Workspace.lookedUp (w : Workspace) (limit : Int) : References where
  finds m d := lookup w limit m.query = .ok (some d)
  asks d meaning m := d.Asks meaning m
  declares h := by
    obtain ⟨qs, hr⟩ := route_of_lookup h
    exact hr.declares

theorem Region.mentions_of_lookedUp {R : Region w} {m m' : Mention} (hm : R.Mentions m)
    (h : (w.lookedUp limit).Refers m m') : R.Mentions m' := by
  obtain ⟨d, hd, ha⟩ := h
  exact Region.mentions_of_asks (standsIn_of_lookup (q := m.query) hm.1 hd) ha

/-- Inquiries about names come to references of the declaration. -/
theorem lookedUp_of_refers {m m' : Mention} (h : (Expansion.names.references w limit).Refers m m') :
    (w.lookedUp limit).Refers m m' := by
  obtain ⟨d, hd, p, hp, hcomes⟩ := h
  have hkeeps : Expansion.names.Keeps (fun _ => True) (fun _ => True) fun _ => True :=
    Expansion.names_keeps fun _ _ _ _ _ _ => trivial
  have hstands := standsIn_of_lookup (R := Region.everywhere w m.scope) (q := m.query) (.inl rfl) hd
  exact ⟨d, hd, (hkeeps.inquire m.meaning d p ⟨trivial, hstands.2⟩ hp).of_comes
    (fun _ _ _ _ => trivial) hcomes⟩

/-- Where everything can be read, names do not end before any word that they refer to. -/
theorem names_above {R : Region w} (hread : R.FaultsOnly fun _ => False) {m m' : Mention}
    (hm : R.Mentions m) (h : (w.lookedUp limit).Refers m m') :
    Expansion.names.Above (lookup w limit) m m' := by
  obtain ⟨d, hd, hscope, hasks⟩ := h
  have hstands := standsIn_of_lookup (q := m.query) hm.1 hd
  have hopens := Expansion.unfold_of_opens (x := Expansion.names) ⟨d, hd, rfl⟩
  have hfaults : R.FaultsOnly (· = .endless) := hread.mono fun _ h => h.elim
  refine ⟨hopens.1, 1, Nat.one_pos, fun k hk => ?_⟩
  rw [hopens.2]
  refine Item.eval_endless (fun item hi => ?_) (fun meaning word hi => ?_) hasks ?_
  · exact ((Node.items_from m.meaning d.node item hi).trans hstands.2).reads
      (hfaults.literals d.scope hstands.1)
  · exact Expansion.unfold_failsOnly (Expansion.names_keeps hfaults.literals) rfl
      (fun m hm => failsOnly_map (hfaults.walk (q := m.query) hm.1 _ _))
      (Region.mentions_of_asks hstands ⟨rfl, hi⟩)
  · rw [← hk, ← hscope]

/-- Where everything can be read, the names of a word do not end if and only if a reference under the
word leads back to itself. -/
theorem names_endless_iff {hw : Path.IsCanonical w.project.directory} {base : Scope}
    (hread : (Region.project w hw base).FaultsOnly fun _ => False) {m : Mention}
    (hm : (Region.project w hw base).Mentions m) :
    Expansion.names.unfold (lookup w limit) (Search.depthBound w base) m = .error .endless ↔
      (w.lookedUp limit).LeadsToCycle m := by
  constructor
  · intro h
    have hkeeps := Expansion.names_keeps hread.literals
    obtain ⟨a, hr, ha⟩ := (Expansion.endless_iff_leadsToCycle hkeeps (by simp) hm).1 h
    exact ⟨a, ReflTransGen.mono (fun _ _ => lookedUp_of_refers) _ _ hr,
      TransGen.mono (fun _ _ => lookedUp_of_refers) _ _ ha⟩
  · intro h
    exact h.endless (fun _ _ => Region.mentions_of_lookedUp) (fun _ _ => names_above hread) hm _

end SurfaceCoverage
