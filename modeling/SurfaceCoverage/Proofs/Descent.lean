import Mathlib.Logic.Relation
import SurfaceCoverage.Proofs.Placed
import SurfaceCoverage.Proofs.Asking
/-!
# Words that lead back to themselves

A word refers to the words that a declaration asks for which the word is found to stand for. A
descent follows references from a first word. If the first word leads to no cycle, a descent has
neither a word nor a declaration twice, so it is no longer than the project has declarations, and
no word is open twice along it in one scope.
-/

namespace SurfaceCoverage

open Relation (TransGen ReflTransGen)

/-- What words are found to stand for, and which words a declaration asks for. -/
structure References where
  finds : Mention → Declaration → Prop
  asks : Declaration → Meaning → Mention → Prop
  declares : ∀ {m d}, finds m d → d.node.Declares m.meaning

namespace References

/-- A word refers to what a declaration asks for that it is found to stand for. -/
def Refers (G : References) (m m' : Mention) : Prop := ∃ d, G.finds m d ∧ G.asks d m.meaning m'

/-- A word leads back to itself. -/
def Cyclic (G : References) (m : Mention) : Prop := TransGen G.Refers m m

/-- A word leads to one that leads back to itself. -/
def LeadsToCycle (G : References) (m : Mention) : Prop :=
  ∃ m', ReflTransGen G.Refers m m' ∧ G.Cyclic m'

theorem LeadsToCycle.refers {G : References} {m : Mention} (h : G.LeadsToCycle m) :
    ∃ m', G.Refers m m' ∧ G.LeadsToCycle m' := by
  obtain ⟨a, hr, ha⟩ := h
  obtain ⟨m', hm, hr⟩ := TransGen.head'_iff.1 (TransGen.trans_right hr ha)
  exact ⟨m', hm, a, hr, ha⟩

/-- What references keep holds of all words that a word leads to. -/
theorem reached {G : References} {M : Mention → Prop} (hG : ∀ a b, M a → G.Refers a b → M b)
    {m m' : Mention} (hm : M m) (h : ReflTransGen G.Refers m m') : M m' := by
  induction h with
  | refl => exact hm
  | tail _ h ih => exact hG _ _ ih h

end References

/-- The words between a first word and another one, the last one first, with the declarations that
they were followed to. -/
inductive Descent (G : References) (first : Mention) : List (Mention × Declaration) → Mention → Prop
  | start : Descent G first [] first
  | step {t : List (Mention × Declaration)} {a m : Mention} {d : Declaration}
      (h : Descent G first t a) (hd : G.finds a d) (ha : G.asks d a.meaning m) :
      Descent G first ((a, d) :: t) m

namespace Descent

variable {G : References} {first : Mention} {t : List (Mention × Declaration)} {m : Mention}

/-- A descent from a word that the first one refers to is part of one from the first word. -/
theorem prepend {a : Mention} {d : Declaration} (hd : G.finds a d) (ha : G.asks d a.meaning first)
    (h : Descent G first t m) : Descent G a (t ++ [(a, d)]) m := by
  induction h with
  | start => exact .step .start hd ha
  | step _ hd ha ih => exact .step ih hd ha

theorem reflTransGen (h : Descent G first t m) : ReflTransGen G.Refers first m := by
  induction h with
  | start => exact .refl
  | step _ hd ha ih => exact ih.tail ⟨_, hd, ha⟩

/-- Each word above a word is reached from the first one, and its declaration asks for a word that
leads on. -/
theorem leads (h : Descent G first t m) {a : Mention} {d : Declaration} (hm : (a, d) ∈ t) :
    ReflTransGen G.Refers first a ∧ G.finds a d ∧
      ∃ c, G.asks d a.meaning c ∧ ReflTransGen G.Refers c m := by
  induction h with
  | start => cases hm
  | step h hd ha ih =>
    rcases List.mem_cons.1 hm with he | hm
    · cases he
      exact ⟨h.reflTransGen, hd, _, ha, .refl⟩
    · obtain ⟨hfirst, he, c, hc, hr⟩ := ih hm
      exact ⟨hfirst, he, c, hc, hr.tail ⟨_, hd, ha⟩⟩

section
variable (hacyc : ¬ G.LeadsToCycle first)
include hacyc

theorem nodup_words (h : Descent G first t m) : (m :: t.map (·.1)).Nodup := by
  induction h with
  | start => simp
  | step h hd ha ih =>
    refine List.nodup_cons.2 ⟨fun hm => hacyc ?_, ih⟩
    obtain ⟨⟨a, e⟩, hmem, rfl⟩ := List.mem_map.1 hm
    have hstep := Descent.step h hd ha
    obtain ⟨hfirst, he, c, hc, hr⟩ := hstep.leads hmem
    exact ⟨a, hfirst, TransGen.head' ⟨e, he, hc⟩ hr⟩

/-- A declaration that came twice would ask again for what led to it. -/
theorem nodup_declarations (h : Descent G first t m) {d : Declaration} (hd : G.finds m d) :
    (d :: t.map (·.2)).Nodup := by
  induction h generalizing d with
  | start => simp
  | @step t a m e h he ha ih =>
    refine List.nodup_cons.2 ⟨fun hm => hacyc ?_, ih he⟩
    obtain ⟨⟨b, e'⟩, hmem, rfl⟩ := List.mem_map.1 hm
    have hstep := Descent.step h he ha
    obtain ⟨-, hb, c, hc, hr⟩ := hstep.leads hmem
    -- what the declaration asked for at its first place leads back to this word
    have hmeaning : b.meaning = m.meaning := (G.declares hb).meaning_eq (G.declares hd)
    exact ⟨m, hstep.reflTransGen, TransGen.head' ⟨_, hd, hmeaning ▸ hc⟩ hr⟩

variable {w : Workspace} {base : Scope}

/-- The depth of an expansion suffices for each declaration to come once. -/
theorem length_lt (h : Descent G first t m) {d : Declaration} (hd : G.finds m d)
    (ht : ∀ p ∈ t, p.2 ∈ w.declarations base) (hmem : d ∈ w.declarations base) :
    t.length < Search.depthBound w base := by
  have hsub : d :: t.map (·.2) ⊆ w.declarations base := by
    intro e he
    rcases List.mem_cons.1 he with rfl | he
    · exact hmem
    · obtain ⟨p, hp, rfl⟩ := List.mem_map.1 he
      exact ht p hp
  have hlen := (h.nodup_declarations hacyc hd).length_le_of_subset hsub
  rw [List.length_cons, List.length_map, Workspace.length_declarations] at hlen
  unfold Search.depthBound
  omega

end
end Descent

/-! ## Open references -/

/-- A reference without what was known when it was met. -/
def Reference.place (r : Reference) : Option String × Meaning × Text := (r.path, r.meaning, r.word)

def Mention.place (m : Mention) : Option String × Meaning × Text := (m.scope.path, m.meaning, m.word)

theorem Mention.eq_of_place {m m' : Mention} (hs : m.scope = m'.scope) (h : m.place = m'.place) :
    m = m' := by
  cases m
  cases m'
  cases hs
  cases h
  rfl

/-- A word is open at most once, in another scope of its path. -/
theorem Descent.count_lt {G : References} {first : Mention} (hacyc : ¬ G.LeadsToCycle first)
    {w : Workspace} {base : Scope} {hw : Path.IsCanonical w.project.directory}
    {t : List (Mention × Declaration)} {m : Mention} (h : Descent G first t m)
    (ht : ∀ p ∈ t, (Region.project w hw base).scopes p.1.scope)
    (hm : (Region.project w hw base).scopes m.scope) {opened : List Reference}
    (ho : opened.map Reference.place = t.map (·.1.place)) (absent : Nat) :
    opened.count (m.reference absent) < 2 := by
  refine Nat.lt_of_not_le fun hc => ?_
  have hopened : [m.place, m.place].Sublist (t.map (·.1.place)) := by
    rw [← ho]
    exact (List.replicate_sublist_iff.2 hc).map Reference.place
  -- two words above `m` with its path, meaning and name, and all three differ
  obtain ⟨pair, hsub, he⟩ := List.sublist_map_iff.1 hopened
  obtain ⟨x, y, rfl⟩ : ∃ x y, pair = [x, y] := by
    have hlen := congrArg List.length he
    rcases pair with _ | ⟨x, _ | ⟨y, _ | ⟨z, rest⟩⟩⟩
    · simp at hlen
    · simp at hlen
    · exact ⟨x, y, rfl⟩
    · simp at hlen
  injection he with hx hy
  injection hy with hy
  have hxt : x ∈ t := hsub.subset List.mem_cons_self
  have hyt : y ∈ t := hsub.subset (List.mem_cons_of_mem _ List.mem_cons_self)
  obtain ⟨hnotin, hnodup⟩ := List.nodup_cons.1 (h.nodup_words hacyc)
  have hxy : x.1 ≠ y.1 := by
    have hpair := (hsub.map (·.1)).nodup hnodup
    simpa using hpair
  have hpaths : x.1.scope.path = m.scope.path ∧ y.1.scope.path = m.scope.path :=
    ⟨(congrArg Prod.fst hx).symm, (congrArg Prod.fst hy).symm⟩
  rcases Region.project_pair (ht x hxt) (ht y hyt) hm (hpaths.1.trans hpaths.2.symm) hpaths.2 with
    hs | hs | hs
  · exact hxy (Mention.eq_of_place hs (hx.symm.trans hy))
  · exact hnotin (List.mem_map.2 ⟨x, hxt, Mention.eq_of_place hs hx.symm⟩)
  · exact hnotin (List.mem_map.2 ⟨y, hyt, Mention.eq_of_place hs hy.symm⟩)

end SurfaceCoverage
