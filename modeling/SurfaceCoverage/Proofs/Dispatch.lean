import SurfaceCoverage.Proofs.Endless
/-!
# Strategies in the order of dispatch

Where names and paths tell queries apart, a search that is composed of lookups and expansions comes
to the same on every trail that searches have left. So each category of a surface has the names that
it has on a trail of its own, and these are the first names that one of its strategies finds on a
trail of its own.
-/

namespace SurfaceCoverage

variable {α : Type} {w : Workspace} {limit : Int} {c : Scope}

/-- The names of a category of a component, on a trail of its own. -/
def Category.extracted (w : Workspace) (settings : Settings) (scope : Scope) (cat : Category) :
    Except Failure MemberList :=
  (Strategy.extractFirst w scope (cat.strategies settings)).evaluate settings.freshTrail

/-! ## The first list with names -/

theorem MemberList.eq_empty_of_isEmpty {l : MemberList} (h : l.isEmpty = true) : l = ∅ :=
  MemberList.toList_inj.1 (List.isEmpty_iff.1 h)

/-- The first one of several lists that has names. -/
def firstNamed : List (Except Failure MemberList) → Except Failure MemberList
  | [] => .ok ∅
  | e :: es => do
    let names ← e
    if names.isEmpty then firstNamed es else return names

@[simp] theorem firstNamed_empty_cons (es : List (Except Failure MemberList)) :
    firstNamed (.ok ∅ :: es) = firstNamed es := rfl

theorem firstNamed_of_named {l : MemberList} (h : l.isEmpty = false)
    (es : List (Except Failure MemberList)) : firstNamed (.ok l :: es) = .ok l := by
  show (if l.isEmpty then firstNamed es else .ok l) = .ok l
  simp [h]

/-- Lists behind the first one do not count if they have no names whenever it has none. -/
theorem firstNamed_cons {e : Except Failure MemberList} {es : List (Except Failure MemberList)}
    (h : e = .ok ∅ → ∀ e' ∈ es, e' = .ok ∅) : firstNamed (e :: es) = e := by
  rcases e with f | l
  · rfl
  · by_cases hl : l.isEmpty
    · cases MemberList.eq_empty_of_isEmpty hl
      rw [firstNamed_empty_cons]
      have hes := h rfl
      clear h
      induction es with
      | nil => rfl
      | cons e' es ih =>
        cases hes e' List.mem_cons_self
        exact ih fun e' he => hes e' (List.mem_cons_of_mem _ he)
    · exact firstNamed_of_named (Bool.eq_false_iff.2 hl) es

/-- The strategies of a category come in the order in which they are listed. -/
theorem Category.dispatched_strategies (settings : Settings) (cat : Category) :
    Strategy.dispatched (cat.strategies settings) = cat.strategies settings := by
  cases cat <;> rfl

/-- The strategies of a category behind its option and its keyword. -/
def Category.heuristics (settings : Settings) (cat : Category) : List Strategy :=
  (cat.strategies settings).drop 2

theorem Category.strategies_eq (settings : Settings) (cat : Category) : cat.strategies settings =
    .options [cat.option] settings.defineCallees :: .call cat.keyword :: cat.heuristics settings := by
  cases cat <;> rfl

/-! ## Trails of their own -/

section
variable {hw : Path.IsCanonical w.project.directory}
  (hown : ∀ s, w.load (Module.shownPath c.path) = .ok (some s) → s = c)
  (hnames : ∀ s, (Region.project w hw c).scopes s → s.Unspaced)
include hown hnames

/-- What a search that is composed of lookups and expansions comes to on a fresh trail, it comes to
on every settled trail. -/
theorem Composed.yields {m : Search α} {P : Failure → Prop} {Q : α → Prop}
    (h : Composed w c w.IsModule P m Q) :
    Yields w (fun q => (Region.project w hw c).Inside q ∧ q.Clear) limit m (m.evaluate { limit }) ∧
      ∀ a, m.evaluate { limit } = .ok a → Q a := by
  obtain ⟨e, he, hq⟩ := composed_yields limit (Region.distinct_project hown) hnames rfl h
  have hfresh : m.evaluate { limit } = e := he.result _ (settled_fresh w _ limit)
  rw [hfresh]
  exact ⟨he, hq⟩

theorem Strategy.firstNames_yields (ss : List Strategy) :
    Yields w (fun q => (Region.project w hw c).Inside q ∧ q.Clear) limit (firstNames w c ss)
      (firstNamed (ss.map fun s => (s.extract w c).evaluate { limit })) := by
  induction ss with
  | nil => exact yields_ofExcept (.ok ∅)
  | cons s ss ih =>
    refine yields_bind (Composed.yields hown hnames (extract_composed literals_of_true s)).1
      fun names _ => ?_
    split
    · exact ih
    · exact yields_ofExcept (.ok names)

/-- A category has the first names that one of its strategies finds. -/
theorem Category.extracted_eq (settings : Settings) (cat : Category) :
    cat.extracted w settings c = firstNamed
      ((cat.strategies settings).map fun s => (s.extract w c).evaluate settings.freshTrail) := by
  unfold extracted Strategy.extractFirst
  rw [dispatched_strategies]
  exact (Strategy.firstNames_yields hown hnames _).result _ (settled_fresh w _ _)

/-- The categories of a surface do not depend on each other. -/
theorem Search.surface_evaluate (settings : Settings) :
    (Search.surface w settings c).evaluate settings.freshTrail = (do
      let names (cat : Category) := cat.extracted w settings c
      return ⟨← names .inputs, ← names .events, ← names .slots, ← names .exposed⟩) := by
  have hcat (cat : Category) :
      Yields w (fun q => (Region.project w hw c).Inside q ∧ q.Clear) settings.depthLimit
        (Strategy.extractFirst w c (cat.strategies settings)) (cat.extracted w settings c) :=
    (Composed.yields hown hnames (extractFirst_composed literals_of_true _)).1
  have hsurface := yields_bind (hcat .inputs) fun inputs _ => yields_bind (hcat .events) fun events _ =>
    yields_bind (hcat .slots) fun slots _ => yields_bind (hcat .exposed) fun exposed _ =>
      yields_ofExcept (.ok (⟨inputs, events, slots, exposed⟩ : Surface))
  exact hsurface.result _ (settled_fresh w _ _)

end
end SurfaceCoverage
