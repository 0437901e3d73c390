import SurfaceCoverage.Proofs.Specifiers
import SurfaceCoverage.Proofs.Endless
/-!
# Dependencies of a component

Where the specifiers of a component and of the modules of its project can be resolved, nothing about
its dependencies makes its analysis fail: an import that leads nowhere is absent. What is left are
escapes in literals that name no character (`overflow`), and words that lead back to themselves
(`endless`).
-/

namespace SurfaceCoverage

variable {w : Workspace} {P : Failure → Prop}

/-! ## Specifiers of a scope -/

/-- A specifier of a scope names a package, or a file that can be looked for whatever there is. -/
def Workspace.Answers (w : Workspace) (s : Scope) (specifier : Text) : Prop :=
  match specifier.toString? with
  | some t => Project.NamesFile t →
    w.project.Answers w.extensions t (s.module.directory w.project.directory)
  | none => specifier.startsWith "." = false ∧ specifier.startsWith "/" = false

theorem Workspace.Answers.resolve (hw : Path.IsCanonical w.project.directory) {s : Scope}
    {specifier : Text} (h : w.Answers s specifier) : ∃ r, w.resolve s specifier = .ok r := by
  unfold Workspace.Answers at h
  unfold Workspace.resolve
  cases ht : specifier.toString? with
  | some t =>
    rw [ht] at h
    by_cases hfile : Project.NamesFile t
    · exact (h hfile).resolve hw (s.module.isSegment_directory hw)
    · exact ⟨none, Project.resolve_of_package hfile⟩
  | none =>
    rw [ht] at h
    dsimp only at h ⊢
    rw [h.1, h.2]
    exact ⟨none, rfl⟩

/-- Every specifier of a region can be resolved. -/
def Region.Answers (R : Region w) : Prop :=
  ∀ s, R.scopes s → ∀ specifier, s.Specifies specifier → w.Answers s specifier

variable {α β : Type} {hw : Path.IsCanonical w.project.directory} {c : Scope}

theorem Region.FaultsOnly.findImport {R : Region w} (h : R.FaultsOnly P) {s : Scope}
    (hs : R.scopes s) {i : Import} (hi : i ∈ s.imports) (meaning : Meaning) (st : SearchState) :
    FailsOnly P (Search.findImport w s meaning i st) := by
  unfold Search.findImport Search.importQuery
  split
  · exact failsOnly_ok _
  · rcases hr : w.resolve s i.specifier with f | _ | path
    · intro g hg
      cases hg
      exact h.stops s hs f (.imported hi hr)
    · exact failsOnly_ok _
    · exact h.find (q := .exported path meaning i.exported) (R.resolved hs hr) st

/-! ## Analyses -/

end SurfaceCoverage
