import SurfaceCoverage.Proofs.Routes
/-!
# What stops an analysis besides references

Literals, imports and specifiers have failures of their own. `FaultsOnly P` says of a region that all
of them have `P`, and then lookups in the region fail only with `P`. None of these failures is that
references do not end.
-/

namespace SurfaceCoverage

variable {P : Failure → Prop}

/-! ## Literals -/

theorem failsOnly_decodeEscape (h : P .overflow) (body : List Char) :
    FailsOnly P (decodeEscape body) := by
  have hnumber (n : Nat) (instead : List Char) : FailsOnly P (numberedText n instead) := by
    unfold numberedText
    split
    · exact failsOnly_ok _
    · split
      · exact failsOnly_ok _
      · intro f hf
        cases hf
        exact h
  unfold decodeEscape
  split
  · exact failsOnly_ok _
  · split <;> exact failsOnly_ok _
  · split
    · split
      · exact hnumber _ _
      · exact failsOnly_ok _
    · split <;> exact failsOnly_ok _

theorem failsOnly_joinFragments (h : P .overflow) (ns : List Node) : FailsOnly P (joinFragments ns) := by
  induction ns with
  | nil => exact failsOnly_ok _
  | cons n ns ih =>
    unfold joinFragments
    split
    · exact failsOnly_ok _
    · exact failsOnly_bind ih fun _ _ => failsOnly_pure _
    · exact failsOnly_bind (failsOnly_decodeEscape h _) fun _ _ =>
        failsOnly_bind ih fun _ _ => failsOnly_pure _
    · exact ih

namespace Node

/-- Literals only overflow. -/
theorem literals_of_overflow (h : P .overflow) (n : Node) : n.Literals P := by
  intro x _
  unfold Node.stringValue
  split
  · exact failsOnly_joinFragments h _
  · exact failsOnly_ok _

variable {n : Node}

theorem Literals.specifierName? {r : Role} (h : n.Literals P) :
    FailsOnly P (Imports.specifierName? (n.child? r)) := by
  cases hc : n.child? r with
  | none => exact failsOnly_ok _
  | some c =>
    unfold Imports.specifierName?
    simp only
    split
    · exact (h.child hc).stringValue
    · exact failsOnly_ok _

theorem Literals.ofSpecifier {source : Text} (h : n.Literals P) :
    FailsOnly P (Imports.ofSpecifier source n) := by
  unfold Imports.ofSpecifier
  split
  · exact failsOnly_ok _
  · refine failsOnly_bind h.specifierName? fun imported _ =>
      failsOnly_bind h.specifierName? fun renamed _ => ?_
    split <;> exact failsOnly_pure _

theorem Literals.ofPart {source : Text} (h : n.Literals P) :
    FailsOnly P (Imports.ofPart source n) := by
  unfold Imports.ofPart
  split
  · exact failsOnly_ok _
  · split <;> exact failsOnly_ok _
  · exact failsOnly_bind (failsOnly_mapM fun _ hm => (h.namedChild hm).ofSpecifier)
      fun _ _ => failsOnly_pure _
  · exact failsOnly_ok _

theorem Literals.ofStatement (h : n.Literals P) : FailsOnly P (Imports.ofStatement n) := by
  unfold Imports.ofStatement
  split
  · exact failsOnly_ok _
  · refine failsOnly_bind h.stringValue? fun source _ => ?_
    cases source with
    | none => exact failsOnly_pure _
    | some source =>
      simp only
      split
      · exact failsOnly_pure _
      · rename_i clause hc
        have hclause := h.namedChild (List.mem_of_find?_eq_some hc)
        exact failsOnly_bind (failsOnly_mapM fun _ hm => (hclause.namedChild hm).ofPart)
          fun _ _ => failsOnly_pure _

/-- The imports of a script are read where its literals are. -/
theorem Literals.imports (h : n.Literals P) : FailsOnly P (Imports.ofRoot n) :=
  failsOnly_bind (failsOnly_mapM fun _ hm => (h.namedChild hm).ofStatement) fun _ _ => failsOnly_pure _

theorem Literals.exportedPair? (h : n.Literals P) : FailsOnly P n.exportedPair? := by
  unfold Node.exportedPair?
  split
  · exact failsOnly_ok _
  · split
    · exact failsOnly_ok _
    · rename_i name hname
      have hname' := h.specifierName? (r := .name)
      have hrename := h.specifierName? (r := .rename)
      rw [hname] at hname'
      refine failsOnly_bind hname' fun word _ => ?_
      cases hr : n.child? .rename with
      | none =>
        show FailsOnly P (Except.bind (.ok word) _)
        refine failsOnly_bind (failsOnly_ok word) fun exported _ => ?_
        dsimp only
        split <;> exact failsOnly_pure _
      | some r =>
        rw [hr] at hrename
        refine failsOnly_bind hrename fun exported _ => ?_
        dsimp only
        split <;> exact failsOnly_pure _

end Node

/-! ## Specifiers -/

namespace Project

variable {project : Project}

theorem failsOnly_isFile (h : P .nameTooLong) (path : String) : FailsOnly P (project.isFile path) := by
  have hwalk (place segments : List String) : FailsOnly P (project.walk place segments) := by
    induction segments generalizing place with
    | nil => exact failsOnly_ok _
    | cons s ss ih =>
      unfold walk
      split
      · exact failsOnly_ok _
      · split
        · intro f hf
          cases hf
          exact h
        · exact ih _
  have hlocate : FailsOnly P (project.locate path) := by
    unfold locate
    simp only
    split
    · exact failsOnly_ok _
    · exact hwalk _ _
  exact failsOnly_bind (failsOnly_bind hlocate fun _ _ => failsOnly_pure _) fun _ _ => failsOnly_pure _

theorem failsOnly_resolve (hn : P .nameTooLong) (hi : P .invalidPath) (extensions : List String)
    (specifier : String) (directory : Path) :
    FailsOnly P (project.resolve extensions specifier directory) := by
  have hfirst {ps : List (Except Failure Path)} (h : ∀ c ∈ ps, FailsOnly P c) :
      FailsOnly P (project.firstFile ps) := by
    induction ps with
    | nil => exact failsOnly_ok _
    | cons c ps ih =>
      unfold firstFile
      refine failsOnly_bind (h c List.mem_cons_self) fun p _ =>
        failsOnly_bind (failsOnly_isFile hn _) fun b _ => ?_
      split
      · exact failsOnly_pure _
      · exact ih fun c hc => h c (List.mem_cons_of_mem _ hc)
  unfold resolve
  split
  · exact failsOnly_ok _
  · split
    · intro f hf
      cases hf
      exact hi
    · simp only
      split
      · exact failsOnly_bind (failsOnly_isFile hn _) fun _ _ => failsOnly_pure _
      · refine hfirst fun c hc => ?_
        rcases List.mem_append.1 hc with hc | hc <;> obtain ⟨e, -, rfl⟩ := List.mem_map.1 hc
        · unfold withExtension
          split
          · intro f hf
            cases hf
            exact hi
          · exact failsOnly_ok _
        · exact failsOnly_ok _

end Project

theorem Workspace.resolve_ne_endless {w : Workspace} {s : Scope} {specifier : Text} :
    FailsOnly (· ≠ .endless) (w.resolve s specifier) := by
  unfold resolve
  split
  · exact Project.failsOnly_resolve (by decide) (by decide) _ _ _
  · split
    · intro f hf
      cases hf
      decide
    · exact failsOnly_ok _

/-! ## Faults of a region -/

variable {w : Workspace} {R : Region w}

/-- What stops a lookup or a literal in a region has `P`. -/
structure Region.FaultsOnly (R : Region w) (P : Failure → Prop) : Prop where
  loads : ∀ path, R.paths path → FailsOnly P (w.load path)
  stops : ∀ s, R.scopes s → ∀ f, s.Stops w f → P f
  literals : ∀ s, R.scopes s → s.root.Literals P

theorem Region.FaultsOnly.mono {P' : Failure → Prop} (h : R.FaultsOnly P) (hP : ∀ f, P f → P' f) :
    R.FaultsOnly P' where
  loads path hp f hf := hP f (h.loads path hp f hf)
  stops s hs f hf := hP f (h.stops s hs f hf)
  literals s hs n hn f hf := hP f (h.literals s hs n hn f hf)

/-- What a scope imports from, or passes exports on from. -/
inductive Scope.Specifies (s : Scope) : Text → Prop
  | imported {i : Import} (hi : i ∈ s.imports) : s.Specifies i.specifier
  | passedOn {statement : Node} {specifier : Text} (hs : statement ∈ s.root.exports)
      (hsrc : Node.stringValue? (statement.child? .source) = .ok (some specifier)) :
      s.Specifies specifier

/-- Besides its specifiers, only literals stop lookups in a region. -/
theorem Region.faultsOnly_of_resolve (R : Region w) (h : P .overflow)
    (hresolve : ∀ s, R.scopes s → ∀ specifier, s.Specifies specifier →
      FailsOnly P (w.resolve s specifier)) : R.FaultsOnly P where
  loads path _ := by
    rcases Workspace.load_cases w path with he | ⟨source, m, -, -, he⟩ <;> rw [he]
    · exact failsOnly_ok _
    · exact failsOnly_map (Node.literals_of_overflow h m.root).imports
  stops s hs f hf := by
    rcases hf with ⟨⟨-, hf⟩ | ⟨-, -, hf⟩⟩ | ⟨hi, hf⟩ | ⟨hst, hsrc, hf⟩
    · exact (Node.literals_of_overflow h _).stringValue? f hf
    · exact (Node.literals_of_overflow h _).exportedPair? f hf
    · exact hresolve s hs _ (.imported hi) f hf
    · exact hresolve s hs _ (.passedOn hst hsrc) f hf
  literals s _ := Node.literals_of_overflow h s.root

/-- Nothing but references is endless. -/
theorem Region.faultsOnly_ne_endless (R : Region w) : R.FaultsOnly (· ≠ .endless) :=
  R.faultsOnly_of_resolve (by decide) fun _ _ _ _ => Workspace.resolve_ne_endless

theorem Region.FaultsOnly.walk (h : R.FaultsOnly P) {q : Query} (hq : R.Inside q) (room : Nat)
    (t : Trail) : FailsOnly P (Walk.walk w room q t) := by
  have hmoves : ∀ p, R.Inside p → ∀ f, .error f ∈ w.moves p → P f := by
    intro p hp f hf
    rcases stops_of_error hf with ⟨path, _, _, rfl, hl⟩ | ⟨path, _, _, s, rfl, hl, hs⟩ | ⟨s, _, _, rfl, hs⟩
    · exact h.loads path hp f hl
    · exact h.stops s (R.loaded hp hl) f hs
    · exact h.stops s hp f hs
  exact Walk.walk_failsOnly (U := R.Inside)
    (fun _ _ hq hp => Region.inside_of_leads hq (leads_of_onward hp)) hmoves hq room t

/-- A lookup in a region fails only as the region does. -/
theorem Region.FaultsOnly.find (h : R.FaultsOnly P) {q : Query} (hq : R.Inside q) (s : SearchState) :
    FailsOnly P (Search.find w q s) := by
  intro f hf
  have hw := Search.find_walks w q s
  rw [hf] at hw
  exact h.walk hq s.trail.room s.trail f hw.symm

end SurfaceCoverage
