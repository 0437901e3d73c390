import SurfaceCoverage.Proofs.Region
import SurfaceCoverage.Names.Expansion
/-!
# The modules of a project

References lead from a component to modules at the places of files. A path has two scopes at most,
the component's own and that of its file, and all the scopes together have no more declarations than
the scripts have nodes.
-/

namespace SurfaceCoverage

variable {w : Workspace} {c : Scope}

theorem Module.isSegment_directory {directory : List String} (hw : Path.IsCanonical directory)
    (m : Module) : ∀ s ∈ (m.directory directory).segments, Path.IsSegment s := by
  intro s hs
  unfold Module.directory at hs
  split at hs
  · exact Path.isSegment_of_mem_ofString (List.dropLast_subset _ hs)
  · exact (hw s hs).1

theorem Workspace.holdsAt_of_resolve (hw : Path.IsCanonical w.project.directory) {s : Scope}
    {specifier : Text} {path : String} (h : w.resolve s specifier = .ok (some path)) :
    w.project.HoldsAt path := by
  unfold resolve at h
  split at h
  · exact Project.holdsAt_of_resolve hw (s.module.isSegment_directory hw) h
  · split at h <;> cases h

/-- A module at the place of a file. -/
def Workspace.IsModule (w : Workspace) (s : Scope) : Prop :=
  ∃ path, w.project.HoldsAt path ∧ w.load path = .ok (some s)

/-- A component and the modules of its project. -/
def Region.project (w : Workspace) (hw : Path.IsCanonical w.project.directory) (c : Scope) :
    Region w where
  paths := w.project.HoldsAt
  scopes s := s = c ∨ w.IsModule s
  loaded hp h := .inr ⟨_, hp, h⟩
  resolved _ h := Workspace.holdsAt_of_resolve hw h

theorem Region.distinct_project {hw : Path.IsCanonical w.project.directory}
    (hc : ∀ s, w.load (Module.shownPath c.path) = .ok (some s) → s = c) :
    (Region.project w hw c).Distinct := by
  intro s s' hs hs'
  exact Region.distinct_everywhere hc s s' (hs.imp_right fun ⟨path, _, h⟩ => ⟨path, h⟩)
    (hs'.imp_right fun ⟨path, _, h⟩ => ⟨path, h⟩)

/-- The project of one of its modules is part of it. -/
theorem Region.scopes_of_base {hw : Path.IsCanonical w.project.directory} {base s : Scope}
    (hb : (project w hw c).scopes base) (hs : (project w hw base).scopes s) :
    (project w hw c).scopes s := by
  rcases hs with rfl | hs
  · exact hb
  · exact .inr hs

/-- Of three scopes with one path two are the same. -/
theorem Region.project_pair {hw : Path.IsCanonical w.project.directory} {s s' s'' : Scope}
    (h : (project w hw c).scopes s) (h' : (project w hw c).scopes s')
    (h'' : (project w hw c).scopes s'') (hp : s.path = s'.path) (hp' : s'.path = s''.path) :
    s = s' ∨ s = s'' ∨ s' = s'' := by
  have same {a b : Scope} (ha : w.IsModule a) (hb : w.IsModule b) (hab : a.path = b.path) : a = b := by
    obtain ⟨path, -, ha⟩ := ha
    obtain ⟨path', -, hb⟩ := hb
    exact Workspace.load_inj ha hb (by rw [hab])
  rcases h with rfl | h <;> rcases h' with rfl | h' <;> rcases h'' with rfl | h''
  · exact .inl rfl
  · exact .inl rfl
  · exact .inr (.inl rfl)
  · exact .inr (.inr (same h' h'' hp'))
  · exact .inr (.inr rfl)
  · exact .inr (.inl (same h h'' (hp.trans hp')))
  · exact .inl (same h h' hp)
  · exact .inl (same h h' hp)

/-! ## How many declarations there are -/

/-- The nodes of a scope's script. -/
def Scope.declarations (s : Scope) : List Declaration := s.root.descendants.map (⟨·, s⟩)

/-- The nodes of the script at a place. -/
def Workspace.declarationsAt (w : Workspace) (place : List String) : List Declaration :=
  match w.load (Path.toString ⟨true, place⟩) with
  | .ok (some s) => s.declarations
  | _ => []

/-- The nodes of a component's script and of all scripts of its project. -/
def Workspace.declarations (w : Workspace) (c : Scope) : List Declaration :=
  c.declarations ++ w.project.files.flatMap fun f => w.declarationsAt f.1

theorem Scope.length_declarations (s : Scope) : s.declarations.length = s.root.size := by
  rw [declarations, List.length_map, Node.length_descendants]

theorem Workspace.length_declarations (w : Workspace) (c : Scope) :
    (w.declarations c).length = c.root.size + w.nodeCount := by
  have hplace (place : List String) : (w.declarationsAt place).length = w.fileSize place := by
    unfold declarationsAt fileSize
    rcases w.load (Path.toString ⟨true, place⟩) with f | _ | s
    · rfl
    · rfl
    · exact Scope.length_declarations s
  rw [declarations, List.length_append, Scope.length_declarations, List.length_flatMap,
    List.sum_eq_foldr]
  simp only [hplace]
  rfl

theorem Region.mem_declarations {hw : Path.IsCanonical w.project.directory} {d : Declaration}
    (hs : (project w hw c).scopes d.scope) (hd : d.node ∈ d.scope.root.descendants) :
    d ∈ w.declarations c := by
  have hmem : d ∈ d.scope.declarations := List.mem_map.2 ⟨d.node, hd, rfl⟩
  rcases hs with he | ⟨path, ⟨f, hf, rfl⟩, hl⟩
  · exact List.mem_append_left _ (he ▸ hmem)
  · refine List.mem_append_right _ (List.mem_flatMap.2 ⟨f, hf, ?_⟩)
    unfold Workspace.declarationsAt
    rw [hl]
    exact hmem

end SurfaceCoverage
