import SurfaceCoverage.Proofs.PairGraph
import SurfaceCoverage.Proofs.Places
/-!
# Regions of a project

A region is a part of a project that references do not leave: the paths at which lookups read
modules, and the scopes whose words they look up. Every lookup that a lookup in a region leads to
is in the region (`inside_of_leads`), and so is the scope of every declaration that it holds.

Resolved paths are absolute. The modules around a query are those at absolute paths, besides the
one that the query itself names.
-/

namespace SurfaceCoverage

/-- A part of a project that references do not leave. -/
structure Region (w : Workspace) where
  paths : String → Prop
  scopes : Scope → Prop
  loaded : ∀ {path s}, paths path → w.load path = .ok (some s) → scopes s
  resolved : ∀ {s specifier path}, scopes s → w.resolve s specifier = .ok (some path) → paths path

namespace Region

variable {w : Workspace} (R : Region w)

/-- No two scopes of a region are shown under one name. -/
def Distinct : Prop :=
  ∀ s s', R.scopes s → R.scopes s' → Module.shownPath s.path = Module.shownPath s'.path → s = s'

/-- A query is about a module or a scope of a region. -/
def Inside : Query → Prop
  | .exported path _ _ => R.paths path
  | .word s _ _ => R.scopes s

variable {R}

theorem inside_of_leads {q p : Query} (hq : R.Inside q) (h : Leads w q p) : R.Inside p := by
  cases h with
  | aliased => exact hq
  | imported _ _ _ hp => exact R.resolved hq hp
  | exportedAlias hs => exact R.loaded hq hs
  | clause hs => exact R.loaded hq hs
  | passedOn hs _ _ hp => exact R.resolved (R.loaded hq hs) hp

theorem scopes_of_holds {q : Query} {d : Declaration} (hq : R.Inside q) (h : Holds w q d) :
    R.scopes d.scope := by
  cases h with
  | localValue => exact hq
  | localType => exact hq
  | exportedValue hs => exact R.loaded hq hs
  | exportedType hs => exact R.loaded hq hs

/-- Nothing in a region stops a lookup. -/
structure Readable (R : Region w) : Prop where
  loads : ∀ path, R.paths path → ∃ r, w.load path = .ok r
  scopes : ∀ s, R.scopes s → s.Readable w

theorem Readable.exported (h : R.Readable) {q : Query} (hq : R.Inside q) :
    ∀ path meaning name s, q = .exported path meaning name → w.load path = .ok (some s) →
      s.Readable w := by
  rintro path meaning name s rfl hs
  exact h.scopes s (R.loaded hq hs)

theorem Readable.moves (h : R.Readable) {q : Query} (hq : R.Inside q) (f : Failure) :
    .error f ∉ w.moves q := by
  intro hf
  rcases stops_of_error hf with ⟨path, _, _, rfl, hl⟩ | ⟨path, _, _, s, rfl, hl, hs⟩ | ⟨s, _, _, rfl, hs⟩
  · obtain ⟨r, hr⟩ := h.loads path hq
    rw [hr] at hl
    cases hl
  · exact h.scopes s (R.loaded hq hl) f hs
  · exact h.scopes s hq f hs

end Region

/-! ## Loaded modules -/

/-- What is read is the decoded content of a file. -/
theorem Project.mem_files_of_read {project : Project} {limit : Int} {path : String} {source : List Char}
    (h : project.read limit path = some source) :
    ∃ f ∈ project.files, source = Encoding.decode f.2 ∧
      project.locate path = .ok (some f.1) := by
  unfold read at h
  split at h
  · rename_i bytes hb
    split at h
    · cases h
    · cases h
      unfold fileAt? at hb
      cases hl : project.locate path with
      | error f => rw [hl] at hb; cases hb
      | ok place =>
        rw [hl] at hb
        cases place with
        | none => cases hb
        | some place =>
          have hc : project.content? place = some bytes := Except.ok.inj hb
          obtain ⟨f, hf, rfl⟩ := Option.map_eq_some_iff.1 hc
          refine ⟨f, List.mem_of_find?_eq_some hf, rfl, ?_⟩
          have hplace := List.find?_some hf
          rw [beq_iff_eq.1 hplace]
  · cases h

/-- A source text without tags is a script as a whole, under any path. -/
theorem Module.script_sections {source : List Char} (h : (SingleFile.split source).script = source)
    (path : Option String) : (Module.sections source path).script = source := by
  unfold sections
  split
  · exact h
  · rfl

namespace Workspace

/-- Loading finds nothing, or reads and parses a module and collects its imports. -/
theorem load_cases (w : Workspace) (path : String) : w.load path = .ok none ∨
    ∃ source m, w.project.read w.sizeLimit path = some source ∧
      Module.parse? source (some path) = some m ∧
      w.load path = (Imports.ofRoot m.root).map fun i => some ⟨m, i⟩ := by
  unfold load
  split
  · rename_i m hm
    obtain ⟨source, hr, hp⟩ := Option.bind_eq_some_iff.1 hm
    refine .inr ⟨source, m, hr, hp, ?_⟩
    unfold Scope.ofModule
    cases Imports.ofRoot m.root <;> rfl
  · exact .inl rfl

/-- A loaded scope is that of a module that was read and parsed. -/
theorem module_of_load {w : Workspace} {path : String} {s : Scope}
    (h : w.load path = .ok (some s)) : ∃ source, w.project.read w.sizeLimit path = some source ∧
      Module.parse? source (some path) = some s.module ∧ Imports.ofRoot s.root = .ok s.imports := by
  rcases load_cases w path with he | ⟨source, m, hr, hp, he⟩ <;> rw [he] at h
  · cases h
  · cases hi : Imports.ofRoot m.root with
    | error f => rw [hi] at h; cases h
    | ok i =>
      rw [hi] at h
      cases h
      exact ⟨source, hr, hp, hi⟩

/-- A script without imports that no dialect finds at fault is loaded. -/
theorem load_script {w : Workspace} {path : String} {source : List Char}
    (hr : w.project.read w.sizeLimit path = some source)
    (hs : (SingleFile.split source).script = source) (hp : ∀ d, (Script.parse d source).2 = false)
    (hi : ∀ d, Imports.ofRoot (Script.parse d source).1 = .ok []) :
    ∃ s d, w.load path = .ok (some s) ∧ s.root = (Script.parse d source).1 ∧ s.imports = [] := by
  obtain ⟨m, d, hm, hroot⟩ : ∃ m d, Module.parse? source (some path) = some m ∧
      m.root = (Script.parse d source).1 := by
    unfold Module.parse? Module.read
    simp only [Module.script_sections hs, hp, Bool.false_eq_true, if_false]
    exact ⟨_, _, rfl, rfl⟩
  refine ⟨⟨m, []⟩, d, ?_, hroot, rfl⟩
  unfold load
  rw [hr, Option.bind_some, hm]
  simp only [Scope.ofModule, hroot, hi]
  rfl

/-- What is loaded is the script of a source text without tags. -/
theorem root_of_load_script {w : Workspace} {path : String} {source : List Char} {s : Scope}
    (h : w.load path = .ok (some s)) (hr : w.project.read w.sizeLimit path = some source)
    (hs : (SingleFile.split source).script = source) : ∃ d, s.root = (Script.parse d source).1 := by
  obtain ⟨source', hr', hp, -⟩ := module_of_load h
  cases hr.symm.trans hr'
  unfold Module.parse? Module.read at hp
  simp only [Module.script_sections hs] at hp
  split at hp
  · cases hp
  · exact ⟨_, (congrArg Module.root (Option.some.inj hp)).symm⟩

theorem path_of_load {w : Workspace} {path : String} {s : Scope} (h : w.load path = .ok (some s)) :
    s.path = some path := by
  obtain ⟨source, -, hp, -⟩ := module_of_load h
  unfold Module.parse? Module.read at hp
  simp only at hp
  split at hp
  · cases hp
  · exact congrArg Module.path (Option.some.inj hp).symm

/-- Modules that are shown under one name are one module. -/
theorem load_inj {w : Workspace} {path path' : String} {s s' : Scope}
    (h : w.load path = .ok (some s)) (h' : w.load path' = .ok (some s'))
    (hp : Module.shownPath s.path = Module.shownPath s'.path) : s = s' := by
  rw [path_of_load h, path_of_load h'] at hp
  cases hp
  rw [h] at h'
  cases h'
  rfl

/-! ## Resolved paths -/

/-- Paths from the root on. -/
def IsAbsolute (path : String) : Prop := ∃ segments, path = Path.toString ⟨true, segments⟩

theorem IsAbsolute.ne_source {path : String} (h : IsAbsolute path) : path ≠ "<source>" := by
  obtain ⟨segments, rfl⟩ := h
  intro he
  have := congrArg String.toList he
  simp [Path.toString] at this

end Workspace

namespace Project

theorem absolute_of_mem_candidates {extensions : List String} {base p : Path}
    (hb : base.absolute = true) (h : .ok p ∈ candidates extensions base) : p.absolute = true := by
  rcases List.mem_append.1 h with h | h
  · obtain ⟨e, -, he⟩ := List.mem_map.1 h
    unfold withExtension at he
    split at he
    · cases he
    · cases he
      exact hb
  · obtain ⟨e, -, he⟩ := List.mem_map.1 h
    cases he
    unfold Path.join
    split
    · assumption
    · exact hb

theorem absolute_of_resolve {project : Project} {extensions : List String} {specifier path : String}
    {directory : Path} (h : project.resolve extensions specifier directory = .ok (some path)) :
    ∃ p : Path, p.absolute = true ∧ path = p.toString := by
  rcases resolve_cases h with ⟨he, -⟩ | h
  · exact ⟨_, rfl, he⟩
  · obtain ⟨p, hp, he, -⟩ := mem_of_firstFile h
    exact ⟨p, absolute_of_mem_candidates rfl hp, he⟩

end Project

theorem Workspace.isAbsolute_of_resolve {w : Workspace} {s : Scope} {specifier : Text} {path : String}
    (h : w.resolve s specifier = .ok (some path)) : IsAbsolute path := by
  unfold resolve at h
  split at h
  · obtain ⟨⟨absolute, segments⟩, rfl, rfl⟩ := Project.absolute_of_resolve h
    exact ⟨segments, rfl⟩
  · split at h <;> cases h

/-! ## The modules around a query -/

namespace Region

/-- All modules that can be read, and a component. -/
def everywhere (w : Workspace) (c : Scope) : Region w where
  paths _ := True
  scopes s := s = c ∨ ∃ path, w.load path = .ok (some s)
  loaded _ h := .inr ⟨_, h⟩
  resolved _ _ := trivial

/-- The modules at absolute paths, and the scope or the module that a query names. -/
def around (w : Workspace) (q : Query) : Region w where
  paths path := Workspace.IsAbsolute path ∨ ∃ meaning name, q = .exported path meaning name
  scopes s := (∃ meaning word, q = .word s meaning word) ∨ ∃ path,
    (Workspace.IsAbsolute path ∨ ∃ meaning name, q = .exported path meaning name) ∧
      w.load path = .ok (some s)
  loaded hp h := .inr ⟨_, hp, h⟩
  resolved _ h := .inl (Workspace.isAbsolute_of_resolve h)

theorem inside_around (w : Workspace) (q : Query) : (around w q).Inside q := by
  cases q with
  | exported path meaning name => exact .inr ⟨meaning, name, rfl⟩
  | word s meaning word => exact .inl ⟨meaning, word, rfl⟩

end Region

/-- What is read at the path of a scope, if it has one, is the scope. -/
def Workspace.Owns (w : Workspace) (s : Scope) : Prop :=
  ∀ path, s.path = some path → ∀ s', w.load path = .ok (some s') → s' = s

/-- A component and the modules of its project are distinct if no module is read under its name. -/
theorem Region.distinct_everywhere {w : Workspace} {c : Scope}
    (hc : ∀ s, w.load (Module.shownPath c.path) = .ok (some s) → s = c) :
    (everywhere w c).Distinct := by
  rintro s s' (rfl | ⟨path, hp⟩) (rfl | ⟨path', hp'⟩) h
  · rfl
  · rw [Workspace.path_of_load hp'] at h
    exact (hc s' (by rw [h]; exact hp')).symm
  · rw [Workspace.path_of_load hp] at h
    exact hc s (by rw [← h]; exact hp)
  · exact Workspace.load_inj hp hp' h

/-- A scope that is no module of its own name is shown as no absolute path. -/
theorem Region.distinct_around {w : Workspace} {q : Query}
    (hq : ∀ s meaning word, q = .word s meaning word → w.Owns s) : (around w q).Distinct := by
  -- a module at an absolute path is not the pathless scope of a query
  have same {s s' : Scope} {meaning : Meaning} {word : Text} {path : String}
      (hs : q = .word s meaning word)
      (hp : Workspace.IsAbsolute path ∨ ∃ meaning name, q = .exported path meaning name)
      (hl : w.load path = .ok (some s'))
      (h : Module.shownPath s.path = Module.shownPath s'.path) : s' = s := by
    rw [Workspace.path_of_load hl] at h
    rcases hp with hp | ⟨meaning', name, he⟩
    · cases hpath : s.path with
      | none =>
        rw [hpath] at h
        exact absurd h.symm hp.ne_source
      | some p =>
        rw [hpath] at h
        cases h
        exact hq s meaning word hs _ hpath s' hl
    · rw [hs] at he
      cases he
  rintro s s' (⟨m, x, hs⟩ | ⟨path, hp, hl⟩) (⟨m', x', hs'⟩ | ⟨path', hp', hl'⟩) h
  · rw [hs] at hs'
    cases hs'
    rfl
  · exact (same hs hp' hl' h).symm
  · exact same hs' hp hl h.symm
  · exact Workspace.load_inj hl hl' h

end SurfaceCoverage
