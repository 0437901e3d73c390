import SurfaceCoverage.Proofs.Indirection
/-!
# Declarations and their scopes

What a search finds stands in the tree of the scope that it comes with. That scope is the one that
the search began in, or a module that it has read: the paths that the search adds to those read
before show which. A search may go through many modules; the induction carries the scope that it
stands in, and the paths that were read until it got there.
-/

namespace SurfaceCoverage

/-- A module as it is read and parsed from a file that exists, with the imports of its own tree. -/
structure Workspace.ReadsAs (w : Workspace) (path : String) (s : Scope) : Prop where
  isFile : w.project.isFile path = .ok true
  parsed : ∃ source, w.project.read w.sizeLimit path = some source ∧
    Module.parse? source (some path) = some s.module
  imports : Imports.ofRoot s.root = .ok s.imports

theorem Project.isFile_of_read {project : Project} {limit : Int} {path : String}
    {source : List Char} (h : project.read limit path = some source) :
    project.isFile path = .ok true := by
  unfold read at h
  unfold isFile
  split at h
  · rename_i bytes hb
    rw [hb]
    rfl
  · cases h

theorem Workspace.readsAs_of_load {w : Workspace} {path : String} {s : Scope}
    (h : w.load path = .ok (some s)) : w.ReadsAs path s := by
  obtain ⟨source, hr, hp, hi⟩ := module_of_load h
  exact ⟨Project.isFile_of_read hr, ⟨source, hr, hp⟩, hi⟩

/-- The scope that a query begins in, if it does not have to read one first. -/
def Query.scope? : Query → Option Scope
  | exported _ _ _ => none
  | word s _ _ => some s

/-- The scope that a query is answered in: its own, or that of the module that it reads. -/
inductive Workspace.AnswersIn (w : Workspace) : Query → Scope → Prop
  | itself {s : Scope} {meaning : Meaning} {word : Text} : AnswersIn w (.word s meaning word) s
  | read {path : String} {meaning : Meaning} {name : Text} {s : Scope}
      (h : w.load path = .ok (some s)) : AnswersIn w (.exported path meaning name) s

variable {w : Workspace} {start : Option Scope} {before reads reads' : List String}
  {meaning : Meaning} {s s' : Scope}

theorem Holds.answersIn {q : Query} {d : Declaration} (h : Holds w q d) : w.AnswersIn q d.scope := by
  cases h with
  | localValue => exact .itself
  | localType => exact .itself
  | exportedValue hs => exact .read hs
  | exportedType hs => exact .read hs

/-- A query leads to words of the scope that it is answered in. -/
theorem Leads.answersIn {q p : Query} (h : Leads w q p) (hp : p.scope? = some s) : w.AnswersIn q s := by
  cases h with
  | aliased =>
    cases hp
    exact .itself
  | imported => cases hp
  | exportedAlias hs =>
    cases hp
    exact .read hs
  | clause hs =>
    cases hp
    exact .read hs
  | passedOn => cases hp

/-- A scope that a search can stand in: the one that it began in, or a module at a path that it has
read since. -/
def Workspace.Reached (w : Workspace) (start : Option Scope) (before reads : List String)
    (s : Scope) : Prop :=
  start = some s ∨ ∃ since path, reads = since ++ before ∧ path ∈ since ∧ w.ReadsAs path s

theorem Workspace.Reached.mono (h : w.Reached start before reads s) (hr : reads <:+ reads') :
    w.Reached start before reads' s := by
  rcases h with h | ⟨since, path, rfl, hp, hs⟩
  · exact .inl h
  · obtain ⟨more, rfl⟩ := hr
    exact .inr ⟨more ++ since, path, (List.append_assoc ..).symm, List.mem_append_right _ hp, hs⟩

/-- A declaration of a meaning that stands in the tree of its scope, with a scope that the search
has reached. -/
structure Declaration.AtHome (w : Workspace) (start : Option Scope) (before : List String)
    (meaning : Meaning) (reads : List String) (d : Declaration) : Prop where
  node : d.node ∈ d.scope.root.descendants
  declares : d.node.Declares meaning
  scope : w.Reached start before reads d.scope

namespace Search

/-- A search that, once certain paths have been read, only adds to what has been read, and finds
declarations that are at home. -/
def FindsAtHome (w : Workspace) (start : Option Scope) (before : List String) (meaning : Meaning)
    (reads : List String) (m : Search (Option Declaration)) : Prop :=
  ∀ u r u', reads <:+ u.reads → m u = .ok (r, u') →
    u.reads <:+ u'.reads ∧ ∀ d, r = some d → d.AtHome w start before meaning u'.reads

theorem findsAtHome_nothing : FindsAtHome w start before meaning reads (return none) := by
  intro u r u' _ h
  cases h
  exact ⟨List.suffix_refl _, fun d hd => by cases hd⟩

theorem findsAtHome_visiting {v : Visit} {body : Search (Option Declaration)}
    (h : FindsAtHome w start before meaning reads body) :
    FindsAtHome w start before meaning reads (visiting v body) := by
  intro u r u' hu hr
  rw [visiting_run] at hr
  split at hr
  · cases hr
    exact ⟨List.suffix_refl _, fun d hd => by cases hd⟩
  · rename_i t _
    rcases hb : body { u with trail := t } with f | ⟨r', u₁⟩
    · rw [hb] at hr
      cases hr
    · rw [hb] at hr
      cases hr
      exact h { u with trail := t } r' u₁ hu hb

/-- The moves of a search are tried one after the other, each with more paths read. -/
theorem findsAtHome_firstFound {go : Query → Search (Option Declaration)}
    {ms : List (Except Failure Move)}
    (hfound : ∀ d, .ok (.found d) ∈ ms → d.AtHome w start before meaning reads)
    (honward : ∀ q, .ok (.onward q) ∈ ms → FindsAtHome w start before meaning reads (go q)) :
    FindsAtHome w start before meaning reads (firstFound (tryMove go) ms) := by
  induction ms with
  | nil => exact findsAtHome_nothing
  | cons m ms ih =>
    have hms := ih (fun d hd => hfound d (List.mem_cons_of_mem _ hd))
      fun q hq => honward q (List.mem_cons_of_mem _ hq)
    intro u r u' hu hr
    rw [firstFound_cons_run] at hr
    rcases m with f | d | q
    · cases hr
    · cases hr
      have hd := hfound d List.mem_cons_self
      refine ⟨List.suffix_refl _, fun d' hd' => ?_⟩
      cases hd'
      exact ⟨hd.node, hd.declares, hd.scope.mono hu⟩
    · have hq := honward q List.mem_cons_self
      rw [tryMove] at hr
      rcases hg : go q u with f | ⟨_ | d, u₁⟩ <;> rw [hg] at hr
      · cases hr
      · have hu₁ := (hq u none u₁ hu hg).1
        obtain ⟨hsuffix, hfinds⟩ := hms u₁ r u' (hu.trans hu₁) hr
        exact ⟨hu₁.trans hsuffix, hfinds⟩
      · cases hr
        exact hq u (some d) _ hu hg

/-- The moves of a query find what is at home, if the scope that the query is answered in has been
reached, and they lead on to queries that find such declarations. -/
theorem findsAtHome_moves {go : Query → Search (Option Declaration)} {q : Query}
    (hs : ∀ s, w.AnswersIn q s → w.Reached start before reads s)
    (hgo : ∀ p, (∀ s, p.scope? = some s → w.Reached start before reads s) →
      FindsAtHome w start before (meaningOf p) reads (go p)) :
    FindsAtHome w start before (meaningOf q) reads (firstFound (tryMove go) (w.moves q)) := by
  refine findsAtHome_firstFound (fun d hd => ?_) fun p hp => ?_
  · have hd := holds_of_found hd
    exact ⟨hd.mem_descendants, hd.declares, hs _ hd.answersIn⟩
  · have hp := leads_of_onward hp
    rw [← hp.meaningOf_eq]
    exact hgo p fun s hps => hs s (hp.answersIn hps)

/-- What a run finds is at home, if the scope that it begins in has been reached. -/
theorem findsAtHome_run (room : Nat) {q : Query} (hbefore : before <:+ reads)
    (hq : ∀ s, q.scope? = some s → w.Reached start before reads s) :
    FindsAtHome w start before (meaningOf q) reads (run w room q) := by
  induction room generalizing q reads with
  | zero =>
    rw [run]
    exact findsAtHome_visiting findsAtHome_nothing
  | succ room ih =>
    rw [run_succ]
    refine findsAtHome_visiting fun u r u' hu hr => ?_
    have hown : u.reads <:+ q.ownPaths ++ u.reads := List.suffix_append _ _
    have hreached : ∀ s, w.AnswersIn q s → w.Reached start before (q.ownPaths ++ u.reads) s := by
      intro s hs
      cases hs with
      | itself => exact (hq s rfl).mono hu
      | @read path meaning name _ hl =>
        -- the module was read just now
        obtain ⟨since, hsince⟩ := hbefore.trans hu
        refine .inr ⟨path :: since, path, ?_, List.mem_cons_self, Workspace.readsAs_of_load hl⟩
        rw [List.cons_append, hsince]
        rfl
    have hmoves := findsAtHome_moves hreached fun p hp => ih ((hbefore.trans hu).trans hown) hp
    obtain ⟨hsuffix, hfinds⟩ := hmoves { u with reads := q.ownPaths ++ u.reads } r u'
      (List.suffix_refl _) hr
    exact ⟨hown.trans hsuffix, hfinds⟩

end Search

namespace Ask

/-- The scope that is asked in. -/
def scope? : Ask → Option Scope
  | query q => q.scope?
  | binding s _ _ => some s

/-- Whether a value or a type is asked for. -/
def asked : Ask → Meaning
  | query q => Search.meaningOf q
  | binding _ meaning _ => meaning

end Ask

/-- What an ask finds, in any project and on any trail, is a declaration of what was asked for: an
array, an object or a cast to a generic type, or else an interface or a type alias. It stands in the
tree of its own scope. That scope is the one that was asked in, or a module that was read meanwhile
at a path that names a file, with the imports of the same tree. -/
theorem found_at_home (w : Workspace) (a : Ask) {u u' : SearchState} {d : Declaration}
    (h : a.search w u = .ok (some d, u')) :
    d.node ∈ d.scope.root.descendants ∧ d.node.Declares a.asked ∧
      (a.scope? = some d.scope ∨ ∃ since path, u'.reads = since ++ u.reads ∧ path ∈ since ∧
        w.ReadsAs path d.scope) := by
  have hrun (q : Query) (hq : ∀ s, q.scope? = some s → a.scope? = some s)
      (hf : Search.find w q u = .ok (some d, u')) :
      d.AtHome w a.scope? u.reads (Search.meaningOf q) u'.reads :=
    (Search.findsAtHome_run _ (List.suffix_refl u.reads) (fun s hs => .inl (hq s hs))
      u (some d) u' (List.suffix_refl _) hf).2 d rfl
  cases a with
  | query q =>
    have hd := hrun q (fun _ hs => hs) h
    exact ⟨hd.node, hd.declares, hd.scope⟩
  | binding s meaning i =>
    rw [Ask.search, Search.findImport, Search.bind_run, Search.importQuery_run] at h
    split at h
    · cases h
    · rcases hr : w.resolve s i.specifier with f | _ | path <;> simp only [hr] at h
      · cases h
      · cases h
      · have hd := hrun (.exported path meaning i.exported) (fun _ hs => by cases hs) h
        exact ⟨hd.node, hd.declares, hd.scope⟩

/-! ### A list that is imported under another name -/

/-- What the component imports is found in the module, by way of another word. -/
theorem find_link : ∃ d u, Ask.search linkWorkspace (.binding linkComponent .value
    ⟨Text.ofString "z", Text.ofString "./b.ts", Text.ofString "z"⟩) { trail := { limit := 2 } } =
      .ok (some d, u) := by
  obtain ⟨s, dialect, hs, hr, -⟩ := load_link
  obtain ⟨value, hv, hdecl, -⟩ := linkList_spec dialect
  obtain ⟨n, hn⟩ := Option.isSome_iff_exists.1 hdecl
  have hexport : linkWorkspace.moves (.exported "/b.ts" .value (Text.ofString "z")) =
      [.ok (.onward (.word s .value (Text.ofString "x")))] := by
    have hcandidates := (linkRoot_spec dialect).2.2.2.2
    rw [Workspace.moves, hs]
    simp only [hr]
    split at hcandidates
    · rename_i word hc
      rw [hc, Option.some.inj hcandidates]
      rfl
    · cases hcandidates
  have hword : linkWorkspace.moves (.word s .value (Text.ofString "x")) = [.ok (.found ⟨n, s⟩)] := by
    rw [Workspace.moves, Scope.localCandidates, hr, hv]
    simp only [Node.valueCandidates, hn]
    rfl
  have hvisit : (Query.word s .value (Text.ofString "x")).visit =
      ⟨"/b.ts", Text.ofString "local x"⟩ := by
    rw [Query.visit, Workspace.path_of_load hs]
    rfl
  have hwalk : Walk.walk linkWorkspace (Trail.room { limit := 2 })
      (.exported "/b.ts" .value (Text.ofString "z")) { limit := 2 } =
        .ok (some ⟨n, s⟩, { limit := 2 }) := by
    rw [show Trail.room { limit := 2 } = 2 from rfl, Walk.walk, hexport]
    simp only [Walk.within, Walk.firstMove]
    rw [Walk.walk, hword, hvisit]
    rfl
  obtain ⟨u, hu, -⟩ := Search.find_of_walk hwalk
  refine ⟨⟨n, s⟩, u, ?_⟩
  rw [Ask.search, Search.findImport, Search.bind_run, Search.importQuery_run,
    if_neg (by decide), resolve_link]
  exact hu

theorem found_at_home_link :
    ∃ d u, Ask.search linkWorkspace (.binding linkComponent .value
      ⟨Text.ofString "z", Text.ofString "./b.ts", Text.ofString "z"⟩) { trail := { limit := 2 } } =
        .ok (some d, u) ∧ d.node ∈ d.scope.root.descendants ∧ d.node.Declares .value ∧
      (some linkComponent = some d.scope ∨ ∃ since path, u.reads = since ++ [] ∧ path ∈ since ∧
        linkWorkspace.ReadsAs path d.scope) := by
  obtain ⟨d, u, hd⟩ := find_link
  exact ⟨d, u, hd, found_at_home linkWorkspace _ hd⟩

end SurfaceCoverage
