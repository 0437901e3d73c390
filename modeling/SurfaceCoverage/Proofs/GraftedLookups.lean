import SurfaceCoverage.Proofs.Correspondence
/-!
# Lookups in projects with statements put in

A statement spares the queries that are asked if it declares, imports and exports nothing that one of
them asks for. Once such statements are put into the modules of a project, lookups go as they did.
-/

namespace SurfaceCoverage

/-! ## Statements that spare what is asked for -/

/-- A statement that has no defining call and that declares, imports and exports nothing that is
asked for in a scope. -/
structure Node.Spares (w : Workspace) (callees : List Text) (asked : Query → Prop) (s : Scope)
    (statement : Node) : Prop where
  calls : statement.callsOf callees = []
  values : ∀ word, asked (.word s .value word) →
    ∀ d ∈ statement.findAll .variableDeclarator, d.initialValue? word = none
  types : ∀ word, asked (.word s .type word) →
    ∀ d ∈ statement.descendants, d.declaresType word = false
  imports : ∀ meaning word, asked (.word s meaning word) →
    ∀ bound, Imports.ofStatement statement = .ok bound → ∀ i ∈ bound, i.localName ≠ word
  exports : ∀ path meaning name, asked (.exported path meaning name) →
    w.load path = .ok (some s) → statement.kind = .exportStatement →
      Scope.exported meaning name statement = []

/-- A scope with statements put in that spare what is asked for. -/
structure Scope.Grown (w : Workspace) (callees : List Text) (asked : Query → Prop) (s s' : Scope) :
    Prop where
  path : s'.path = s.path
  root : s.root.Grafts (Node.Spares w callees asked s) s'.root
  imports : Imports.ofRoot s.root = .ok s.imports
  imports' : Imports.ofRoot s'.root = .ok s'.imports

/-- A project with such statements put into its modules. The same files exist. -/
structure Workspace.Grown (w : Workspace) (callees : List Text) (asked : Query → Prop)
    (w' : Workspace) : Prop where
  extensions : w'.extensions = w.extensions
  directory : w'.project.directory = w.project.directory
  isFile : ∀ path, w'.project.isFile path = w.project.isFile path
  load : ∀ path, Agree (Option.Rel (Scope.Grown w callees asked)) (w.load path) (w'.load path)

/-- A project to which nothing is added. -/
theorem Workspace.Grown.refl (w : Workspace) (callees : List Text) (asked : Query → Prop) :
    w.Grown callees asked w where
  extensions := rfl
  directory := rfl
  isFile _ := rfl
  load path := by
    rcases hl : w.load path with f | _ | s
    · exact .error f
    · exact .ok .none
    · obtain ⟨-, -, -, himports⟩ := Workspace.module_of_load hl
      exact .ok (.some ⟨rfl, .same _, himports, himports⟩)

/-- What is asked for is answered alike once statements that spare it are put in. -/
theorem Workspace.Grown.alike {w w' : Workspace} {callees : List Text} {asked : Query → Prop}
    (h : w.Grown callees asked w') :
    w.Alike (Scope.Grown w callees asked) (Node.Spares w callees asked) asked w' where
  path _ _ hs := hs.path
  resolve _ _ hs := Workspace.resolve_congr h.extensions h.directory h.isFile hs.path
  load := h.load
  words s s' hs meaning word ha := by
    refine Scope.forall₂_localCandidates ?_ ?_ ?_
    · exact Imports.get?_eq_of_grafts hs.root hs.imports hs.imports' fun st h bound hb i hi =>
        h.imports meaning word ha bound hb i hi
    · rintro rfl
      exact hs.root.rel_localInitializer? fun st h => h.values word ha
    · rintro rfl
      exact hs.root.rel_localType? fun st h => h.types word ha
  exports path s s' hl hs meaning name ha :=
    Scope.forall₂_exportCandidates hs.root fun st hst hk => hst.exports path meaning name ha hl hk

/-! ## Depth -/

section
variable {w : Workspace} {limit : Int} {s : Scope} {items : List Item}

/-- More depth than the bound changes nothing, not even about words that do not end. -/
theorem Item.texts_of_bound_le (hw : Path.IsCanonical w.project.directory)
    (hm : ∀ meaning word, .reference meaning word ∈ items → (⟨s, meaning, word⟩ : Mention).Stands)
    {depth : Nat} (hd : Search.depthBound w s ≤ depth) :
    Item.texts w limit depth s items = Item.texts w limit (Search.depthBound w s) s items := by
  have hkeeps : Expansion.names.Keeps (Region.project w hw s).scopes (· ≠ .endless)
      fun _ => True := Expansion.names_keeps (Region.project w hw s).faultsOnly_ne_endless.literals
  refine Item.eval_inquiries_congr fun meaning word hitem => ?_
  have hm : (Region.project w hw s).Mentions ⟨s, meaning, word⟩ := ⟨.inl rfl, hm _ _ hitem⟩
  by_cases he : Expansion.names.unfold (lookup w limit) (Search.depthBound w s)
      ⟨s, meaning, word⟩ = .error .endless
  · have hcycle := (Expansion.endless_iff_leadsToCycle hkeeps (by simp) hm).1 he
    rw [he]
    exact hcycle.endless (fun _ _ => Expansion.mentions_of_refers hkeeps)
      (fun _ _ _ => Expansion.above_of_refers) hm depth
  · exact Expansion.unfold_le hd he

end

end SurfaceCoverage
