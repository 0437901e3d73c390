import SurfaceCoverage.Proofs.Inertness
import SurfaceCoverage.Proofs.Precedence
import SurfaceCoverage.Proofs.Repetition
/-!
# Declarations inside functions

A word stands for its first declaration in document order, wherever that stands: the bodies of
functions count as well. So a function that is put into a module changes what a word of the module
stands for only if it declares the word in front of all other declarations of the word. If each word
that is asked for and that the function declares is declared in front of the function already, all
lookups find what they found, the names that words expand to are the same, and so are the options of
defining calls.
-/

namespace SurfaceCoverage

namespace Node

/-! ## Statements put into one place -/

/-- A node that plays no part in the node around it, and neither imports nor exports. -/
structure IsLocal (f : Node) : Prop where
  part : f.isPart = false
  imports : f.kind ≠ .importStatement
  exports : f.kind ≠ .exportStatement

/-- Functions and the blanks around them are such. -/
theorem isLocal_of_function {f : Node} (hr : f.role = .none)
    (hk : f.kind = .functionDeclaration ∨ f.kind = .generatorFunctionDeclaration ∨
      f.kind = .blank) : f.IsLocal := by
  rcases hk with hk | hk | hk
  all_goals
    refine ⟨?_, by rw [hk]; decide, by rw [hk]; decide⟩
    rw [isPart, hr, hk]
    rfl

/-- A node after nodes were put into one place of a list of statements below it. In front of that
place, in document order, stand certain nodes, those around it among them. -/
inductive Enters (added : List Node) : List Node → Node → Node → Prop
  | among {r : Role} {k : Kind} {before after : List Node}
      (list : (branch r k (before ++ after)).isStatementList = true) :
      Enters added (branch r k (before ++ after) :: preorderAll before)
        (branch r k (before ++ after)) (branch r k (before ++ (added ++ after)))
  | under {r : Role} {k : Kind} {before after front : List Node} {c c' : Node}
      (phrase : k.isSolid = false)
      (named : (branch r k (before ++ c :: after)).isTypeDeclaration = true →
        (branch r k (before ++ c' :: after)).child? .name =
          (branch r k (before ++ c :: after)).child? .name)
      (part : Enters added front c c') :
      Enters added (branch r k (before ++ c :: after) :: (preorderAll before ++ front))
        (branch r k (before ++ c :: after)) (branch r k (before ++ c' :: after))

/-- Each word that is asked for in a scope, and that one of the added nodes declares, is declared in
the same kind by one of the nodes in front. -/
structure LeavesWords (added front : List Node) (asked : Query → Prop) (s : Scope) : Prop where
  values : ∀ word, asked (.word s .value word) → ∀ f ∈ added, f.localInitializer? word ≠ none →
    ∃ d ∈ front, d.kind = .variableDeclarator ∧ d.initialValue? word ≠ none
  types : ∀ word, asked (.word s .type word) → ∀ f ∈ added, f.localType? word ≠ none →
    ∃ d ∈ front, d.declaresType word = true

namespace Enters

variable {added front : List Node} {n n' : Node}

theorem grafts (h : Enters added front n n') (ha : ∀ f ∈ added, f.IsLocal) :
    n.Grafts (· ∈ added) n' := by
  induction h with
  | among list =>
    have hadded {as : List Node} (hs : ∀ f ∈ as, f ∈ added) :
        Sprinkled (Grafts (· ∈ added)) (fun s => s.isPart = false ∧ s ∈ added) [] as :=
      .of_forall fun f hf => ⟨(ha f (hs f hf)).part, hs f hf⟩
    exact .among list ((Sprinkled.refl _).append ((hadded fun _ hf => hf).append (.refl _)))
  | under phrase named _ ih =>
    exact .within phrase named (List.rel_append (List.forall₂_refl _) (.cons ih (List.forall₂_refl _)))

/-- The nodes in front of the place stay in front of it, and those behind it stay behind. -/
theorem descendants (h : Enters added front n n') (ha : ∀ f ∈ added, f.IsLocal) :
    ∃ front' back, n.descendants = front ++ back ∧
      n'.descendants = front' ++ (preorderAll added ++ back) ∧
      List.Forall₂ (Grafts (· ∈ added)) front front' := by
  induction h with
  | @among r k before after list =>
    refine ⟨branch r k (before ++ (added ++ after)) :: preorderAll before, preorderAll after,
      ?_, ?_, ?_⟩
    · rw [descendants_eq, children, preorderAll_append, List.cons_append]
    · rw [descendants_eq, children, preorderAll_append, preorderAll_append, List.cons_append]
    · exact .cons (grafts (.among list) ha) (List.forall₂_refl _)
  | @under r k before after front c c' phrase named part ih =>
    obtain ⟨front', back, hc, hc', hfront⟩ := ih
    refine ⟨branch r k (before ++ c' :: after) :: (preorderAll before ++ front'),
      back ++ preorderAll after, ?_, ?_, ?_⟩
    · rw [descendants_eq, children, preorderAll_append, preorderAll, preorder_eq_descendants, hc]
      simp only [List.cons_append, List.append_assoc]
    · rw [descendants_eq, children, preorderAll_append, preorderAll, preorder_eq_descendants, hc']
      simp only [List.cons_append, List.append_assoc]
    · exact .cons (grafts (.under phrase named part) ha)
        (List.rel_append (List.forall₂_refl _) hfront)

/-- The top of a script is such a place. -/
theorem of_program {before after : List Node} (hn : n = branch .none .program (before ++ after))
    (hn' : n' = branch .none .program (before ++ (added ++ after))) :
    Enters added (n :: preorderAll before) n n' := by
  subst hn hn'
  exact .among rfl

theorem size_le (h : Enters added front n n') (ha : ∀ f ∈ added, f.IsLocal) : n.size ≤ n'.size := by
  obtain ⟨front', back, hn, hn', hfront⟩ := h.descendants ha
  rw [← length_descendants, ← length_descendants, hn, hn']
  simp only [List.length_append, hfront.length_eq]
  omega

/-! ## What words stand for -/

theorem rel_findSome?_append {α β : Type} {R : α → α → Prop} {S : β → β → Prop} {g : α → Option β}
    {front front' inner back : List α} (h : List.Forall₂ R front front')
    (hg : ∀ a b, R a b → Option.Rel S (g a) (g b)) (hfront : front.findSome? g ≠ none) :
    Option.Rel S ((front ++ back).findSome? g) ((front' ++ inner).findSome? g) := by
  have hrel := (Sprinkled.of_forall₂ (Q := fun _ => False) h).rel_findSome? hg fun _ hf => hf.elim
  obtain ⟨v, hv⟩ := Option.ne_none_iff_exists'.1 hfront
  obtain ⟨v', hv', hvv⟩ := exists_of_rel hrel hv
  rw [List.findSome?_append, List.findSome?_append, hv, hv']
  exact .some hvv

/-- A word that has an initial value in front keeps it. -/
theorem rel_localInitializer? (h : Enters added front n n') (ha : ∀ f ∈ added, f.IsLocal)
    {word : Text} (hword : ∀ f ∈ added, f.localInitializer? word ≠ none →
      ∃ d ∈ front, d.kind = .variableDeclarator ∧ d.initialValue? word ≠ none) :
    Option.Rel (Grafts (· ∈ added)) (n.localInitializer? word) (n'.localInitializer? word) := by
  by_cases hnone : ∀ f ∈ added, f.localInitializer? word = none
  · refine (h.grafts ha).rel_localInitializer? fun f hf d hd => ?_
    exact List.findSome?_eq_none_iff.1 (hnone f hf) d hd
  · push Not at hnone
    obtain ⟨f, hf, hdeclares⟩ := hnone
    obtain ⟨d, hd, hk, hvalue⟩ := hword f hf hdeclares
    obtain ⟨front', back, hn, hn', hfront⟩ := h.descendants ha
    have hdeclarators : List.Forall₂ (Grafts (· ∈ added))
        (front.filter (·.kind == .variableDeclarator))
        (front'.filter (·.kind == .variableDeclarator)) :=
      List.rel_filter (fun c c' hc => by simp only [hc.kind_eq]) hfront
    unfold localInitializer? findAll
    rw [hn, hn', List.filter_append, List.filter_append]
    refine rel_findSome?_append hdeclarators (fun c c' hc => hc.rel_initialValue? word) ?_
    intro hnone
    exact hvalue (List.findSome?_eq_none_iff.1 hnone d (List.mem_filter.2 ⟨hd, by rw [hk]; rfl⟩))

/-- A type that is declared in front keeps its declaration. -/
theorem rel_localType? (h : Enters added front n n') (ha : ∀ f ∈ added, f.IsLocal)
    {word : Text} (hword : ∀ f ∈ added, f.localType? word ≠ none →
      ∃ d ∈ front, d.declaresType word = true) :
    Option.Rel (Grafts (· ∈ added)) (n.localType? word) (n'.localType? word) := by
  by_cases hnone : ∀ f ∈ added, f.localType? word = none
  · refine (h.grafts ha).rel_localType? fun f hf d hd => ?_
    simpa using List.find?_eq_none.1 (hnone f hf) d hd
  · push Not at hnone
    obtain ⟨f, hf, hdeclares⟩ := hnone
    obtain ⟨d, hd, hdeclares⟩ := hword f hf hdeclares
    obtain ⟨front', back, hn, hn', hfront⟩ := h.descendants ha
    have hrel : Option.Rel (Grafts (· ∈ added)) (front.find? (declaresType word))
        (front'.find? (declaresType word)) :=
      rel_find? hfront fun c c' hc => hc.declaresType_eq word
    unfold localType?
    rw [hn, hn', List.find?_append, List.find?_append]
    rcases ht : front.find? (declaresType word) with _ | t
    · exact absurd hdeclares (List.find?_eq_none.1 ht d hd)
    · obtain ⟨t', ht', htt⟩ := exists_of_rel hrel ht
      rw [ht']
      exact .some htt

end Enters
end Node

/-! ## Projects with a function put in -/

/-- A scope, or what it becomes when nodes are put in that leave the words that are asked for. -/
inductive Scope.Hosts (added : List Node) (asked : Query → Prop) : Scope → Scope → Prop
  | same (s : Scope) : Hosts added asked s s
  | entered {s s' : Scope} {front : List Node} (path : s'.path = s.path)
      (enters : Node.Enters added front s.root s'.root)
      (leaves : Node.LeavesWords added front asked s)
      (imports : Imports.ofRoot s.root = .ok s.imports)
      (imports' : Imports.ofRoot s'.root = .ok s'.imports) : Hosts added asked s s'

/-- A project with the nodes put into some of its modules. The same files exist. -/
structure Workspace.Hosts (added : List Node) (asked : Query → Prop) (w w' : Workspace) : Prop where
  extensions : w'.extensions = w.extensions
  directory : w'.project.directory = w.project.directory
  isFile : ∀ path, w'.project.isFile path = w.project.isFile path
  places : w'.project.files.map (·.1) = w.project.files.map (·.1)
  load : ∀ path, Agree (Option.Rel (Scope.Hosts added asked)) (w.load path) (w'.load path)

section
variable {added : List Node} {asked : Query → Prop} {w w' : Workspace} {s s' : Scope}

theorem Workspace.Hosts.refl (w : Workspace) (added : List Node) (asked : Query → Prop) :
    w.Hosts added asked w where
  extensions := rfl
  directory := rfl
  isFile _ := rfl
  places := rfl
  load path := by
    rcases w.load path with e | _ | s
    · exact .error e
    · exact .ok .none
    · exact .ok (.some (.same s))

theorem Scope.Hosts.path_eq (h : s.Hosts added asked s') : s'.path = s.path := by
  cases h with
  | same => rfl
  | entered path => exact path

theorem Scope.Hosts.grafts (h : s.Hosts added asked s') (ha : ∀ f ∈ added, f.IsLocal) :
    s.root.Grafts (· ∈ added) s'.root := by
  cases h with
  | same => exact .same _
  | entered _ enters => exact enters.grafts ha

theorem Scope.Hosts.size_le (h : s.Hosts added asked s') (ha : ∀ f ∈ added, f.IsLocal) :
    s.root.size ≤ s'.root.size := by
  cases h with
  | same => exact Nat.le_refl _
  | entered _ enters => exact enters.size_le ha

/-- What is asked for is answered alike once the nodes are put in. -/
theorem Workspace.Hosts.alike (h : w.Hosts added asked w') (ha : ∀ f ∈ added, f.IsLocal) :
    w.Alike (Scope.Hosts added asked) (fun _ => (· ∈ added)) asked w' where
  path _ _ hs := hs.path_eq
  resolve _ _ hs := Workspace.resolve_congr h.extensions h.directory h.isFile hs.path_eq
  load := h.load
  words s s' hs meaning word hasked := by
    cases hs with
    | same => exact List.forall₂_refl _
    | entered path enters leaves imports imports' =>
      refine Scope.forall₂_localCandidates ?_ ?_ ?_
      · refine Imports.get?_eq_of_grafts (enters.grafts ha) imports imports' ?_
        intro f hf bound hb i hi
        rw [Imports.ofStatement, if_pos (ha f hf).imports] at hb
        cases hb
        cases hi
      · rintro rfl
        exact enters.rel_localInitializer? ha (leaves.values word hasked)
      · rintro rfl
        exact enters.rel_localType? ha (leaves.types word hasked)
  exports path s s' _ hs meaning name _ :=
    Scope.forall₂_exportCandidates (hs.grafts ha) fun f hf hk => absurd hk (ha f hf).exports

/-- Expansions have no less depth to their disposal. -/
theorem Workspace.Hosts.depthBound_le (h : w.Hosts added asked w') (ha : ∀ f ∈ added, f.IsLocal)
    (hs : s.Hosts added asked s') : Search.depthBound w s ≤ Search.depthBound w' s' := by
  have hfile (place : List String) : w.fileSize place ≤ w'.fileSize place := by
    have hload := h.load (Path.toString ⟨true, place⟩)
    unfold Workspace.fileSize
    generalize w.load (Path.toString ⟨true, place⟩) = e at hload
    generalize w'.load (Path.toString ⟨true, place⟩) = e' at hload
    cases hload with
    | error f => exact Nat.le_refl _
    | ok hr =>
      cases hr with
      | none => exact Nat.le_refl _
      | some hs => exact hs.size_le ha
  have hcount (places : List (List String)) : (places.map w.fileSize).foldr (· + ·) 0 ≤
      (places.map w'.fileSize).foldr (· + ·) 0 := by
    induction places with
    | nil => exact Nat.le_refl _
    | cons place places ih => exact Nat.add_le_add (hfile place) ih
  have hnodes : w.nodeCount ≤ w'.nodeCount := by
    have hmap (w : Workspace) : w.nodeCount =
        ((w.project.files.map (·.1)).map w.fileSize).foldr (· + ·) 0 := by
      rw [List.map_map]
      rfl
    rw [hmap, hmap, h.places]
    exact hcount _
  have hroot := hs.size_le ha
  unfold Search.depthBound
  omega

end

/-! ## Options -/

theorem Node.exists_passesOptions {call : Node} (h : call.callArguments ≠ []) :
    ∃ a, call.PassesOptions a := by
  rcases hargs : call.callArguments with _ | ⟨a, _ | ⟨b, rest⟩⟩
  · exact absurd hargs h
  · exact ⟨_, .first hargs (.inl rfl)⟩
  · by_cases hsetup : a.unwrap.isFunctionValue = true
    · exact ⟨_, .second hargs hsetup⟩
    · exact ⟨_, .first hargs (.inr (Bool.not_eq_true _ ▸ hsetup))⟩

section
variable {w w' : Workspace} {S : Scope → Scope → Prop} {P : Scope → Node → Prop}
  {start : Query → Prop} {s s' : Scope} {slack : Prop} {Q : Node → Prop}

/-- Nodes that come from others, in scopes that correspond. -/
def SameIn (S : Scope → Scope → Prop) (m m' : Node × Scope) : Prop :=
  S m.2 m'.2 ∧ ∃ Q, m.1.Grafts Q m'.1

/-- An argument is or stands for the options object that it was or stood for. -/
theorem Search.optionsObject_repeats (h : w.Alike S P (w.Reaches start) w') (hs : S s s')
    {a a' : Node} (haa : a.Grafts Q a')
    (ha : a.kind = .identifier → start (.word s .value a.name)) :
    Repeats slack (Option.Rel fun o o' => SameIn S o o' ∧ o.1.kind = .object)
      (optionsObject w s a) (optionsObject w' s' a') := by
  unfold optionsObject
  simp only [← haa.kind_eq]
  split
  · exact .pure (.some ⟨⟨hs, Q, haa⟩, ‹_›⟩)
  · rename_i hk
    rw [Node.name_congr haa hk rfl] at ha ⊢
    refine (find_repeats h (.start (ha hk)) (.word hs .value a'.name)).bind fun r r' hr => ?_
    cases hr with
    | none => exact .pure .none
    | some hd =>
      simp only [← hd.node.kind_eq]
      split
      · exact .pure (.some ⟨⟨hd.scope, _, hd.node⟩, ‹_›⟩)
      · exact .pure .none
  · exact .pure .none

/-- The options of a call have the member that they had. -/
theorem Search.definedOption_repeats (h : w.Alike S P (w.Reaches start) w') (hs : S s s')
    {call call' : Node} (hcall : call.Grafts Q call')
    (ha : ∀ a, call.PassesOptions a → a.kind = .identifier → start (.word s .value a.name))
    (key : Text) :
    Repeats slack (Option.Rel (SameIn S)) (definedOption w s key call)
      (definedOption w' s' key call') := by
  unfold definedOption
  by_cases hnil : call.callArguments = []
  · have hargs := hcall.forall₂_callArguments
    rw [hnil, List.forall₂_nil_left_iff] at hargs
    have hnone : call.optionsArgument? = none := by rw [Node.optionsArgument?, hnil]
    have hnone' : call'.optionsArgument? = none := by rw [Node.optionsArgument?, hargs]
    rw [hnone, hnone']
    exact .pure .none
  · obtain ⟨a, hpasses⟩ := Node.exists_passesOptions hnil
    obtain ⟨a', hpasses', haa⟩ := hcall.exists_passesOptions hpasses
    rw [hpasses.optionsArgument?, hpasses'.optionsArgument?]
    refine (optionsObject_repeats h hs haa (ha a hpasses)).bind fun o o' ho => ?_
    cases ho with
    | none => exact .pure .none
    | @some o o' ho =>
      obtain ⟨⟨howner, Q, hoo⟩, hobject⟩ := ho
      simp only [findOption_singleton]
      refine (Repeats.ofExcept (hoo.findMember?_agrees hobject key)).bind fun m m' hm => ?_
      exact .pure (rel_map hm fun _ _ hmm => ⟨howner, Q, hmm⟩)

end

/-! ## Inner declarations -/

open Search

/-- A function that is put into a module, with whatever declarations in its body, changes nothing
about a word that its module asks for, if what it declares of the words that are asked for is declared
in front of it already. Searches find the same declarations, items come to the same names, and the
options of calls have the same members, on every trail. What does not end can be told only by the
depth it is given: to each depth, it is the same as well. -/
theorem inner_declarations_change_nothing {w w' : Workspace} {added : List Node}
    (hadded : ∀ f ∈ added, f.IsLocal) {start : Query → Prop}
    (h : w.Hosts added (w.Reaches start) w') {s s' : Scope}
    (hs : s.Hosts added (w.Reaches start) s') :
    (∀ meaning word, start (.word s meaning word) →
      Repeats False
        (Option.Rel (Declaration.Alike (Scope.Hosts added (w.Reaches start)) fun _ => (· ∈ added)))
        (find w (.word s meaning word)) (find w' (.word s' meaning word))) ∧
    (∀ (Q : Node → Prop) (items items' : List Item), List.Forall₂ (Item.Alike Q) items items' →
      (∀ meaning word, .reference meaning word ∈ items → start (.word s meaning word)) →
      Repeats True Eq (namesOf w s items) (namesOf w' s' items') ∧
      ∀ depth opened, Repeats False Eq (itemNames (expandTo w depth opened s) items)
        (itemNames (expandTo w' depth opened s') items')) ∧
    ∀ (Q : Node → Prop) (call call' : Node), call.Grafts Q call' →
      (∀ a, call.PassesOptions a → a.kind = .identifier → start (.word s .value a.name)) →
      ∀ key, Repeats False (Option.Rel (SameIn (Scope.Hosts added (w.Reaches start))))
        (definedOption w s key call) (definedOption w' s' key call') := by
  have halike := h.alike hadded
  refine ⟨fun meaning word ha => ?_, fun Q items items' hitems ha => ⟨?_, fun depth opened => ?_⟩,
    fun Q call call' hcall ha key => definedOption_repeats halike hs hcall ha key⟩
  · intro t t' ht
    refine (find_repeats halike (.start ha) (.word hs meaning word) t t' ht).imp_right fun hagree => ?_
    refine hagree.imp ?_
    rintro ⟨r, u⟩ ⟨r', u'⟩ ⟨hr, hu⟩
    refine ⟨?_, hu⟩
    cases hr with
    | none => exact .none
    | some hd => exact .some hd.toAlike
  · have hdepth := h.depthBound_le hadded hs
    unfold namesOf
    refine (itemNames_repeats halike hs hitems (fun m x hm => .start (ha m x hm))
      (.inr ⟨trivial, hdepth⟩) []).bind ?_
    rintro names _ rfl
    exact .pure rfl
  · exact itemNames_repeats halike hs hitems (fun m x hm => .start (ha m x hm)) (.inl rfl) opened

/-! ### A function behind the list that it hides, and in front of it -/

/-- A list of names, and a component with these. -/
def listComponent : Scope :=
  scriptScope "const a = ['p']\ndefineProps(a)\n"

/-- The same script, with a function behind the list. -/
def hiddenBehind : Scope := scriptScope
  "const a = ['p']\nfunction f() \x7b const a = ['wrong'] \x7d\ndefineProps(a)\n"

/-- The same script, with the function in front of the list. -/
def hiddenInFront : Scope := scriptScope
  "function f() \x7b const a = ['wrong'] \x7d\nconst a = ['p']\ndefineProps(a)\n"

/-- The function and the line end behind it. -/
def hidingFunction : List Node := hiddenInFront.root.children.take 2

theorem hidingFunction_spec : ∀ f ∈ hidingFunction, f.role = .none ∧
    (f.kind = .functionDeclaration ∨ f.kind = .generatorFunctionDeclaration ∨ f.kind = .blank) ∧
    (∀ d ∈ f.findAll .variableDeclarator, ∀ t ∈ d.child? .name, t.name = Text.ofString "a") ∧
    ∀ d ∈ f.descendants, d.isTypeDeclaration = false := by
  decide +kernel

theorem hidden_spec :
    (∀ s ∈ [listComponent, hiddenBehind], (Imports.ofRoot s.root).toOption = some []) ∧
    listComponent.root = .branch .none .program
      (listComponent.root.children.take 2 ++ listComponent.root.children.drop 2) ∧
    hiddenBehind.root = .branch .none .program
      (listComponent.root.children.take 2 ++ (hidingFunction ++ listComponent.root.children.drop 2)) ∧
    listComponent.root = .branch .none .program ([] ++ listComponent.root.children) ∧
    hiddenInFront.root = .branch .none .program ([] ++ (hidingFunction ++ listComponent.root.children)) ∧
    ∃ d ∈ Node.preorderAll (listComponent.root.children.take 2), d.kind = .variableDeclarator ∧
      (d.initialValue? (Text.ofString "a")).isSome := by
  decide +kernel

theorem listComponent_names :
    ((Search.wordNames spreadWorkspace listComponent (Text.ofString "a")).evaluate
      { limit := 32 }).toOption.map MemberList.toList = some [Text.ofString "p"] ∧
    ((Search.wordNames spreadWorkspace hiddenInFront (Text.ofString "a")).evaluate
      { limit := 32 }).toOption.map MemberList.toList = some [Text.ofString "wrong"] := by
  decide +kernel

theorem path_scriptScope (source : String) : (scriptScope source).path = none :=
  Module.path_read source.toList none

theorem imports_scriptScope (source : String) : (scriptScope source).imports = [] := rfl

theorem isLocal_hidingFunction : ∀ f ∈ hidingFunction, f.IsLocal := fun f hf =>
  Node.isLocal_of_function (hidingFunction_spec f hf).1 (hidingFunction_spec f hf).2.1

/-- The list in front of the function has the only name that the function declares. -/
theorem hosts_hiddenBehind (asked : Query → Prop) :
    listComponent.Hosts hidingFunction asked hiddenBehind := by
  obtain ⟨himports, hlist, hbehind, -, -, d, hd, hk, hvalue⟩ := hidden_spec
  have hpath : hiddenBehind.path = listComponent.path :=
    (path_scriptScope _).trans (path_scriptScope _).symm
  refine .entered hpath (.of_program hlist hbehind) ⟨fun word _ f hf hword => ?_, fun word _ f hf hword => ?_⟩
    (ok_of_toOption (himports _ (by simp))) (ok_of_toOption (himports _ (by simp)))
  · refine ⟨d, List.mem_cons_of_mem _ hd, hk, ?_⟩
    obtain ⟨-, -, hnames, -⟩ := hidingFunction_spec f hf
    obtain ⟨v, hv⟩ := Option.ne_none_iff_exists'.1 hword
    obtain ⟨e, he, hev⟩ := List.exists_of_findSome?_eq_some hv
    -- the word is the name of a declarator of the function
    have hname : word = Text.ofString "a" := by
      unfold Node.initialValue? at hev
      split at hev
      · rename_i t ht
        split at hev
        · rename_i hid
          rw [← hid.2, hnames e he t ht]
        · cases hev
      · cases hev
    rw [hname]
    exact Option.isSome_iff_ne_none.1 hvalue
  · obtain ⟨-, -, -, htypes⟩ := hidingFunction_spec f hf
    obtain ⟨e, he⟩ := Option.ne_none_iff_exists'.1 hword
    have hdeclares := List.find?_some he
    rw [Node.declaresType, htypes e (List.mem_of_find?_eq_some he), Bool.false_and] at hdeclares
    cases hdeclares

theorem inner_declarations_change_nothing_behind :
    ((Search.wordNames spreadWorkspace hiddenBehind (Text.ofString "a")).evaluate
      { limit := 32 }).toOption.map MemberList.toList = some [Text.ofString "p"] := by
  have hnames := listComponent_names.1
  obtain ⟨-, hitems, -⟩ := inner_declarations_change_nothing isLocal_hidingFunction
    (.refl spreadWorkspace _ _) (hosts_hiddenBehind (spreadWorkspace.Reaches fun _ => True))
  have hrepeats := (hitems (fun _ => False) [.reference .value (Text.ofString "a")] _
    (.cons (.same _) .nil) fun _ _ _ => trivial).1
  rcases hrepeats.evaluate { limit := 32 } with ⟨-, he⟩ | hagree
  · rw [Search.wordNames, he] at hnames
    cases hnames
  · rw [Search.wordNames] at hnames ⊢
    rw [← hagree.eq, hnames]

/-- A function in front of the list takes the word over. -/
theorem not_unchanged_in_front : ¬ ∀ (added front : List Node) (s s' : Scope) (word : Text),
    (∀ f ∈ added, f.role = .none ∧ (f.kind = .functionDeclaration ∨
      f.kind = .generatorFunctionDeclaration ∨ f.kind = .blank)) →
    Node.Enters added front s.root s'.root → s'.path = s.path → s'.imports = s.imports →
        (Search.wordNames spreadWorkspace s' word).evaluate { limit := 32 } =
          (Search.wordNames spreadWorkspace s word).evaluate { limit := 32 } := by
  intro h
  obtain ⟨-, -, -, hlist, hfront, -⟩ := hidden_spec
  have hsame := h hidingFunction _ listComponent hiddenInFront (Text.ofString "a")
    (fun f hf => ⟨(hidingFunction_spec f hf).1, (hidingFunction_spec f hf).2.1⟩)
    (.of_program hlist hfront)
    ((path_scriptScope _).trans (path_scriptScope _).symm)
    ((imports_scriptScope _).trans (imports_scriptScope _).symm)
  obtain ⟨hp, hwrong⟩ := listComponent_names
  rw [hsame, hp] at hwrong
  exact absurd hwrong (by decide)

end SurfaceCoverage
