import SurfaceCoverage.Proofs.SoleSite
import SurfaceCoverage.Proofs.Naming
/-!
# Declared names are inert

At a sole site the names and values of members name nothing but members. The names of a category are
a matter of its own value and of what the words in it stand for, so two components that declare a
category alike have the same names for it, whatever they declare for other categories. Members with
the name of an option are the exception: they count for a category that no options object declares.
-/

namespace SurfaceCoverage

/-! ## Two components -/

/-- The names of the declaration that a word of a declaration's scope stands for. -/
def Declaration.wordTexts (d : Declaration) (w : Workspace) (settings : Settings) (meaning : Meaning)
    (word : Text) : Except Failure (List Text) :=
  (Search.expandTo w (Search.depthBound w d.scope) [] d.scope meaning word).evaluate
    settings.freshTrail

/-- Two components declare a category alike: neither does, or both do with one value, and what its
words stand for has the same names. -/
def Alike (w : Workspace) (settings : Settings) (w' : Workspace) (settings' : Settings) :
    Option Declaration → Option Declaration → Prop
  | none, none => True
  | some v, some v' => v'.node = v.node ∧ ∀ meaning word, .reference meaning word ∈ v.node.valueItems →
      v.wordTexts w settings meaning word = v'.wordTexts w' settings' meaning word
  | _, _ => False

section
variable {w w' : Workspace} {settings settings' : Settings} {c c' : Scope} {own own' : Declarations}
  {cat : Category}

/-- A value that is declared stands in a module of the project or in the component. -/
theorem Sole.standsIn (h : Sole w settings c own) {v : Declaration} (hv : own cat = some v) :
    v.StandsIn (Region.project w h.directory c).scopes := by
  cases h.site with
  | @options call argument object owner hcall hargument hobject _ hown =>
    have hdeclares := hown cat
    rw [hv] at hdeclares
    obtain ⟨rfl, m, hm, -, hvalue⟩ := hdeclares
    obtain ⟨-, howner, hmem⟩ := h.located hcall hargument hobject
    exact ⟨howner, Node.mem_descendants_trans (Node.mem_descendants_of_child? hvalue)
      (Node.mem_descendants_trans (Node.findMember?_mem hm) hmem)⟩
  | keywords _ hown =>
    obtain ⟨-, hnone⟩ | ⟨call, n, rest, hone, harguments, -, hsome⟩ := hown cat
    · rw [hv] at hnone
      cases hnone
    · rw [hv] at hsome
      cases hsome
      have hcall : call ∈ c.root.callsOf [cat.keyword] := by
        rw [hone]
        exact List.mem_singleton_self call
      have hargument : n ∈ call.callArguments := by
        rw [harguments]
        exact List.mem_cons_self
      exact ⟨.inl rfl, Node.mem_descendants_trans (Node.mem_descendants_of_mem_callArguments hargument)
        (Node.mem_descendants_of_mem_callsOf hcall)⟩

/-- The names of a value are what its items come to. -/
theorem Sole.names_eq_texts (h : Sole w settings c own) {v : Declaration} (hv : own cat = some v) :
    own.names w settings cat = (Item.texts w settings.depthLimit (Search.depthBound w v.scope) v.scope
      v.node.valueItems).map MemberList.ofList := by
  obtain ⟨hscope, hmem⟩ := h.standsIn hv
  have hfrom : ∀ item ∈ v.node.valueItems, item.From v.scope.root :=
    fun item hi => (Node.valueItems_from v.node item hi).trans hmem
  rw [Declarations.names_of_some hv]
  exact h.evaluate_eq (namesOf_yields hscope hfrom (Region.distinct_project h.itself) h.unspaced
    literals_of_true)

/-- What a word comes to is what it unfolds to. -/
theorem Sole.wordTexts_eq (h : Sole w settings c own) {v : Declaration} (hv : own cat = some v)
    {meaning : Meaning} {word : Text} (hi : .reference meaning word ∈ v.node.valueItems) :
    v.wordTexts w settings meaning word = Expansion.names.unfold (lookup w settings.depthLimit)
      (Search.depthBound w v.scope) ⟨v.scope, meaning, word⟩ := by
  obtain ⟨hscope, hmem⟩ := h.standsIn hv
  have hfrom : Item.From v.scope.root (.reference meaning word) :=
    (Node.valueItems_from v.node _ hi).trans hmem
  unfold Declaration.wordTexts
  rw [Search.expandTo_eq]
  exact nested_evaluate (Region.distinct_project h.itself) h.unspaced
    (Expansion.names_keeps literals_of_true) ⟨hscope, hfrom.stands⟩

/-- The names of a category are those of its value and of the words in it, and nothing else about the
component matters to them. -/
theorem Sole.names_congr (h : Sole w settings c own) (h' : Sole w' settings' c' own')
    (ha : Alike w settings w' settings' (own cat) (own' cat)) :
    own.names w settings cat = own'.names w' settings' cat := by
  rcases hv : own cat with _ | v <;> rcases hv' : own' cat with _ | v' <;> rw [hv, hv'] at ha
  · rw [Declarations.names_of_none hv, Declarations.names_of_none hv']
  · exact ha.elim
  · exact ha.elim
  · obtain ⟨hnode, hwords⟩ := ha
    rw [h.names_eq_texts hv, h'.names_eq_texts hv', hnode]
    refine congrArg (Except.map MemberList.ofList) (Item.eval_inquiries_congr fun meaning word hi => ?_)
    rw [← h.wordTexts_eq hv hi, hwords meaning word hi]
    exact h'.wordTexts_eq hv' (hnode ▸ hi)

end

/-! ## Declared names are inert -/

/-- A component that declares its categories at one site, with values that are inert. Each category is
extracted on its own. Where no options of a defining call declare it, names under its option in the
first object literal that has it come first. Where none come from other literals, and nothing else
names a category without names of its own, a category has exactly the names of its own value; another
component that declares it alike has the same names for it, whatever else it declares. -/
theorem lists_of_sole_site {settings : Settings} {project : Project} {source : List Char}
    {path : Option String} {m : Module} {c : Scope} {own : Declarations}
    (hm : Module.parse? source path = some m) (hc : Scope.ofModule m = .ok c)
    (h : Sole (settings.workspace project) settings c own) :
    let w := settings.workspace project
    let names (cat : Category) := cat.extracted w settings c
    analyzeSource settings project source path = Except.mapError .failure
      (do return ⟨← names .inputs, ← names .events, ← names .slots, ← names .exposed⟩) ∧
    (∀ cat, ¬ Carried settings c own cat →
      (Search.strayNames w c cat.option).evaluate settings.freshTrail ≠ .ok ∅ →
      names cat = (Search.strayNames w c cat.option).evaluate settings.freshTrail) ∧
    ∀ cat, Unstrayed w settings c own cat →
      (own.names w settings cat = .ok ∅ → Quiet w settings c own cat) →
      names cat = own.names w settings cat ∧
      ∀ {w' settings' c' own'}, Sole w' settings' c' own' → Unstrayed w' settings' c' own' cat →
        (own'.names w' settings' cat = .ok ∅ → Quiet w' settings' c' own' cat) →
        Alike w settings w' settings' (own cat) (own' cat) →
        cat.extracted w' settings' c' = names cat := by
  intro w names
  refine ⟨?_, fun cat hcarried hstray => ?_, fun cat hs hq => ⟨h.extracted_eq_names hs hq, ?_⟩⟩
  · rw [analyzeSource_eq hm hc, Search.surface_evaluate h.itself h.unspaced]
  · show cat.extracted w settings c = _
    rw [h.extracted_of_not_carried hcarried]
    exact firstNamed_cons fun he => absurd he hstray
  · intro w' settings' c' own' h' hs' hq' halike
    show _ = cat.extracted w settings c
    rw [h.extracted_eq_names hs hq, h'.extracted_eq_names hs' hq', h.names_congr h' halike]

/-! ### Members with the names of options -/

/-- A component with a script alone: nothing is imported, no name is exported, no word has a blank,
and no functions and accesses are in it. -/
structure Scope.IsPlain (c : Scope) : Prop where
  path : c.path = none
  template : c.module.template = []
  imports : c.imports = []
  candidates : c.root.exportedCandidates = []
  exports : ∀ statement ∈ c.root.exports, statement.exportSpecifiers = []
  nodes : ∀ n ∈ c.root.descendants, n.isSetupFunction = false ∧ n.isAccess = false ∧
    (n.kind = .identifier ∨ n.kind = .shorthandPropertyIdentifier → n.name.Unspaced)

section
variable {c : Scope} {object : Node} (hp : c.IsPlain)
include hp

theorem Scope.IsPlain.quiet (own : Declarations) (cat : Category) :
    Quiet spreadWorkspace {} c own cat := by
  have hbagless (bag : Text) : Bagless spreadWorkspace {} c bag := by
    unfold Bagless
    rw [hp.candidates]
    rfl
  cases cat with
  | inputs => exact hbagless "$props"
  | events => trivial
  | slots =>
    refine ⟨hbagless "$slots", by rw [hp.template]; rfl, fun n hn haccess => ?_⟩
    exact absurd ((hp.nodes n hn).2.1.symm.trans haccess) Bool.false_ne_true
  | exposed => exact fun n hn hsetup => absurd ((hp.nodes n hn).1.symm.trans hsetup) Bool.false_ne_true

theorem Scope.IsPlain.sole
    (hobject : c.root.soleOptions? ({} : Settings).defineCallees = some object)
    (hinert : ∀ cat, ∀ v ∈ object.declarations c cat, v.node.Inert) :
    Sole spreadWorkspace {} c (object.declarations c) where
  site := site_of_soleOptions? hobject
  inert := hinert
  directory := by decide
  itself _ hs := absurd hs not_load_spread
  unspaced s hs := by
    cases scopes_alone hs
    exact {
      identifiers := fun n hn hk => (hp.nodes n hn).2.2 hk
      exports := fun statement hs n hn => by
        rw [hp.exports statement hs] at hn
        cases hn
      imports := fun i hi => by
        rw [hp.imports] at hi
        cases hi }

end

instance (n : Node) : Decidable n.Inert :=
  inferInstanceAs (Decidable (∀ v ∈ n.memberValues, ∀ d ∈ v.descendants, _))

instance (c : Scope) : Decidable c.IsPlain :=
  decidable_of_iff (c.path = none ∧ c.module.template = [] ∧ c.imports = [] ∧
    c.root.exportedCandidates = [] ∧ (∀ statement ∈ c.root.exports, statement.exportSpecifiers = []) ∧
    ∀ n ∈ c.root.descendants, n.isSetupFunction = false ∧ n.isAccess = false ∧
      (n.kind = .identifier ∨ n.kind = .shorthandPropertyIdentifier → n.name.Unspaced))
    ⟨fun ⟨path, template, imports, candidates, exports, nodes⟩ =>
      ⟨path, template, imports, candidates, exports, nodes⟩,
    fun h => ⟨h.path, h.template, h.imports, h.candidates, h.exports, h.nodes⟩⟩

/-- The scope of a script. -/
def scriptScope (source : String) : Scope := ⟨(Module.read source.toList none).1, []⟩

/-- What the options object of a script declares. -/
def scriptDeclarations (source : String) : Declarations :=
  let object := (scriptScope source).root.soleOptions? ({} : Settings).defineCallees
  (object.getD default).declarations (scriptScope source)

/-- The only category with a value has a member with the name of another category's option. -/
def strayScript : String :=
  "export default defineComponent(\x7b props: \x7b emits: \x7b x: 1 \x7d \x7d \x7d)\n"

/-- The other category has a value as well. -/
def emitsScript : String := "defineComponent(\x7bprops: \x7bemits: \x7bx: 1\x7d\x7d, emits: ['end']\x7d)"

/-- The member is not there. -/
def endScript : String := "defineComponent(\x7bprops: \x7b\x7d, emits: ['end']\x7d)"

/-- The scripts are parsed, each has one options object, and the values in it are inert literals. The
member gives a name to the category that is not declared; where both are declared, no object literal
has a member for the others, and the list is the same without the member. -/
theorem scripts_spec : (∀ source ∈ [strayScript, emitsScript, endScript],
      (Module.read source.toList none).2 = false ∧
      (Imports.ofRoot (Module.read source.toList none).1.root).toOption = some [] ∧
      (scriptScope source).IsPlain ∧
      ((scriptScope source).root.soleOptions? ({} : Settings).defineCallees).isSome ∧
      ∀ cat ∈ Category.all, ∀ v ∈ (scriptDeclarations source cat).toList,
        v.node.Inert ∧ (v.node.kind = .array ∨ v.node.kind = .object)) ∧
    ((scriptDeclarations strayScript .events).isNone ∧
      ((Search.strayNames spreadWorkspace (scriptScope strayScript) (Category.option .events)).evaluate
        ({} : Settings).freshTrail).toOption.map MemberList.toList = some [Text.ofString "x"] ∧
      (Category.extracted spreadWorkspace {} (scriptScope strayScript) .events).toOption.map
        MemberList.toList = some [Text.ofString "x"]) ∧
    ((scriptDeclarations emitsScript .inputs).isSome ∧ (scriptDeclarations emitsScript .events).isSome ∧
      (∀ o ∈ (scriptScope emitsScript).root.findAll .object,
        (o.findMember? (Category.option .slots)).toOption = some none ∧
        (o.findMember? (Category.option .exposed)).toOption = some none) ∧
      ((scriptDeclarations emitsScript).names spreadWorkspace {} .inputs).toOption.map
        MemberList.toList = some [Text.ofString "emits"]) ∧
    ∃ v ∈ (scriptDeclarations emitsScript .events).toList,
      ∃ v' ∈ (scriptDeclarations endScript .events).toList, v'.node = v.node ∧
        v.node.valueItems.all fun item => match item with
          | .reference _ _ => false
          | _ => true := by
  decide +kernel

theorem sole_script {source : String} (h : source ∈ [strayScript, emitsScript, endScript]) :
    Sole spreadWorkspace {} (scriptScope source) (scriptDeclarations source) := by
  obtain ⟨-, -, hplain, hobject, hvalues⟩ := scripts_spec.1 source h
  obtain ⟨object, hobject⟩ := Option.isSome_iff_exists.1 hobject
  have hdeclarations : scriptDeclarations source = object.declarations (scriptScope source) := by
    unfold scriptDeclarations
    rw [hobject]
    rfl
  rw [hdeclarations] at hvalues ⊢
  refine hplain.sole hobject fun cat v hv => (hvalues cat ?_ v (Option.mem_toList.2 hv)).1
  cases cat <;> decide

/-- Declared names are not inert at every site: a member with the name of an option that is not
declared gives names to the option's category. -/
theorem not_lists_of_every_sole_site :
    ¬ ∀ (settings : Settings) (project : Project) (source : List Char) (path : Option String)
      (m : Module) (c : Scope) (own : Declarations),
      Module.parse? source path = some m → Scope.ofModule m = .ok c →
      Sole (settings.workspace project) settings c own →
      (∀ cat, ∀ v ∈ own cat, v.node.kind = .array ∨ v.node.kind = .object) →
      (∀ cat, Quiet (settings.workspace project) settings c own cat) →
      ∀ cat : Category, cat.extracted (settings.workspace project) settings c =
        own.names (settings.workspace project) settings cat := by
  intro hall
  have hmem : strayScript ∈ [strayScript, emitsScript, endScript] := List.mem_cons_self
  obtain ⟨hread, himports, hplain, -, hvalues⟩ := scripts_spec.1 strayScript hmem
  have hevents := hall {} ⟨[], [], []⟩ strayScript.toList none _ _ (scriptDeclarations strayScript)
    (parse?_of_read hread) (ofModule_of_imports himports) (sole_script hmem)
    (fun cat v hv => (hvalues cat (by cases cat <;> decide) v (Option.mem_toList.2 hv)).2)
    (fun cat => hplain.quiet _ cat) .events
  obtain ⟨hnone, -, hnames⟩ := scripts_spec.2.1
  rw [Declarations.names_of_none (Option.isNone_iff_eq_none.1 hnone)] at hevents
  have hextracted : (Category.extracted spreadWorkspace {} (scriptScope strayScript) .events).toOption.map
      MemberList.toList = some [] := congrArg (fun e => e.toOption.map MemberList.toList) hevents
  rw [hnames] at hextracted
  cases hextracted

theorem carried_script {source : String} (h : source ∈ [strayScript, emitsScript, endScript])
    {cat : Category} (hcat : (scriptDeclarations source cat).isSome) :
    Carried {} (scriptScope source) (scriptDeclarations source) cat := by
  obtain ⟨-, -, -, hobject, -⟩ := scripts_spec.1 source h
  refine ⟨fun hno => ?_, Option.isSome_iff_ne_none.1 hcat⟩
  unfold Node.soleOptions? at hobject
  rw [hno] at hobject
  cases hobject

theorem lists_of_sole_site_emits :
    let own := scriptDeclarations emitsScript
    let names (source : String) (cat : Category) := cat.extracted spreadWorkspace {} (scriptScope source)
    Sole spreadWorkspace {} (scriptScope emitsScript) own ∧
    (∀ cat, Unstrayed spreadWorkspace {} (scriptScope emitsScript) own cat ∧
      Quiet spreadWorkspace {} (scriptScope emitsScript) own cat ∧
      names emitsScript cat = own.names spreadWorkspace {} cat) ∧
    (own.names spreadWorkspace {} .inputs).toOption.map MemberList.toList =
      some [Text.ofString "emits"] ∧
    names endScript .events = names emitsScript .events ∧
    names strayScript .events = (Search.strayNames spreadWorkspace (scriptScope strayScript)
      (Category.option .events)).evaluate ({} : Settings).freshTrail := by
  intro own names
  have hstray : strayScript ∈ [strayScript, emitsScript, endScript] := by simp
  have hemits : emitsScript ∈ [strayScript, emitsScript, endScript] := by simp
  have hend : endScript ∈ [strayScript, emitsScript, endScript] := by simp
  obtain ⟨hinputs, hevents, hmembers, hlist⟩ := scripts_spec.2.2.1
  obtain ⟨hread, himports, hplain, -⟩ := scripts_spec.1 emitsScript hemits
  have hunstrayed (cat : Category) :
      Unstrayed spreadWorkspace {} (scriptScope emitsScript) own cat := by
    cases cat with
    | inputs => exact unstrayed_of_carried (carried_script hemits hinputs) (by simp)
    | events => exact unstrayed_of_carried (carried_script hemits hevents) (by simp)
    | slots => exact unstrayed_of_no_member fun o ho => ok_of_toOption (hmembers o ho).1
    | exposed => exact unstrayed_of_no_member fun o ho => ok_of_toOption (hmembers o ho).2
  obtain ⟨-, -, hnames⟩ := lists_of_sole_site (parse?_of_read hread) (ofModule_of_imports himports)
    (sole_script hemits)
  have hown (cat : Category) := hnames cat (hunstrayed cat) fun _ => hplain.quiet own cat
  refine ⟨sole_script hemits, fun cat => ⟨hunstrayed cat, hplain.quiet own cat, (hown cat).1⟩, hlist,
    ?_, ?_⟩
  · -- the value is the same literal without words, and the options declare it both times
    obtain ⟨v, hv, v', hv', hnode, hitems⟩ := scripts_spec.2.2.2
    have hv := Option.mem_toList.1 hv
    have hv' := Option.mem_toList.1 hv'
    have halike : Alike spreadWorkspace {} spreadWorkspace {} (scriptDeclarations emitsScript .events)
        (scriptDeclarations endScript .events) := by
      rw [hv, hv']
      refine ⟨hnode, fun meaning word hi => ?_⟩
      exact absurd (List.all_eq_true.1 hitems _ hi) Bool.false_ne_true
    obtain ⟨-, -, hplain', -⟩ := scripts_spec.1 endScript hend
    exact (hown .events).2 (sole_script hend)
      (unstrayed_of_carried (carried_script hend (by rw [hv']; rfl)) (by simp))
      (fun _ => hplain'.quiet _ .events) halike
  · obtain ⟨hread', himports', -⟩ := scripts_spec.1 strayScript hstray
    obtain ⟨hnone, hnames', -⟩ := scripts_spec.2.1
    obtain ⟨-, hfallback, -⟩ := lists_of_sole_site (parse?_of_read hread')
      (ofModule_of_imports himports') (sole_script hstray)
    refine hfallback .events (fun hc => hc.2 (Option.isNone_iff_eq_none.1 hnone)) fun hempty => ?_
    have hempty' := hnames'.symm.trans (congrArg (fun e => e.toOption.map MemberList.toList) hempty)
    cases hempty'

end SurfaceCoverage
