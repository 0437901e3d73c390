import SurfaceCoverage.Proofs.Dispatch
/-!
# Components that declare their categories at one site

A component declares its categories at one site if one defining call has an options object, or if
each category that it declares has one call of its keyword. The values of members are no declarations
of their own there: the strategies of a category find the names of its own value
(`Sole.extracted_eq_names`).

There is one way past this. Where no options object of a defining call declares a category, the first
object literal with a member under the category's option counts before its call, wherever it stands
(`Sole.extracted_of_not_carried`), and an array under `expose` counts for members that are exposed.
`Unstrayed` says that no names come from there. It holds where no object literal has a member under
the option (`unstrayed_of_no_member`).
-/

namespace SurfaceCoverage

/-- What a component declares for each category, if anything. -/
abbrev Declarations := Category → Option Declaration

/-- The names of the value that a category is declared with. -/
def Declarations.names (own : Declarations) (w : Workspace) (settings : Settings) (cat : Category) :
    Except Failure MemberList :=
  match own cat with
  | some v => (Search.valueNames w v.scope v.node).evaluate settings.freshTrail
  | none => .ok ∅

theorem Declarations.names_of_some {own : Declarations} {cat : Category} {v : Declaration}
    (h : own cat = some v) (w : Workspace) (settings : Settings) : own.names w settings cat =
      (Search.valueNames w v.scope v.node).evaluate settings.freshTrail := by
  rw [names, h]

theorem Declarations.names_of_none {own : Declarations} {cat : Category} (h : own cat = none)
    (w : Workspace) (settings : Settings) : own.names w settings cat = .ok ∅ := by
  rw [names, h]

/-- What an object declares a category with: the value of a member under its option, or nothing. -/
def Node.DeclaresOption (object : Node) (owner : Scope) (cat : Category) : Option Declaration → Prop
  | some v => v.scope = owner ∧ ∃ m, object.findMember? cat.option = .ok (some m) ∧
      m.kind = .pair ∧ m.child? .value = some v.node
  | none => object.findMember? cat.option = .ok none

/-- The only site at which a component declares its categories. -/
inductive Site (w : Workspace) (settings : Settings) (c : Scope) (own : Declarations) : Prop
  /-- The options object of one defining call. -/
  | options {call argument object : Node} {owner : Scope}
      (hcall : c.root.callsOf settings.defineCallees = [call])
      (hargument : call.optionsArgument? = some argument)
      (hobject : (Search.optionsObject w c argument).evaluate settings.freshTrail =
        .ok (some (object, owner)))
      (hkeyword : ∀ cat : Category, c.root.callsOf [cat.keyword] = [])
      (hown : ∀ cat, object.DeclaresOption owner cat (own cat))
  /-- One call of a keyword for each category that is declared. -/
  | keywords (hcall : c.root.callsOf settings.defineCallees = [])
      (hown : ∀ cat : Category, (c.root.callsOf [cat.keyword] = [] ∧ own cat = none) ∨
        ∃ call v rest, c.root.callsOf [cat.keyword] = [call] ∧ call.callArguments = v :: rest ∧
          call.typeArguments = [] ∧ own cat = some ⟨v, c⟩)

/-- The options object of a defining call declares a category. -/
def Carried (settings : Settings) (c : Scope) (own : Declarations) (cat : Category) : Prop :=
  c.root.callsOf settings.defineCallees ≠ [] ∧ own cat ≠ none

/-! ## What else names can come from -/

namespace Node

/-- The values of the members of an array or an object. -/
def memberValues (n : Node) : List Node :=
  match n.unwrap.kind with
  | .array => n.unwrap.namedChildren
  | .object => n.unwrap.namedChildren.filterMap fun m =>
    if m.kind = .pair then m.child? .value else none
  | _ => []

/-- No functions, calls or accesses are in the values of the members of a node. -/
def Inert (n : Node) : Prop :=
  ∀ v ∈ n.memberValues, ∀ d ∈ v.descendants,
    d.isSetupFunction = false ∧ d.kind ≠ .callExpression ∧ d.isAccess = false

end Node

/-- A node is in no value of a member that a component declares. -/
def Declarations.Elsewhere (own : Declarations) (n : Node) : Prop :=
  ∀ cat, ∀ d ∈ own cat, ∀ v ∈ d.node.memberValues, n ∉ v.descendants

/-- The parameters of a function can be read, and no call in its body, outside the values of members,
exposes an object through them. -/
def Declarations.ExposesNothing (own : Declarations) (function : Node) : Prop :=
  ∃ words, Node.contextWords true function.parameterPatterns = .ok words ∧
    ∀ body ∈ function.child? .body, ∀ call ∈ body.findAll .callExpression, own.Elsewhere call →
      call.exposedObject? words = none

/-- No exported value has an instance type with a bag. -/
def Bagless (w : Workspace) (settings : Settings) (c : Scope) (bag : Text) : Prop :=
  (Search.firstFound (Search.bagType w c bag) c.root.exportedCandidates).evaluate
    settings.freshTrail = .ok none

/-- Outside the values of members nothing names a category that is not declared: no instance type, no
slot in use, no call that exposes. -/
def Quiet (w : Workspace) (settings : Settings) (c : Scope) (own : Declarations) : Category → Prop
  | .inputs => Bagless w settings c "$props"
  | .events => True
  | .slots => Bagless w settings c "$slots" ∧ Template.slotNames c.module.template = ∅ ∧
      ∀ n ∈ c.root.descendants, n.isAccess → own.Elsewhere n →
        n.readSlot? c.root.slotWords = .ok none
  | .exposed => ∀ n ∈ c.root.descendants, n.isSetupFunction → own.Elsewhere n → own.ExposesNothing n

/-- The names under a key in the first object literal that has it. -/
def Search.strayNames (w : Workspace) (scope : Scope) (key : Text) : Search MemberList := do
  match ← firstFound (findOption [key]) (scope.root.findAll .object) with
  | some member => optionNames w scope member
  | none => return ∅

/-- No object literal gives names to a category in place of its value: none does under the category's
option, unless a defining call's options declare it, and none under `expose` if there are no names
of exposed members otherwise. -/
structure Unstrayed (w : Workspace) (settings : Settings) (c : Scope) (own : Declarations)
    (cat : Category) : Prop where
  option : Carried settings c own cat ∨
    (Search.strayNames w c cat.option).evaluate settings.freshTrail = .ok ∅
  array : cat = .exposed → own.names w settings cat = .ok ∅ →
    (Search.exposedArrayNames w c).evaluate settings.freshTrail = .ok ∅

/-- A component that declares its categories at one site, with values that are inert. Names and
paths tell queries apart. -/
structure Sole (w : Workspace) (settings : Settings) (c : Scope) (own : Declarations) : Prop where
  site : Site w settings c own
  inert : ∀ cat, ∀ v ∈ own cat, v.node.Inert
  directory : Path.IsCanonical w.project.directory
  itself : ∀ s, w.load (Module.shownPath c.path) = .ok (some s) → s = c
  unspaced : ∀ s, (Region.project w directory c).scopes s → s.Unspaced

/-! ## Options -/

namespace Search

/-- The member under a key in the options of a defining call. -/
def definedOption (w : Workspace) (scope : Scope) (key : Text) (call : Node) :
    Search (Option (Node × Scope)) := do
  match call.optionsArgument? with
  | none => return none
  | some argument =>
    match ← optionsObject w scope argument with
    | none => return none
    | some (object, owner) => return (← findOption [key] object).map (·, owner)

variable {w : Workspace} {c : Scope} {key : Text}

theorem findOptionIn_eq (w : Workspace) (c : Scope) (key : Text) (callees : List Text) :
    findOptionIn w c [key] callees = (do
      match ← firstFound (definedOption w c key) (c.root.callsOf callees) with
      | some found => return some found
      | none => return (← firstFound (findOption [key]) (c.root.findAll .object)).map (·, c)) := rfl

theorem namesByOption_eq (w : Workspace) (c : Scope) (key : Text) (callees : List Text) :
    namesByOption w c [key] callees = (do
      match ← firstFound (definedOption w c key) (c.root.callsOf callees) with
      | some (member, owner) => optionNames w owner member
      | none => strayNames w c key) := by
  unfold namesByOption
  rw [findOptionIn_eq, bind_assoc]
  refine bind_congr fun r => ?_
  cases r with
  | some found => rfl
  | none =>
    simp only [bind_assoc, strayNames]
    refine bind_congr fun m => ?_
    cases m <;> rfl

theorem findOption_singleton (key : Text) (object : Node) :
    findOption [key] object = ofExcept (object.findMember? key) := by
  unfold findOption firstFound
  cases object.findMember? key with
  | error f => rfl
  | ok r => cases r <;> rfl

end Search

theorem strayNames_composed {w : Workspace} {c s : Scope} {L : Scope → Prop} {P : Failure → Prop}
    (hl : ∀ s, With c L s → s.root.Literals P) (hs : With c L s) {key : Text} :
    Composed w c L P (Search.strayNames w s key) fun _ => True := by
  refine .bind (anyOption_composed hl hs) fun r hr => ?_
  cases r with
  | none => exact .pure trivial
  | some m => exact optionNames_composed hl hs (hr m rfl)

section
variable {α β : Type} {w : Workspace} {settings : Settings} {c : Scope} {own : Declarations}
  {cat : Category}

/-- On every settled trail a search of a component has one result. -/
abbrev Sole.Yields (h : Sole w settings c own) (m : Search α) (e : Except Failure α) : Prop :=
  SurfaceCoverage.Yields w (fun q => (Region.project w h.directory c).Inside q ∧ q.Clear)
    settings.depthLimit m e

variable (h : Sole w settings c own)
include h

theorem Sole.evaluate_eq {m : Search α} {e : Except Failure α} (hm : h.Yields m e) :
    m.evaluate settings.freshTrail = e :=
  hm.result _ (settled_fresh w _ _)

theorem Sole.yields {m : Search α} {P : Failure → Prop} {Q : α → Prop}
    (hm : Composed w c w.IsModule P m Q) : h.Yields m (m.evaluate settings.freshTrail) :=
  (Composed.yields h.itself h.unspaced hm).1

/-- The options object of a defining call, and the scope that it stands in. -/
theorem Sole.located {call argument object : Node} {owner : Scope}
    (hcall : c.root.callsOf settings.defineCallees = [call])
    (hargument : call.optionsArgument? = some argument)
    (hobject : (Search.optionsObject w c argument).evaluate settings.freshTrail =
      .ok (some (object, owner))) :
    h.Yields (Search.optionsObject w c argument) (.ok (some (object, owner))) ∧
      With c w.IsModule owner ∧ object ∈ owner.root.descendants := by
  have hmem : call ∈ c.root.callsOf settings.defineCallees := by
    rw [hcall]
    exact List.mem_singleton_self call
  have hcomposed := optionsObject_composed (w := w) (L := w.IsModule) (P := fun _ => True) (.inl rfl)
    (Node.mem_descendants_trans (Node.optionsArgument?_mem_descendants hargument)
      (Node.mem_descendants_of_mem_callsOf hmem))
  obtain ⟨hyields, hlocated⟩ := Composed.yields h.itself h.unspaced hcomposed
  have hfresh : (Search.optionsObject w c argument).evaluate { limit := settings.depthLimit } =
    .ok (some (object, owner)) := hobject
  rw [hfresh] at hyields
  exact ⟨hyields, hlocated _ hfresh _ rfl⟩

/-- The options object of the only defining call has a member under a key or has none. -/
theorem Sole.definedOption_yields {call argument object : Node} {owner : Scope} {key : Text}
    {r : Option Node} (hcall : c.root.callsOf settings.defineCallees = [call])
    (hargument : call.optionsArgument? = some argument)
    (hobject : (Search.optionsObject w c argument).evaluate settings.freshTrail =
      .ok (some (object, owner))) (hmember : object.findMember? key = .ok r) :
    h.Yields (Search.firstFound (Search.definedOption w c key) (c.root.callsOf settings.defineCallees))
      (.ok (r.map (·, owner))) := by
  obtain ⟨hyields, -⟩ := h.located hcall hargument hobject
  have hdefined : h.Yields (Search.definedOption w c key call) (.ok (r.map (·, owner))) := by
    unfold Search.definedOption
    rw [hargument]
    apply yields_bind_ok hyields
    simp only [Search.findOption_singleton, hmember]
    exact yields_ofExcept (.ok _)
  rw [hcall]
  apply yields_bind_ok hdefined
  cases r with
  | none => exact yields_ofExcept (.ok none)
  | some m => exact yields_ofExcept (.ok (some (m, owner)))

/-- What the options of the defining call declare is found there. -/
theorem Sole.option_of_carried (hc : Carried settings c own cat) :
    (Search.namesByOption w c [cat.option] settings.defineCallees).evaluate settings.freshTrail =
      own.names w settings cat := by
  obtain ⟨hcalls, hdeclared⟩ := hc
  cases h.site with
  | keywords hcall _ => exact absurd hcall hcalls
  | @options call argument object owner hcall hargument hobject hkeyword hown =>
    obtain ⟨v, hv⟩ := Option.ne_none_iff_exists'.1 hdeclared
    have hdeclares := hown cat
    rw [hv] at hdeclares
    obtain ⟨rfl, m, hm, hk, hvalue⟩ := hdeclares
    obtain ⟨-, howner, hmem⟩ := h.located hcall hargument hobject
    have hvalues : Search.optionNames w v.scope m = Search.valueNames w v.scope v.node := by
      unfold Search.optionNames
      rw [hk, hvalue]
    have hnames := h.yields (optionNames_composed literals_of_true howner
      (Node.mem_descendants_trans (Node.findMember?_mem hm) hmem))
    apply h.evaluate_eq
    rw [Search.namesByOption_eq]
    apply yields_bind_ok (h.definedOption_yields hcall hargument hobject hm)
    rw [Declarations.names_of_some hv, ← hvalues]
    exact hnames

/-- What no options of a defining call declare is looked for in all object literals. -/
theorem Sole.option_of_not_carried (hc : ¬ Carried settings c own cat) :
    (Search.namesByOption w c [cat.option] settings.defineCallees).evaluate settings.freshTrail =
      (Search.strayNames w c cat.option).evaluate settings.freshTrail := by
  have hstray : h.Yields (Search.strayNames w c cat.option)
      ((Search.strayNames w c cat.option).evaluate settings.freshTrail) :=
    h.yields (strayNames_composed literals_of_true (.inl rfl))
  apply h.evaluate_eq
  rw [Search.namesByOption_eq]
  cases h.site with
  | keywords hcall _ =>
    rw [hcall]
    exact yields_bind_ok (yields_ofExcept (.ok none)) hstray
  | @options call argument object owner hcall hargument hobject hkeyword hown =>
    have hcalls : c.root.callsOf settings.defineCallees ≠ [] := by
      rw [hcall]
      simp
    have hnone : own cat = none := Classical.byContradiction fun hn => hc ⟨hcalls, hn⟩
    have hdeclares := hown cat
    rw [hnone] at hdeclares
    exact yields_bind_ok (h.definedOption_yields hcall hargument hobject hdeclares) hstray

/-! ## Calls -/

/-- A category that the options declare has no call. -/
theorem Sole.call_of_carried (hc : Carried settings c own cat) :
    (Search.namesByCall w c cat.keyword).evaluate settings.freshTrail = .ok ∅ := by
  cases h.site with
  | keywords hcall _ => exact absurd hcall hc.1
  | options _ _ _ hkeyword _ =>
    unfold Search.namesByCall
    rw [hkeyword cat]
    rfl

/-- Calls give the names of the other categories. -/
theorem Sole.call_of_not_carried (hc : ¬ Carried settings c own cat) :
    (Search.namesByCall w c cat.keyword).evaluate settings.freshTrail = own.names w settings cat := by
  have hempty (hno : c.root.callsOf [cat.keyword] = []) (hnone : own cat = none) :
      (Search.namesByCall w c cat.keyword).evaluate settings.freshTrail =
        own.names w settings cat := by
    unfold Search.namesByCall
    rw [hno, Declarations.names_of_none hnone]
    rfl
  cases h.site with
  | keywords _ hown =>
    obtain ⟨hno, hnone⟩ | ⟨call, v, rest, hone, harguments, htypes, hv⟩ := hown cat
    · exact hempty hno hnone
    · have hcall : Search.namesByCall w c cat.keyword = Search.valueNames w c v := by
        unfold Search.namesByCall
        rw [hone]
        simp only [harguments, htypes, ite_self, bind_pure]
      rw [Declarations.names_of_some hv, hcall]
  | options hcall _ _ hkeyword _ =>
    refine hempty (hkeyword cat) (Classical.byContradiction fun hn => hc ⟨?_, hn⟩)
    rw [hcall]
    simp

/-! ## Values are no declarations -/

/-- Functions, calls and accesses are in no value of a member. -/
theorem Sole.elsewhere {n : Node}
    (hn : n.isSetupFunction = true ∨ n.kind = .callExpression ∨ n.isAccess = true) :
    own.Elsewhere n := by
  intro cat d hd v hv hmem
  obtain ⟨hfunction, hcall, haccess⟩ := h.inert cat d hd v hv n hmem
  rcases hn with hn | hn | hn
  · exact Bool.false_ne_true (hfunction.symm.trans hn)
  · exact hcall hn
  · exact Bool.false_ne_true (haccess.symm.trans hn)

/-- Values have no instance type. -/
theorem Sole.instance_of_bagless {bag : Text} (hb : Bagless w settings c bag) (reserved : List Text) :
    (Search.namesByInstance w c bag reserved).evaluate settings.freshTrail = .ok ∅ := by
  have hfound : h.Yields (Search.firstFound (Search.bagType w c bag) c.root.exportedCandidates)
      (.ok none) := by
    rw [← hb]
    exact h.yields (.firstFound fun candidate hc =>
      bagType_composed literals_of_true (Node.exportedCandidates_mem_descendants hc))
  apply h.evaluate_eq
  exact yields_bind_ok hfound (yields_ofExcept (.ok ∅))

/-- Values read no slots. -/
theorem Sole.usage_of_quiet (hq : Quiet w settings c own .slots) :
    (Search.namesByUsage c).evaluate settings.freshTrail = .ok ∅ := by
  obtain ⟨-, htemplate, hreads⟩ := hq
  have hslots : c.root.readSlots = .ok [] := by
    have hnone : ∀ n ∈ c.root.descendants.filter Node.isAccess,
        n.readSlot? c.root.slotWords = .ok none := by
      intro n hn
      obtain ⟨hn, haccess⟩ := List.mem_filter.1 hn
      exact hreads n hn haccess (h.elsewhere (.inr (.inr haccess)))
    unfold Node.readSlots
    rw [mapM_ok_none hnone]
    simp [bind, Except.bind, pure, Except.pure]
  unfold Search.namesByUsage
  rw [hslots, htemplate]
  rfl

/-- Values call nothing that exposes. -/
theorem Sole.contextCallNames_of_quiet (hq : Quiet w settings c own .exposed) {functions : List Node}
    (hf : ∀ f ∈ functions, f ∈ c.root.descendants ∧ f.isSetupFunction = true) :
    Search.contextCallNames w c functions = pure [] := by
  induction functions with
  | nil => rfl
  | cons f functions ih =>
    obtain ⟨hmem, hsetup⟩ := hf f List.mem_cons_self
    obtain ⟨words, hwords, hcalls⟩ := hq f hmem hsetup (h.elsewhere (.inl hsetup))
    have hrest := ih fun g hg => hf g (List.mem_cons_of_mem _ hg)
    have hbody : ∀ body ∈ f.child? .body,
        (body.findAll .callExpression).filterMap (·.exposedObject? words) = [] := by
      intro body hbody
      refine List.filterMap_eq_nil_iff.2 fun call hcall => ?_
      exact hcalls body hbody call hcall
        (h.elsewhere (.inr (.inl (Node.mem_descendants_of_findAll hcall).2)))
    have hok : Search.ofExcept (.ok words) = (pure words : Search ContextWords) := rfl
    unfold Search.contextCallNames
    rw [hwords, hrest, hok]
    simp only [pure_bind]
    split
    · rfl
    · split
      · rfl
      · rename_i body hb
        rw [hbody body hb]
        rfl

/-- Values expose nothing, unless an array under `expose` does. -/
theorem Sole.expose_of_quiet (hq : Quiet w settings c own .exposed)
    (ha : (Search.exposedArrayNames w c).evaluate settings.freshTrail = .ok ∅) :
    (Search.namesByExpose w c).evaluate settings.freshTrail = .ok ∅ := by
  have harray : h.Yields (Search.exposedArrayNames w c) (.ok ∅) := by
    rw [← ha]
    exact h.yields (exposedArrayNames_composed literals_of_true (.inl rfl))
  apply h.evaluate_eq
  unfold Search.namesByExpose
  rw [h.contextCallNames_of_quiet hq fun f hf => List.mem_filter.1 hf]
  exact yields_bind_ok (yields_ofExcept (.ok [])) (yields_bind_ok harray (yields_ofExcept (.ok ∅)))

/-! ## The names of a category -/

/-- The names of what the options declare count first. -/
theorem Sole.extracted_of_carried (hc : Carried settings c own cat) :
    cat.extracted w settings c = firstNamed (own.names w settings cat ::
      (cat.heuristics settings).map fun s => (s.extract w c).evaluate settings.freshTrail) := by
  rw [Category.extracted_eq h.itself h.unspaced, Category.strategies_eq, List.map_cons, List.map_cons,
    ← h.option_of_carried hc]
  -- no call of a keyword stands beside the options
  have hcall : ((Strategy.call cat.keyword).extract w c).evaluate settings.freshTrail = .ok ∅ :=
    h.call_of_carried hc
  rw [hcall]
  rfl

/-- Where no options declare a category, names under its option in any object literal count before
those of its call. -/
theorem Sole.extracted_of_not_carried (hc : ¬ Carried settings c own cat) :
    cat.extracted w settings c = firstNamed
      ((Search.strayNames w c cat.option).evaluate settings.freshTrail :: own.names w settings cat ::
        (cat.heuristics settings).map fun s => (s.extract w c).evaluate settings.freshTrail) := by
  rw [Category.extracted_eq h.itself h.unspaced, Category.strategies_eq, List.map_cons, List.map_cons,
    ← h.option_of_not_carried hc, ← h.call_of_not_carried hc]
  rfl

/-- Further strategies find nothing in a quiet component. -/
theorem Sole.heuristics_of_quiet (hq : Quiet w settings c own cat)
    (ha : cat = .exposed → (Search.exposedArrayNames w c).evaluate settings.freshTrail = .ok ∅) :
    ∀ s ∈ cat.heuristics settings, (s.extract w c).evaluate settings.freshTrail = .ok ∅ := by
  intro s hs
  cases cat with
  | inputs =>
    cases List.mem_singleton.1 hs
    exact h.instance_of_bagless hq settings.reservedNames
  | events => cases hs
  | slots =>
    rcases List.mem_cons.1 hs with rfl | hs
    · exact h.instance_of_bagless hq.1 []
    · cases List.mem_singleton.1 hs
      exact h.usage_of_quiet hq
  | exposed =>
    cases List.mem_singleton.1 hs
    exact h.expose_of_quiet hq (ha rfl)

/-- A category has the names of its own value. -/
theorem Sole.extracted_eq_names (hs : Unstrayed w settings c own cat)
    (hq : own.names w settings cat = .ok ∅ → Quiet w settings c own cat) :
    cat.extracted w settings c = own.names w settings cat := by
  have hown : firstNamed (own.names w settings cat ::
      (cat.heuristics settings).map fun s => (s.extract w c).evaluate settings.freshTrail) =
        own.names w settings cat := by
    refine firstNamed_cons fun hempty e he => ?_
    obtain ⟨s, hmem, rfl⟩ := List.mem_map.1 he
    exact h.heuristics_of_quiet (hq hempty) (fun hcat => hs.array hcat hempty) s hmem
  by_cases hc : Carried settings c own cat
  · rw [h.extracted_of_carried hc, hown]
  · rw [h.extracted_of_not_carried hc, hs.option.resolve_left hc, firstNamed_empty_cons, hown]

end

/-! ## Object literals that do not count -/

theorem Search.firstFound_eq_none {α β : Type} {try_ : α → Search (Option β)} {as : List α}
    (h : ∀ a ∈ as, try_ a = pure none) : firstFound try_ as = pure none := by
  induction as with
  | nil => rfl
  | cons a as ih =>
    rw [firstFound, h a List.mem_cons_self, pure_bind]
    exact ih fun b hb => h b (List.mem_cons_of_mem _ hb)

section
variable {w : Workspace} {settings : Settings} {c : Scope} {own : Declarations} {cat : Category}

/-- A member counts only under the option of a category: where no object literal has one, none gives
names to the category. -/
theorem unstrayed_of_no_member
    (hno : ∀ o ∈ c.root.findAll .object, o.findMember? cat.option = .ok none) :
    Unstrayed w settings c own cat where
  option := by
    have hfound : Search.firstFound (Search.findOption [cat.option]) (c.root.findAll .object) =
        pure none := by
      refine Search.firstFound_eq_none fun o ho => ?_
      rw [Search.findOption_singleton, hno o ho]
      rfl
    right
    unfold Search.strayNames
    rw [hfound]
    rfl
  array := by
    rintro rfl -
    have hfound : Search.firstFound Search.exposedArray (c.root.findAll .object) = pure none := by
      refine Search.firstFound_eq_none fun o ho => ?_
      have hmember : o.findMember? exposeKey = .ok none := hno o ho
      unfold Search.exposedArray
      rw [hmember]
      rfl
    unfold Search.exposedArrayNames
    rw [hfound]
    rfl

/-- Where the options of a defining call declare a category, other literals give names to none but
the exposed members. -/
theorem unstrayed_of_carried (hc : Carried settings c own cat) (hcat : cat ≠ .exposed) :
    Unstrayed w settings c own cat :=
  ⟨.inl hc, fun h => absurd h hcat⟩

end

namespace Node

/-- The options object of the only defining call of a script, if it is a literal, its options are
pairs and no keyword is called. -/
def soleOptions? (callees : List Text) (root : Node) : Option Node :=
  match root.callsOf callees with
  | [call] => call.optionsArgument?.filter fun o => o.kind == .object && Category.all.all fun cat =>
    (root.callsOf [cat.keyword]).isEmpty && match o.findMember? cat.option with
      | .ok (some m) => m.kind == .pair && (m.child? .value).isSome
      | .ok none => true
      | .error _ => false
  | _ => none

/-- What an options object declares. -/
def declarations (object : Node) (owner : Scope) : Declarations := fun cat =>
  match object.findMember? cat.option with
  | .ok (some m) => (m.child? .value).map (⟨·, owner⟩)
  | _ => none

end Node

theorem site_of_soleOptions? {w : Workspace} {settings : Settings} {c : Scope} {object : Node}
    (h : c.root.soleOptions? settings.defineCallees = some object) :
    Site w settings c (object.declarations c) := by
  unfold Node.soleOptions? at h
  split at h
  · rename_i call hcall
    obtain ⟨hargument, hobject⟩ := Option.filter_eq_some_iff.1 h
    obtain ⟨hkind, hall⟩ := Bool.and_eq_true_iff.1 hobject
    have hcat (cat : Category) := Bool.and_eq_true_iff.1
      (List.all_eq_true.1 hall cat (by cases cat <;> decide))
    have hoptions : (Search.optionsObject w c object).evaluate settings.freshTrail =
        .ok (some (object, c)) := by
      unfold Search.optionsObject
      rw [eq_of_beq hkind]
      rfl
    refine .options hcall hargument hoptions (fun cat => List.isEmpty_iff.1 (hcat cat).1) fun cat => ?_
    have hmember := (hcat cat).2
    unfold Node.declarations
    split at hmember
    · rename_i m hm
      obtain ⟨hpair, hsome⟩ := Bool.and_eq_true_iff.1 hmember
      obtain ⟨v, hv⟩ := Option.isSome_iff_exists.1 hsome
      simp only [hm, hv, Option.map_some]
      exact ⟨rfl, m, hm, eq_of_beq hpair, hv⟩
    · rename_i hm
      simp only [hm]
      exact hm
    · cases hmember
  · cases h

end SurfaceCoverage
