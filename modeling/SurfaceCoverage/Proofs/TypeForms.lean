import SurfaceCoverage.Proofs.DispatchOrder
import SurfaceCoverage.Proofs.InnerDeclarations
import SurfaceCoverage.Proofs.Links
/-!
# Categories that are declared by a type

A type declares a category in four forms: as the type argument of a call of the category's keyword, as
that of a generic cast around an option, as a field of an exported class, and as a property of what an
exported value constructs. Each form is found by a strategy of its own, and the list is that of the
type's names (`TypeForm.Declares.extracted_eq`); the two forms that have an instance type leave out
names that are reserved.

Beside supporting declarations, a call, a class or a value changes nothing about what words for types
stand for. So the names of a type are the same in all four modules if they end
(`Scope.typeNames_eq_of_beside`), and they do if the words of the type lead to no cycle
(`Scope.typeNames_failsOnly`).
-/

namespace SurfaceCoverage

/-- The forms in which a type declares a category. -/
inductive TypeForm where
  /-- `defineSlots<T>()` -/
  | call
  /-- `defineComponent(\x7b slots: Object as W<T> \x7d)` -/
  | option
  /-- `class \x7b $slots: T \x7d` -/
  | field
  /-- `new () => \x7b $slots: T \x7d` -/
  | constructed

namespace Category

/-- The member of instance types that has the names of a category. -/
def bag? : Category → Option Text
  | inputs => some "$props"
  | slots => some "$slots"
  | _ => none

/-- The names of an instance type that are not those of a category. -/
def reserved (settings : Settings) : Category → List Text
  | inputs => settings.reservedNames
  | _ => []

end Category

/-! ## Lists without reserved names -/

namespace MemberList

variable {l : MemberList} {reserved ts : List Text}

/-- The list without some names. -/
def without (reserved : List Text) (l : MemberList) : MemberList :=
  ofList (l.toList.filter (!reserved.contains ·))

theorem toList_extend_of_nodup (hnodup : (l.toList ++ ts).Nodup) (hnil : [] ∉ ts) :
    (l.extend ts).toList = l.toList ++ ts := by
  induction ts generalizing l with
  | nil => rw [extend_nil, List.append_nil]
  | cons t ts ih =>
    have hadmits : l.admits t = true := by
      refine admits_iff.2 ⟨fun ht => hnil (ht ▸ List.mem_cons_self), fun hmem => ?_⟩
      exact (List.nodup_append.1 hnodup).2.2 t hmem t List.mem_cons_self rfl
    have hadd : (l.add t).toList = l.toList ++ [t] := by rw [toList_add, if_pos hadmits]
    rw [extend_cons, ih ?_ fun h => hnil (List.mem_cons_of_mem t h), hadd, List.append_assoc]
    · rfl
    · rwa [hadd, List.append_assoc]

@[simp] theorem toList_without :
    (l.without reserved).toList = l.toList.filter (!reserved.contains ·) := by
  refine toList_extend_of_nodup ?_ fun h => l.nil_notMem (List.mem_filter.1 h).1
  rw [toList_empty, List.nil_append]
  exact l.nodup.filter _

@[simp] theorem without_nil : l.without [] = l := by
  refine toList_inj.1 ?_
  rw [toList_without]
  exact List.filter_eq_self.2 fun _ _ => rfl

@[simp] theorem without_without : (l.without reserved).without reserved = l.without reserved := by
  refine toList_inj.1 ?_
  simp only [toList_without, List.filter_filter, Bool.and_self]

end MemberList

/-! ## Forms -/

namespace TypeForm

/-- What a form takes of the names of a type: forms with an instance type leave out reserved names. -/
def kept (settings : Settings) (cat : Category) : TypeForm → MemberList → MemberList
  | call | option => id
  | field | constructed => MemberList.without (cat.reserved settings)

variable (form : TypeForm) (settings : Settings) (cat : Category) (l : MemberList)

theorem without_kept :
    (form.kept settings cat l).without (cat.reserved settings) = l.without (cat.reserved settings) := by
  cases form with
  | call | option => rfl
  | field | constructed => exact MemberList.without_without

/-- No names of slots are reserved. -/
theorem kept_slots : form.kept settings .slots l = l := by
  cases form with
  | call | option => rfl
  | field | constructed => exact MemberList.without_nil

end TypeForm

/-- No defining call and no object literal has the option of a category. -/
structure Optionless (settings : Settings) (c : Scope) (cat : Category) : Prop where
  calls : c.root.callsOf settings.defineCallees = []
  literals : ∀ o ∈ c.root.findAll .object, o.findMember? cat.option = .ok none

/-- A module declares a category by a type in one form, and has nothing else for it: no other call of
the category's keyword, no other option, and no other exported class or value. -/
inductive TypeForm.Declares (settings : Settings) (c : Scope) (cat : Category) (T : Node) :
    TypeForm → Prop
  | call {call : Node} {rest : List Node} (options : Optionless settings c cat)
      (calls : c.root.callsOf [cat.keyword] = [call]) (arguments : call.callArguments = [])
      (types : call.typeArguments = T :: rest) (values : c.root.exportedCandidates = []) :
      Declares settings c cat T .call
  | option {call object m v cast target : Node} {rest : List Node}
      (defining : c.root.callsOf settings.defineCallees = [call])
      (argument : call.optionsArgument? = some object) (literal : object.kind = .object)
      (member : object.findMember? cat.option = .ok (some m)) (pair : m.kind = .pair)
      (value : m.child? .value = some v) (generic : v.genericCast? = some (cast, target))
      (plain : cast.unwrap.kind ≠ .array ∧ cast.unwrap.kind ≠ .object)
      (types : target.typeArguments = T :: rest) (calls : c.root.callsOf [cat.keyword] = [])
      (values : c.root.exportedCandidates = []) : Declares settings c cat T .option
  | field {candidate members : Node} {bag : Text} (options : Optionless settings c cat)
      (calls : c.root.callsOf [cat.keyword] = []) (values : c.root.exportedCandidates = [candidate])
      (isClass : candidate.isClass = true) (body : candidate.child? .body = some members)
      (kind : members.kind = .classBody) (hasBag : cat.bag? = some bag)
      (member : Node.annotatedMember? bag members.namedChildren = .ok (some T)) :
      Declares settings c cat T .field
  | constructed {candidate type members : Node} {bag : Text} (options : Optionless settings c cat)
      (calls : c.root.callsOf [cat.keyword] = []) (values : c.root.exportedCandidates = [candidate])
      (noClass : candidate.isClass = false) (annotated : candidate.annotatedType? = some type)
      (constructor : type.kind = .constructorType) (result : type.constructedType? = some members)
      (kind : members.kind = .objectType) (hasBag : cat.bag? = some bag)
      (member : Node.annotatedMember? bag members.namedChildren = .ok (some T)) :
      Declares settings c cat T .constructed

/-! ## Strategies that find nothing -/

namespace Search

variable {w : Workspace} {c : Scope} {settings : Settings} {cat : Category}

theorem namesByOption_of_optionless (h : Optionless settings c cat) :
    namesByOption w c [cat.option] settings.defineCallees = pure ∅ := by
  have hfound : firstFound (findOption [cat.option]) (c.root.findAll .object) = pure none := by
    refine firstFound_eq_none fun o ho => ?_
    rw [findOption_singleton, h.literals o ho]
    rfl
  rw [namesByOption_eq, h.calls]
  show strayNames w c cat.option = pure ∅
  unfold strayNames
  rw [hfound]
  rfl

theorem namesByCall_of_no_call {keyword : Text} (hcalls : c.root.callsOf [keyword] = []) :
    namesByCall w c keyword = pure ∅ := by
  unfold namesByCall
  rw [hcalls]

theorem namesByInstance_of_no_value {bag : Text} {reserved : List Text}
    (hvalues : c.root.exportedCandidates = []) : namesByInstance w c bag reserved = pure ∅ := by
  unfold namesByInstance
  rw [hvalues]
  rfl

/-! ## Strategies that find the type -/

variable {T : Node}

/-- The names of a call are those of its type argument. -/
theorem namesByCall_of_type {keyword : Text} {call : Node} {rest : List Node}
    (hcalls : c.root.callsOf [keyword] = [call]) (harguments : call.callArguments = [])
    (htypes : call.typeArguments = T :: rest) : namesByCall w c keyword = typeNames w c T := by
  unfold namesByCall
  rw [hcalls]
  simp only [harguments, htypes]
  rfl

/-- A generic cast around a word has the items of its type argument. -/
theorem valueItems_of_cast {v cast target : Node} {rest : List Node}
    (hgeneric : v.genericCast? = some (cast, target))
    (hplain : cast.unwrap.kind ≠ .array ∧ cast.unwrap.kind ≠ .object)
    (htypes : target.typeArguments = T :: rest) : v.valueItems = T.typeItems := by
  obtain ⟨-, -, hkind⟩ := Node.genericCast?_eq_some.1 hgeneric
  have hparts : target.typeParts = [T] := by
    unfold Node.typeParts
    simp only [hkind, htypes]
  unfold Node.valueItems
  simp only [hgeneric, hplain.1, hplain.2, or_self, if_false]
  rw [Node.typeItems_eq]
  simp only [hkind, hparts, List.flatMap_cons, List.flatMap_nil, List.append_nil]

/-- The names of an option are those of the type argument of its cast. -/
theorem namesByOption_of_cast {callees : List Text} {key : Text}
    {call object m v cast target : Node} {rest : List Node}
    (hcalls : c.root.callsOf callees = [call]) (hargument : call.optionsArgument? = some object)
    (hobject : object.kind = .object) (hmember : object.findMember? key = .ok (some m))
    (hpair : m.kind = .pair) (hvalue : m.child? .value = some v)
    (hgeneric : v.genericCast? = some (cast, target))
    (hplain : cast.unwrap.kind ≠ .array ∧ cast.unwrap.kind ≠ .object)
    (htypes : target.typeArguments = T :: rest) :
    namesByOption w c [key] callees = typeNames w c T := by
  have hdefined : definedOption w c key call = pure (some (m, c)) := by
    unfold definedOption optionsObject
    simp only [hargument, hobject, pure_bind, findOption_singleton, hmember]
    rfl
  have hfound : firstFound (definedOption w c key) [call] = pure (some (m, c)) := by
    rw [firstFound, hdefined, pure_bind]
  have hnames : optionNames w c m = typeNames w c T := by
    unfold optionNames valueNames typeNames
    simp only [hpair, hvalue, valueItems_of_cast hgeneric hplain htypes]
  rw [namesByOption_eq, hcalls, hfound, pure_bind]
  exact hnames

/-- A member of a class body or of an object type has its annotated type. -/
theorem memberType_of_member {name : Text} {depth : Nat} {opened : List Reference} {members : Node}
    (hkind : members.kind = .classBody ∨ members.kind = .objectType)
    (hmember : Node.annotatedMember? name members.namedChildren = .ok (some T)) :
    memberType w name depth opened members c = pure (some (T, c)) := by
  have hparts : members.intersectedTypes = [members] := by
    rw [Node.intersectedTypes, if_neg]
    rcases hkind with hk | hk <;> rw [hk] <;> decide
  have hword : members.kind ≠ .typeIdentifier := by
    rcases hkind with hk | hk <;> rw [hk] <;> decide
  unfold memberType
  rw [hparts, firstFound, if_neg hword, annotatedMember_eq, hmember]
  rfl

/-- The names of an instance type are those of the type of its bag, without reserved names. -/
theorem namesByInstance_of_bag {bag : Text} {reserved : List Text} {candidate : Node}
    (hvalues : c.root.exportedCandidates = [candidate])
    (hbag : bagType w c bag candidate = pure (some (T, c))) :
    namesByInstance w c bag reserved = (do return (← typeNames w c T).without reserved) := by
  unfold namesByInstance
  rw [hvalues, firstFound, hbag, pure_bind]
  rfl

theorem bagType_of_field {bag : Text} {candidate members : Node} (hclass : candidate.isClass = true)
    (hbody : candidate.child? .body = some members) (hkind : members.kind = .classBody)
    (hmember : Node.annotatedMember? bag members.namedChildren = .ok (some T)) :
    bagType w c bag candidate = pure (some (T, c)) := by
  unfold bagType
  simp only [hclass, if_true, hbody]
  exact memberType_of_member (.inl hkind) hmember

theorem bagType_of_constructed {bag : Text} {candidate type members : Node}
    (hclass : candidate.isClass = false) (htype : candidate.annotatedType? = some type)
    (hconstructor : type.kind = .constructorType) (hresult : type.constructedType? = some members)
    (hkind : members.kind = .objectType)
    (hmember : Node.annotatedMember? bag members.namedChildren = .ok (some T)) :
    bagType w c bag candidate = pure (some (T, c)) := by
  have hparenthesized : type.unparenthesizedType? = some type := by
    rw [Node.unparenthesizedType?, if_neg (by rw [hconstructor]; decide)]
  have hinstance (depth : Nat) : instanceType w depth [] type c = pure (some (members, c)) := by
    unfold instanceType
    simp only [hparenthesized, hconstructor, hresult]
    rfl
  unfold bagType
  simp only [hclass, Bool.false_eq_true, if_false, htype, hinstance, pure_bind]
  exact memberType_of_member (.inr hkind) hmember

end Search

/-! ## The list of a form -/

namespace Registry

variable {α : Type} {extract : α → Search MemberList} {a : α} {as : List α}

/-- Strategies that find nothing leave the trail as it is. -/
theorem comesBackEmpty_of_pure (h : ∀ a ∈ as, extract a = pure ∅) (s : SearchState) :
    ComesBackEmpty extract as s s := by
  induction as with
  | nil => exact .nil s
  | cons a as ih =>
    refine .cons ?_ (ih fun b hb => h b (List.mem_cons_of_mem _ hb))
    rw [h a List.mem_cons_self]
    rfl

theorem firstNames_of_pure (h : ∀ a ∈ as, extract a = pure ∅) (s : SearchState) :
    firstNames extract as s = .ok (∅, s) := by
  have hnone := (comesBackEmpty_of_pure h s).firstNames []
  rwa [List.append_nil] at hnone

/-- One strategy counts if those before it find nothing, and those behind it find nothing whenever it
finds no names. -/
theorem evaluate_firstNames {trail : Trail} (before after : List α)
    (hbefore : ∀ b ∈ before, extract b = pure ∅)
    (hafter : (extract a).evaluate trail = .ok ∅ → ∀ b ∈ after, extract b = pure ∅) :
    (firstNames extract (before ++ a :: after)).evaluate trail = (extract a).evaluate trail := by
  unfold Search.evaluate at hafter ⊢
  rw [(comesBackEmpty_of_pure hbefore _).firstNames, firstNames_cons]
  rcases ha : extract a { trail } with f | ⟨names, t⟩
  · rfl
  · rw [ha] at hafter
    by_cases hnames : names.isEmpty
    · cases MemberList.eq_empty_of_isEmpty hnames
      simp only [hnames, if_true, firstNames_of_pure (hafter rfl)]
    · simp only [hnames, if_false, Bool.false_eq_true]

end Registry

theorem Search.evaluate_map {α β : Type} (m : Search α) (f : α → β) (trail : Trail) :
    (do return f (← m) : Search β).evaluate trail = (m.evaluate trail).map f := by
  show ((m >>= fun a => pure (f a)) { trail }).map _ = ((m { trail }).map _).map f
  rw [bind_run]
  cases m { trail } <;> rfl

/-- The names of a type in a scope, on a trail of their own. -/
def Scope.typeNames (c : Scope) (w : Workspace) (settings : Settings) (T : Node) :
    Except Failure MemberList :=
  (Search.typeNames w c T).evaluate settings.freshTrail

/-- A template renders no slots, and its script reads none. -/
structure Scope.Slotless (c : Scope) : Prop where
  template : Template.slotNames c.module.template = ∅
  script : c.root.readSlots = .ok []

theorem Scope.Slotless.usage {c : Scope} (h : c.Slotless) : Search.namesByUsage c = pure ∅ := by
  unfold Search.namesByUsage
  rw [h.template, h.script]
  rfl

/-- Behind an instance type only slots have a further strategy, which finds those in use. -/
theorem Category.strategies_of_bag {cat : Category} {bag : Text} (h : cat.bag? = some bag)
    (settings : Settings) : ∃ rest, cat.strategies settings =
      [.options [cat.option] settings.defineCallees, .call cat.keyword,
        .bag bag (cat.reserved settings)] ++ rest ∧ ∀ s ∈ rest, cat = .slots ∧ s = .usage := by
  cases cat with
  | inputs =>
    cases h
    exact ⟨[], rfl, fun s hs => by cases hs⟩
  | slots =>
    cases h
    exact ⟨[.usage], rfl, fun s hs => ⟨rfl, List.mem_singleton.1 hs⟩⟩
  | events => cases h
  | exposed => cases h

section
variable {w : Workspace} {c : Scope} {settings : Settings} {cat : Category} {T : Node} {form : TypeForm}

/-- Instance types are looked at if a category has no option and no call. -/
theorem evaluate_instances {bag : Text} {rest : List Strategy} {f : MemberList → MemberList}
    (hoptions : Optionless settings c cat) (hcalls : c.root.callsOf [cat.keyword] = [])
    (hbag : Search.namesByInstance w c bag (cat.reserved settings) =
      (do return f (← Search.typeNames w c T)))
    (hrest : (c.typeNames w settings T).map f = .ok ∅ → ∀ s ∈ rest, s.extract w c = pure ∅) :
    (Registry.firstNames (Strategy.extract w c) ([.options [cat.option] settings.defineCallees,
      .call cat.keyword, .bag bag (cat.reserved settings)] ++ rest)).evaluate settings.freshTrail =
        (c.typeNames w settings T).map f := by
  have hnames : ((Strategy.bag bag (cat.reserved settings)).extract w c).evaluate settings.freshTrail =
      (c.typeNames w settings T).map f := by
    rw [Strategy.extract, hbag]
    exact Search.evaluate_map _ f _
  refine (Registry.evaluate_firstNames [.options [cat.option] settings.defineCallees,
    .call cat.keyword] rest ?_ ?_).trans hnames
  · exact List.forall_mem_cons.2 ⟨Search.namesByOption_of_optionless hoptions,
      List.forall_mem_singleton.2 (Search.namesByCall_of_no_call hcalls)⟩
  · rw [hnames]
    exact hrest

/-- The list of a category that is declared by a type is that of the type's names, if no slots are in
use in case there are none. -/
theorem TypeForm.Declares.extracted_eq {bag : Text} (h : form.Declares settings c cat T)
    (hbag : cat.bag? = some bag)
    (hslots : cat = .slots → c.typeNames w settings T = .ok ∅ → c.Slotless) :
    cat.extracted w settings c = (c.typeNames w settings T).map (form.kept settings cat) := by
  obtain ⟨rest, hstrategies, hrest⟩ := Category.strategies_of_bag hbag settings
  -- with no names, slots in use count
  have husage : (c.typeNames w settings T).map (form.kept settings cat) = .ok ∅ →
      ∀ s ∈ rest, s.extract w c = pure ∅ := by
    intro hempty s hs
    obtain ⟨rfl, rfl⟩ := hrest s hs
    refine (hslots rfl ?_).usage
    rcases hnames : c.typeNames w settings T with f | l <;> rw [hnames] at hempty
    · cases hempty
    · rw [← form.kept_slots settings l]
      exact hempty
  have hid : (c.typeNames w settings T).map id = c.typeNames w settings T := by
    cases c.typeNames w settings T <;> rfl
  unfold Category.extracted Strategy.extractFirst Strategy.firstNames
  rw [Category.dispatched_strategies, hstrategies]
  -- the strategy of the form, between those that find nothing
  let options : Strategy := .options [cat.option] settings.defineCallees
  let keyword : Strategy := .call cat.keyword
  let instances : Strategy := .bag bag (cat.reserved settings)
  cases h with
  | call hoptions calls arguments types values =>
    have hnames : keyword.extract w c = Search.typeNames w c T :=
      Search.namesByCall_of_type calls arguments types
    refine (Registry.evaluate_firstNames [options] (instances :: rest) ?_ ?_).trans ?_
    · exact List.forall_mem_singleton.2 (Search.namesByOption_of_optionless hoptions)
    · intro hempty
      rw [hnames] at hempty
      exact List.forall_mem_cons.2
        ⟨Search.namesByInstance_of_no_value values, husage (hid.trans hempty)⟩
    · rw [hnames]
      exact hid.symm
  | option defining argument literal member pair value generic plain types calls values =>
    have hnames : options.extract w c = Search.typeNames w c T :=
      Search.namesByOption_of_cast defining argument literal member pair value generic plain types
    refine (Registry.evaluate_firstNames [] (keyword :: instances :: rest) ?_ ?_).trans ?_
    · exact fun _ hs => absurd hs List.not_mem_nil
    · intro hempty
      rw [hnames] at hempty
      exact List.forall_mem_cons.2 ⟨Search.namesByCall_of_no_call calls, List.forall_mem_cons.2
        ⟨Search.namesByInstance_of_no_value values, husage (hid.trans hempty)⟩⟩
    · rw [hnames]
      exact hid.symm
  | field hoptions calls values isClass body kind hasBag member =>
    cases hbag.symm.trans hasBag
    exact evaluate_instances hoptions calls
      (Search.namesByInstance_of_bag values (Search.bagType_of_field isClass body kind member)) husage
  | constructed hoptions calls values noClass annotated constructor result kind hasBag member =>
    cases hbag.symm.trans hasBag
    exact evaluate_instances hoptions calls (Search.namesByInstance_of_bag values
      (Search.bagType_of_constructed noClass annotated constructor result kind member)) husage

/-- The type stands in the module. -/
theorem TypeForm.Declares.mem_descendants (h : form.Declares settings c cat T) :
    T ∈ c.root.descendants := by
  -- a type of a member, below the members and below the exported value
  have below {candidate members : Node} {bag : Text} (hvalues : c.root.exportedCandidates = [candidate])
      (hmember : Node.annotatedMember? bag members.namedChildren = .ok (some T))
      (hmembers : members ∈ candidate.descendants) : T ∈ c.root.descendants := by
    have hspec : ∀ t, Node.annotatedMember? bag members.namedChildren = .ok (some t) →
        ∃ m ∈ members.namedChildren, t ∈ m.descendants :=
      (Node.annotatedMember?_spec (P := fun _ => True) bag fun _ _ _ _ _ _ => trivial).2
    obtain ⟨m, hm, hT⟩ := hspec T hmember
    have hcandidate : candidate ∈ c.root.descendants :=
      Node.exportedCandidates_mem_descendants (hvalues ▸ List.mem_singleton_self candidate)
    exact Node.mem_descendants_trans hT (Node.mem_descendants_trans
      (Node.mem_descendants_of_mem_namedChildren hm) (Node.mem_descendants_trans hmembers hcandidate))
  have called {callees : List Text} {call : Node} (h : c.root.callsOf callees = [call]) :
      call ∈ c.root.descendants :=
    Node.mem_descendants_of_mem_callsOf (h ▸ List.mem_singleton_self call)
  cases h with
  | call _ calls _ types _ =>
    have hT : T ∈ Node.typeArguments _ := types ▸ List.mem_cons_self
    exact Node.mem_descendants_trans (Node.mem_descendants_of_mem_typeArguments hT) (called calls)
  | option defining argument _ member _ value generic _ types _ _ =>
    have hT : T ∈ Node.typeArguments _ := types ▸ List.mem_cons_self
    have hvalue := Node.mem_descendants_trans (Node.mem_descendants_of_child? value)
      (Node.findMember?_mem member)
    have hcast := Node.mem_descendants_trans (Node.mem_descendants_of_mem_typeArguments hT)
      (Node.genericCast?_mem_descendants generic).2
    exact Node.mem_descendants_trans hcast (Node.mem_descendants_trans hvalue
      (Node.mem_descendants_trans (Node.optionsArgument?_mem_descendants argument) (called defining)))
  | field _ _ values _ body _ _ member =>
    exact below values member (Node.mem_descendants_of_child? body)
  | constructed _ _ values _ annotated _ result _ _ member =>
    exact below values member (Node.mem_descendants_trans
      (Node.constructedType?_mem_descendants result) (Node.annotatedType?_mem_descendants annotated))

end

/-! ## Beside supporting declarations -/

/-- A statement that declares and imports no type. If it exports something, that is a declaration or
the default. -/
structure Node.Typeless (statement : Node) : Prop where
  types : ∀ d ∈ statement.descendants, d.isTypeDeclaration = false
  imports : statement.kind ≠ .importStatement
  exports : statement.kind = .exportStatement →
    Node.stringValue? (statement.child? .source) = .ok none ∧
      (statement.child? .declaration ≠ none ∨ statement.isDefaultExport = true)

/-- A module with such statements put beside what it declares. -/
structure Scope.Beside (base c : Scope) : Prop where
  path : c.path = base.path
  root : base.root.Grafts Node.Typeless c.root
  imports : Imports.ofRoot base.root = .ok base.imports
  imports' : Imports.ofRoot c.root = .ok c.imports

/-- A project with such statements put into its modules. The same files exist. -/
structure Workspace.Beside (w₀ w : Workspace) : Prop where
  extensions : w.extensions = w₀.extensions
  directory : w.project.directory = w₀.project.directory
  isFile : ∀ path, w.project.isFile path = w₀.project.isFile path
  load : ∀ path, Agree (Option.Rel Scope.Beside) (w₀.load path) (w.load path)

theorem Node.Typeless.exported_eq {statement : Node} (h : statement.Typeless)
    (hk : statement.kind = .exportStatement) (name : Text) :
    Scope.exported .type name statement = [] := by
  obtain ⟨hsource, hexports⟩ := h.exports hk
  unfold Scope.exported
  simp only [hsource]
  unfold Scope.statementCandidates
  rcases hd : statement.child? .declaration with _ | d
  · simp [hexports.resolve_left fun hne => hne hd]
  · have hdeclares : d.declaresType name = false := by
      rw [declaresType, h.types d (mem_descendants_of_child? hd), Bool.false_and]
    simp [Scope.declarationCandidates, hdeclares]

/-- Where only types are asked for, they are answered alike beside such statements. -/
theorem Workspace.Beside.alike {w₀ w : Workspace} {asked : Query → Prop} (h : w₀.Beside w)
    (hasked : ∀ q, asked q → Search.meaningOf q = .type) :
    w₀.Alike Scope.Beside (fun _ => Node.Typeless) asked w where
  path _ _ hs := hs.path
  resolve _ _ hs := Workspace.resolve_congr h.extensions h.directory h.isFile hs.path
  load := h.load
  words s s' hs meaning word ha := by
    refine Scope.forall₂_localCandidates ?_ ?_ ?_
    · refine Imports.get?_eq_of_grafts hs.root hs.imports hs.imports' fun st h bound hb i hi => ?_
      rw [Imports.ofStatement, if_pos h.imports] at hb
      cases hb
      cases hi
    · rintro rfl
      cases hasked _ ha
    · rintro rfl
      refine hs.root.rel_localType? fun st h d hd => ?_
      rw [Node.declaresType, h.types d hd, Bool.false_and]
  exports path s s' _ hs meaning name ha := by
    cases hasked _ ha
    exact Scope.forall₂_exportCandidates hs.root fun st h hk => h.exported_eq hk name

theorem Workspace.Beside.refl (w : Workspace) : w.Beside w where
  extensions := rfl
  directory := rfl
  isFile _ := rfl
  load path := by
    rcases w.load_cases path with he | ⟨source, m, -, -, he⟩ <;> rw [he]
    · exact .ok .none
    · cases himports : Imports.ofRoot m.root with
      | error f => exact .error f
      | ok imports => exact .ok (.some ⟨rfl, .same _, himports, himports⟩)

/-- The words of a type, in a scope. -/
inductive TypeWords (base : Scope) (T : Node) : Query → Prop
  | word {meaning : Meaning} {word : Text} (item : .reference meaning word ∈ T.typeItems) :
      TypeWords base T (.word base meaning word)

namespace Node

variable {meaning : Meaning} {word : Text}

theorem reference_notMem_literalTypeItems (n : Node) : .reference meaning word ∉ n.literalTypeItems := by
  fun_induction literalTypeItems n with
  | case1 => simp
  | case2 n _ ih | case3 n _ ih =>
    intro h
    obtain ⟨⟨c, hc⟩, -, hi⟩ := List.mem_flatMap.1 h
    exact ih c hc hi
  | case4 => exact List.not_mem_nil

theorem reference_notMem_typeMemberItems (n : Node) : .reference meaning word ∉ n.typeMemberItems := by
  unfold typeMemberItems
  split
  · unfold signatureItems
    split
    · exact reference_notMem_literalTypeItems _
    · exact List.not_mem_nil
  · simp
  · simp
  · exact List.not_mem_nil

/-- Types refer to types. -/
theorem meaning_of_mem_typeItems {T : Node} (h : .reference meaning word ∈ T.typeItems) :
    meaning = .type := by
  have members {n : Node} : .reference meaning word ∉ n.namedChildren.flatMap typeMemberItems := by
    intro h
    obtain ⟨c, -, hi⟩ := List.mem_flatMap.1 h
    exact reference_notMem_typeMemberItems c hi
  fun_induction typeItems T with
  | case1 n _ => exact absurd h members
  | case2 n _ => exact absurd h members
  | case3 n _ =>
    cases List.mem_singleton.1 h
    rfl
  | case4 n _ _ _ ih =>
    obtain ⟨⟨c, hc⟩, -, hi⟩ := List.mem_flatMap.1 h
    exact ih c hc hi

end Node

theorem meaningOf_reaches {w : Workspace} {base : Scope} {T : Node} {q : Query}
    (h : w.Reaches (TypeWords base T) q) : Search.meaningOf q = .type := by
  induction h with
  | start first =>
    cases first with
    | word item => exact Node.meaning_of_mem_typeItems item
  | onward _ move ih => exact (leads_of_onward move).meaningOf_eq.trans ih
  | @refers q d meaning word _ _ item ih =>
    rw [ih] at item
    exact Node.meaning_of_mem_typeItems item

/-! ## The names of a type -/

section
variable {w₀ w w' : Workspace} {base c c' : Scope} {settings : Settings} {T : Node}

/-- The names of a type in a scope, with words followed to a depth. -/
def Scope.typeNamesTo (c : Scope) (w : Workspace) (settings : Settings) (depth : Nat) (T : Node) :
    Except Failure MemberList :=
  (do return MemberList.ofList (← Search.itemNames (Search.expandTo w depth [] c) T.typeItems) :
    Search MemberList).evaluate settings.freshTrail

/-- Beside supporting declarations a type has the names that it has among them, if it is given as
much depth or if these end. -/
theorem Scope.Beside.typeNames_repeat (slack : Prop) (settings : Settings) (T : Node)
    (hw : w₀.Beside w) (hc : base.Beside c) {depth : Nat}
    (hd : Search.depthBound w c = depth ∨ slack ∧ depth ≤ Search.depthBound w c) :
    (slack ∧ base.typeNamesTo w₀ settings depth T = .error .endless) ∨
      base.typeNamesTo w₀ settings depth T = c.typeNames w settings T := by
  have halike : w₀.Alike Scope.Beside (fun _ => Node.Typeless) (w₀.Reaches (TypeWords base T)) w :=
    hw.alike fun q hq => meaningOf_reaches hq
  have hitems : List.Forall₂ (Item.Alike fun _ => False) T.typeItems T.typeItems :=
    List.forall₂_same.2 fun item _ => .same item
  have hlists : Search.Repeats slack Eq
      (do return MemberList.ofList (← Search.itemNames (Search.expandTo w₀ depth [] base) T.typeItems))
      (Search.typeNames w c T) :=
    (itemNames_repeats halike hc hitems (fun meaning word hi => .start (.word hi)) hd []).bind
      fun _ _ hab => .pure (congrArg MemberList.ofList hab)
  exact (hlists.evaluate _).imp_right Agree.eq

/-- Beside the same supporting declarations a type has the same names, if both lists end. -/
theorem Scope.typeNames_eq_of_beside (hw : w₀.Beside w) (hc : base.Beside c) (hw' : w₀.Beside w')
    (hc' : base.Beside c') (h : c.typeNames w settings T ≠ .error .endless)
    (h' : c'.typeNames w' settings T ≠ .error .endless) :
    c.typeNames w settings T = c'.typeNames w' settings T := by
  have le {w w' : Workspace} {c c' : Scope} (hw : w₀.Beside w) (hc : base.Beside c)
      (hw' : w₀.Beside w') (hc' : base.Beside c') (h : c.typeNames w settings T ≠ .error .endless)
      (hle : Search.depthBound w c ≤ Search.depthBound w' c') :
      c.typeNames w settings T = c'.typeNames w' settings T := by
    have hsame := (hc.typeNames_repeat False settings T hw (.inl rfl)).resolve_left And.left
    rcases hc'.typeNames_repeat True settings T hw' (.inr ⟨trivial, hle⟩) with ⟨-, he⟩ | he
    · exact absurd (hsame.symm.trans he) h
    · exact hsame.symm.trans he
  rcases Nat.le_total (Search.depthBound w c) (Search.depthBound w' c') with hle | hle
  · exact le hw hc hw' hc' h hle
  · exact (le hw' hc' hw hc h' hle).symm

/-- The words of a type lead to no cycle of references. -/
def Node.TypeAcyclic (T : Node) (w : Workspace) (c : Scope) : Prop :=
  ∀ m, Declaration.Asks ⟨T, c⟩ .type m → ¬ w.references.LeadsToCycle m

/-- A type has no cycle where nothing is imported if what its words stand for refers to nothing. -/
theorem Node.typeAcyclic_of_flat (himports : c.imports = []) (h : ∀ meaning word,
    .reference meaning word ∈ T.typeItems → ∀ d, c.root.localType? word = some d →
      ∀ m x, .reference m x ∉ d.typeItems) : T.TypeAcyclic w c := by
  rintro ⟨_, meaning, word⟩ ⟨rfl, hi⟩ hcycle
  cases Node.meaning_of_mem_typeItems hi
  obtain ⟨m', ⟨d, ⟨qs, hr⟩, hasks⟩, -⟩ := hcycle.refers
  cases hr with
  | here hd =>
    cases hd with
    | localType hn => exact h _ _ hi _ hn _ _ hasks.2
  | onward hl _ =>
    cases hl with
    | imported _ hi' _ _ =>
      have hmem := Scope.mem_imports_of_get? hi'
      rw [himports] at hmem
      cases hmem

/-- The names of a type whose words lead to no cycle fail only as literals and lookups do. -/
theorem Scope.typeNames_failsOnly {P : Failure → Prop} {hw : Path.IsCanonical w.project.directory}
    (h : (Region.project w hw c).FaultsOnly P) (hT : T ∈ c.root.descendants)
    (hacyc : T.TypeAcyclic w c) : FailsOnly P (c.typeNames w settings T) := by
  have hreads : ∀ item ∈ T.typeItems, item.Reads P := fun item hi =>
    Item.From.reads ((Node.typeItems_from T item hi).trans hT) (h.literals c (.inl rfl))
  have hpasses : Passes P (fun _ => True) (Search.typeNames w c T) := by
    unfold Search.typeNames
    rw [Search.namesOf_eq]
    refine (Inquiry.run_passes (Item.inquiries_keeps hreads) fun m hm => ?_).bind fun ts _ =>
      passes_ofExcept (failsOnly_ok _) fun _ _ => trivial
    exact nested_passes h (Expansion.names_keeps h.literals) (hacyc m hm) .start
      (fun _ hp => absurd hp List.not_mem_nil) (.inl hm.1) rfl (Nat.zero_add _)
  exact failsOnly_map (hpasses _).1

end

/-! ## All forms -/

/-- A module that declares a category by a type in one form, beside supporting declarations. The words
of the type lead to no cycle. If it has no names, the module uses no slots. -/
structure TypeForm.DeclaresBeside (form : TypeForm) (settings : Settings) (cat : Category) (T : Node)
    (w₀ : Workspace) (base : Scope) (w : Workspace) (c : Scope) : Prop where
  directory : Path.IsCanonical w.project.directory
  project : w₀.Beside w
  supporting : base.Beside c
  declares : form.Declares settings c cat T
  acyclic : T.TypeAcyclic w c
  slotless : cat = .slots → c.typeNames w settings T = .ok ∅ → c.Slotless

/-- Whatever the form in which a type declares slots or inputs, the list is that of the type's names;
from an instance type, without those that are reserved. The names of the type are the same in all
modules with the same supporting declarations. So all forms give the same slots, and an instance type
gives the inputs of the other forms without reserved names. The list fails only as the literals and the
lookups of the project do. -/
theorem type_forms_agree {settings : Settings} {cat : Category} {bag : Text}
    (hbag : cat.bag? = some bag) {T : Node} {w₀ w w' : Workspace} {base c c' : Scope}
    {form form' : TypeForm} (h : form.DeclaresBeside settings cat T w₀ base w c)
    (h' : form'.DeclaresBeside settings cat T w₀ base w' c') :
    cat.extracted w settings c = (c.typeNames w settings T).map (form.kept settings cat) ∧
    c.typeNames w settings T = c'.typeNames w' settings T ∧
    (cat = .slots → cat.extracted w settings c = c.typeNames w settings T ∧
      cat.extracted w' settings c' = c.typeNames w settings T) ∧
    (form' = .field ∨ form' = .constructed →
      (cat.extracted w settings c).map (·.without (cat.reserved settings)) =
        cat.extracted w' settings c') ∧
    ∀ P, (Region.project w h.directory c).FaultsOnly P → FailsOnly P (cat.extracted w settings c) := by
  have hlist := h.declares.extracted_eq hbag h.slotless
  have hlist' := h'.declares.extracted_eq hbag h'.slotless
  have ends {form : TypeForm} {w : Workspace} {c : Scope}
      (h : form.DeclaresBeside settings cat T w₀ base w c) :
      c.typeNames w settings T ≠ .error .endless := fun he =>
    Scope.typeNames_failsOnly (Region.project w h.directory c).faultsOnly_ne_endless
      h.declares.mem_descendants h.acyclic _ he rfl
  have hnames : c.typeNames w settings T = c'.typeNames w' settings T :=
    Scope.typeNames_eq_of_beside h.project h.supporting h'.project h'.supporting (ends h) (ends h')
  have hslots (form : TypeForm) (e : Except Failure MemberList) :
      e.map (form.kept settings .slots) = e := by
    cases e with
    | error f => rfl
    | ok l => exact congrArg Except.ok (form.kept_slots settings l)
  have hwithout (form : TypeForm) (e : Except Failure MemberList) :
      (e.map (form.kept settings cat)).map (·.without (cat.reserved settings)) =
        e.map (·.without (cat.reserved settings)) := by
    cases e with
    | error f => rfl
    | ok l => exact congrArg Except.ok (form.without_kept settings cat l)
  refine ⟨hlist, hnames, ?_, fun hform => ?_, fun P hfaults => ?_⟩
  · rintro rfl
    rw [hlist, hlist', hnames, hslots, hslots]
    exact ⟨rfl, rfl⟩
  · rw [hlist, hlist', hnames, hwithout]
    rcases hform with rfl | rfl <;> rfl
  · rw [hlist]
    exact failsOnly_map (Scope.typeNames_failsOnly hfaults h.declares.mem_descendants h.acyclic)

/-! ### An intersection with an interface -/

/-- The interface alone. -/
def supportingTypes : Scope := scriptScope "interface B \x7b b: number \x7d\n"

def slotsByCall : Scope := scriptScope
  "interface B \x7b b: number \x7d\ndefineSlots<\x7b a: number \x7d & B>()\n"

def slotsByField : Scope := scriptScope
  "interface B \x7b b: number \x7d\nexport default class \x7b $slots: \x7b a: number \x7d & B \x7d\n"

/-- The type that both scripts have. -/
def slotsType : Node :=
  ((slotsByCall.root.callsOf ["defineSlots"]).flatMap Node.typeArguments).headD default

theorem slotsType_forms :
    (∀ s ∈ [supportingTypes, slotsByCall, slotsByField], (Imports.ofRoot s.root).toOption = some []) ∧
    (∀ s ∈ [slotsByCall, slotsByField],
      s.root.callsOf ({} : Settings).defineCallees = [] ∧ s.root.findAll .object = []) ∧
    (∃ call ∈ slotsByCall.root.callsOf ["defineSlots"],
      slotsByCall.root.callsOf ["defineSlots"] = [call] ∧ call.callArguments = [] ∧
        call.typeArguments = [slotsType] ∧ slotsByCall.root.exportedCandidates = []) ∧
    ∃ candidate ∈ slotsByField.root.exportedCandidates,
      slotsByField.root.callsOf ["defineSlots"] = [] ∧
        slotsByField.root.exportedCandidates = [candidate] ∧ candidate.isClass = true ∧
          ∃ members ∈ (candidate.child? .body).toList, members.kind = .classBody ∧
            (Node.annotatedMember? "$slots" members.namedChildren).toOption = some (some slotsType) := by
  decide +kernel

/-- The interface is all that is referred to, and nothing else is a type, an import or a list of
exports. -/
theorem slotsType_supported : ∀ s ∈ [slotsByCall, slotsByField],
    (slotsType.typeItems.all fun item => match item with
      | .reference _ word => (s.root.localType? word).all fun d => d.typeItems.all fun item =>
          match item with
          | .reference _ _ => false
          | _ => true
      | _ => true) = true ∧
    Node.graftsBy (fun n => n.descendants.all (!·.isTypeDeclaration) && n.kind != .importStatement &&
      (n.kind != .exportStatement || ((Node.stringValue? (n.child? .source)).toOption == some none &&
        ((n.child? .declaration).isSome || n.isDefaultExport)))) supportingTypes.root s.root = true ∧
    (s.typeNames spreadWorkspace {} slotsType).toOption.map MemberList.toList =
      some [Text.ofString "a", Text.ofString "b"] := by
  decide +kernel

/-- The scripts have the interface, and nothing with a name of its own beside it. -/
theorem slotsType_beside {s : Scope} (hs : s ∈ [slotsByCall, slotsByField])
    (hpath : s.path = supportingTypes.path) (himports : s.imports = []) :
    supportingTypes.Beside s where
  path := hpath
  root := by
    refine Node.grafts_of_graftsBy (fun n hn => ?_) (slotsType_supported s hs).2.1
    simp only [Bool.and_eq_true, Bool.or_eq_true, List.all_eq_true, Bool.not_eq_true', bne_iff_ne,
      beq_iff_eq, Option.isSome_iff_ne_none] at hn
    obtain ⟨⟨htypes, himport⟩, hexport⟩ := hn
    refine ⟨htypes, himport, fun hk => ?_⟩
    obtain ⟨hsource, hdeclared⟩ := hexport.resolve_left fun hne => hne hk
    exact ⟨ok_of_toOption hsource, hdeclared⟩
  imports := ok_of_toOption (slotsType_forms.1 _ List.mem_cons_self)
  imports' := by
    rw [himports]
    exact ok_of_toOption (slotsType_forms.1 _ (List.mem_cons_of_mem _ hs))

/-- The words of the type lead to no cycle, and it has names. -/
theorem slotsType_declared {form : TypeForm} {s : Scope} (hs : s ∈ [slotsByCall, slotsByField])
    (hpath : s.path = supportingTypes.path) (himports : s.imports = [])
    (h : form.Declares {} s .slots slotsType) : form.DeclaresBeside {} .slots slotsType
      spreadWorkspace supportingTypes spreadWorkspace s where
  directory := by decide
  project := .refl _
  supporting := slotsType_beside hs hpath himports
  declares := h
  acyclic := by
    refine Node.typeAcyclic_of_flat himports fun meaning word hi d hd m x hx => ?_
    have hflat := List.all_eq_true.1 (slotsType_supported s hs).1 _ hi
    simp only [hd, Option.all_some] at hflat
    exact absurd (List.all_eq_true.1 hflat _ hx) Bool.false_ne_true
  slotless _ hnone := by
    have hnames := (slotsType_supported s hs).2.2
    rw [hnone] at hnames
    cases hnames

/-- A call and a class with the type have its names and those of the interface. -/
theorem type_forms_agree_intersection :
    (Category.slots.extracted spreadWorkspace {} slotsByCall).toOption.map MemberList.toList =
      some [Text.ofString "a", Text.ofString "b"] ∧
    Category.slots.extracted spreadWorkspace {} slotsByField =
      Category.slots.extracted spreadWorkspace {} slotsByCall := by
  obtain ⟨-, hnone, ⟨call, -, hcalls, harguments, htypes, hvalues⟩, candidate, -, hnocalls,
    hcandidates, hclass, members, hbody, hkind, hmember⟩ := slotsType_forms
  have options {s : Scope} (hs : s ∈ [slotsByCall, slotsByField]) : Optionless {} s .slots :=
    ⟨(hnone s hs).1, fun o ho => by rw [(hnone s hs).2] at ho; cases ho⟩
  have hcall : TypeForm.call.DeclaresBeside {} .slots slotsType spreadWorkspace supportingTypes
      spreadWorkspace slotsByCall :=
    slotsType_declared (by simp) ((path_scriptScope _).trans (path_scriptScope _).symm)
      (imports_scriptScope _) (.call (options (by simp)) hcalls harguments htypes hvalues)
  have hfield : TypeForm.field.DeclaresBeside {} .slots slotsType spreadWorkspace supportingTypes
      spreadWorkspace slotsByField :=
    slotsType_declared (by simp) ((path_scriptScope _).trans (path_scriptScope _).symm)
      (imports_scriptScope _) (.field (options (by simp)) hnocalls hcandidates hclass
        (Option.mem_toList.1 hbody) hkind rfl (ok_of_toOption hmember))
  obtain ⟨-, -, hsame, -⟩ := type_forms_agree rfl hcall hfield
  obtain ⟨hlist, hlist'⟩ := hsame rfl
  refine ⟨?_, hlist'.trans hlist.symm⟩
  rw [hlist]
  exact (slotsType_supported _ (by simp)).2.2

/-! ### A slot that is read in the type -/

/-- The key is computed, so the type has no names, but the script reads a slot there. -/
def slotReadInType : Scope := scriptScope "defineSlots<\x7b [slots.head](): any \x7d>()\n"

theorem slotReadInType_spec :
    slotReadInType.root.callsOf ({} : Settings).defineCallees = [] ∧
    slotReadInType.root.findAll .object = [] ∧ slotReadInType.root.exportedCandidates = [] ∧
    ∃ call ∈ slotReadInType.root.callsOf ["defineSlots"],
      slotReadInType.root.callsOf ["defineSlots"] = [call] ∧ call.callArguments = [] ∧
        ∃ T ∈ call.typeArguments, call.typeArguments = [T] ∧
          (T.typeItems.all fun item => match item with
            | .reference _ _ => false
            | _ => true) = true ∧
          (slotReadInType.typeNames spreadWorkspace {} T).toOption.map MemberList.toList = some [] ∧
          (Category.slots.extracted spreadWorkspace {} slotReadInType).toOption.map
            MemberList.toList = some [Text.ofString "head"] := by
  decide +kernel

/-- A type without names declares no slots, but those in use count. -/
theorem not_list_of_type_names : ¬ ∀ (settings : Settings) (w : Workspace) (c : Scope) (T : Node),
    TypeForm.call.Declares settings c .slots T → T.TypeAcyclic w c →
      Category.slots.extracted w settings c = c.typeNames w settings T := by
  intro h
  obtain ⟨hdefining, hobjects, hvalues, call, -, hcalls, harguments, T, -, htypes, hitems, hnone,
    hhead⟩ := slotReadInType_spec
  have hdeclares : TypeForm.call.Declares {} slotReadInType .slots T :=
    .call ⟨hdefining, fun o ho => by rw [hobjects] at ho; cases ho⟩ hcalls harguments htypes hvalues
  have hacyclic : T.TypeAcyclic spreadWorkspace slotReadInType :=
    Node.typeAcyclic_of_flat (imports_scriptScope _) fun _ _ hi =>
      absurd (List.all_eq_true.1 hitems _ hi) Bool.false_ne_true
  rw [h {} spreadWorkspace slotReadInType T hdeclares hacyclic, hnone] at hhead
  cases hhead

end SurfaceCoverage
