import SurfaceCoverage.Proofs.GraftedLookups
import SurfaceCoverage.Proofs.SoleSite
import SurfaceCoverage.Proofs.Endless
/-!
# Options before other objects

The options of a defining call count before all other objects. The first call in the script whose
options have a member under a key decides the names of the option, if what stands before it can be
read, and it decides them even if there are none. So statements that are put in anywhere leave the
names as they were, whatever objects they hold, as long as they have no defining call, and nothing
that the options lead to is declared, imported or exported by them.
-/

namespace SurfaceCoverage

namespace Node

/-! ## The options of a call -/

/-- The argument of a call that is for options: the first one, or the second one behind a setup
function. -/
inductive PassesOptions (call : Node) : Node → Prop
  | first {a : Node} {rest : List Node} (arguments : call.callArguments = a :: rest)
      (plain : rest = [] ∨ a.unwrap.isFunctionValue = false) : PassesOptions call a.unwrap
  | second {a b : Node} {rest : List Node} (arguments : call.callArguments = a :: b :: rest)
      (setup : a.unwrap.isFunctionValue = true) : PassesOptions call b.unwrap

theorem PassesOptions.optionsArgument? {call a : Node} (h : call.PassesOptions a) :
    call.optionsArgument? = some a := by
  unfold Node.optionsArgument?
  cases h with
  | @first a rest arguments plain =>
    rw [arguments]
    cases rest with
    | nil => rfl
    | cons b rest => simp [plain.resolve_left (List.cons_ne_nil b rest)]
  | second arguments setup => simp [arguments, setup]

/-- What the options of a call have under a key: the first such member and the scope that it stands
in, or nothing. Options are an object literal, or the one that a word stands for. -/
inductive OptionMember (w : Workspace) (limit : Int) (c : Scope) (key : Text) (call : Node) :
    Option (Node × Scope) → Prop
  | bare (arguments : call.callArguments = []) : OptionMember w limit c key call none
  | literal {o : Node} {r : Option Node} (argument : call.PassesOptions o)
      (object : o.kind = .object) (member : o.findMember? key = .ok r) :
      OptionMember w limit c key call (r.map (·, c))
  | declared {a : Node} {d : Declaration} {r : Option Node} (argument : call.PassesOptions a)
      (word : a.kind = .identifier)
      (found : (Search.find w (.word c .value a.name)).evaluate { limit } = .ok (some d))
      (object : d.node.kind = .object) (member : d.node.findMember? key = .ok r) :
      OptionMember w limit c key call (r.map (·, d.scope))
  | undeclared {a : Node} {r : Option Declaration} (argument : call.PassesOptions a)
      (word : a.kind = .identifier)
      (found : (Search.find w (.word c .value a.name)).evaluate { limit } = .ok r)
      (nothing : ∀ d ∈ r, d.node.kind ≠ .object) : OptionMember w limit c key call none
  | other {a : Node} (argument : call.PassesOptions a) (object : a.kind ≠ .object)
      (word : a.kind ≠ .identifier) : OptionMember w limit c key call none

/-- What the member of an option contributes. -/
def optionItems (m : Node) : List Item :=
  match m.kind with
  | .shorthandPropertyIdentifier => [.reference .value m.name]
  | .pair => ((m.child? .value).map valueItems).getD []
  | _ => []

end Node

theorem Search.optionNames_eq (w : Workspace) (s : Scope) (m : Node) :
    optionNames w s m = namesOf w s m.optionItems := by
  by_cases hs : m.kind = .shorthandPropertyIdentifier
  · simp only [optionNames, Node.optionItems, hs]
    rfl
  by_cases hp : m.kind = .pair
  · simp only [optionNames, Node.optionItems, hp]
    cases m.child? .value <;> rfl
  · simp only [optionNames, Node.optionItems]
    rfl

/-- The words that the options of calls lead to: the arguments of the calls, and the references of a
member. -/
inductive OptionWords (c : Scope) (calls : List Node) (m : Node) (owner : Scope) : Query → Prop
  | argument {call a : Node} (mem : call ∈ calls) (argument : call.PassesOptions a)
      (word : a.kind = .identifier) : OptionWords c calls m owner (.word c .value a.name)
  | member {meaning : Meaning} {word : Text} (item : .reference meaning word ∈ m.optionItems) :
      OptionWords c calls m owner (.word owner meaning word)

/-- A component of a project in which names and paths tell queries apart. -/
structure Workspace.TellsApart (w : Workspace) (c : Scope) : Prop where
  directory : Path.IsCanonical w.project.directory
  itself : ∀ s, w.load (Module.shownPath c.path) = .ok (some s) → s = c
  unspaced : ∀ s, (Region.project w directory c).scopes s → s.Unspaced

section
variable {w : Workspace} {c : Scope} {limit : Int} {key : Text} {callees : List Text}

/-- A trail that searches of a component have left. -/
abbrev Workspace.TellsApart.Settled (h : w.TellsApart c) (limit : Int) (u : SearchState) : Prop :=
  SurfaceCoverage.Settled w (fun q => (Region.project w h.directory c).Inside q ∧ q.Clear) limit u

/-- On every such trail a search has one result. -/
abbrev Workspace.TellsApart.Yields {α : Type} (h : w.TellsApart c) (limit : Int) (m : Search α)
    (e : Except Failure α) : Prop :=
  SurfaceCoverage.Yields w (fun q => (Region.project w h.directory c).Inside q ∧ q.Clear) limit m e

theorem Workspace.TellsApart.yields {α : Type} (h : w.TellsApart c) {m : Search α}
    {P : Failure → Prop} {Q : α → Prop} (hm : Composed w c w.IsModule P m Q) :
    h.Yields limit m (m.evaluate { limit }) ∧ ∀ a, m.evaluate { limit } = .ok a → Q a :=
  Composed.yields h.itself h.unspaced hm

theorem Workspace.TellsApart.evaluate_eq {α : Type} (h : w.TellsApart c) {m : Search α}
    {e : Except Failure α} (hm : h.Yields limit m e) : m.evaluate { limit } = e :=
  hm.result _ (settled_fresh w _ limit)

/-- The first call that has something under a key decides. -/
theorem firstFound_yields {α β : Type} {U : Query → Prop} {try_ : α → Search (Option β)}
    {before after : List α} {a : α} {b : β}
    (hb : ∀ x ∈ before, Yields w U limit (try_ x) (.ok none))
    (ha : Yields w U limit (try_ a) (.ok (some b))) :
    Yields w U limit (Search.firstFound try_ (before ++ a :: after)) (.ok (some b)) := by
  induction before with
  | nil => exact yields_bind_ok ha (yields_ofExcept (.ok (some b)))
  | cons x before ih =>
    exact yields_bind_ok (hb x List.mem_cons_self) (ih fun y hy => hb y (List.mem_cons_of_mem _ hy))

namespace Node.OptionMember

variable {call : Node} {r : Option (Node × Scope)}

variable (limit) in
/-- A word that is passed as options is looked up alike on every trail. -/
theorem find_yields (h : w.TellsApart c) (hcall : call ∈ c.root.descendants) {a : Node}
    (ha : call.PassesOptions a) (hk : a.kind = .identifier) :
    h.Yields limit (Search.find w (.word c .value a.name))
        ((Search.find w (.word c .value a.name)).evaluate { limit }) ∧
      ∀ r, (Search.find w (.word c .value a.name)).evaluate { limit } = .ok r →
        ∀ d ∈ r, d.StandsIn (With c w.IsModule) := by
  have hmem := mem_descendants_trans (optionsArgument?_mem_descendants ha.optionsArgument?) hcall
  exact h.yields (P := fun _ => True) (.find (m := ⟨c, .value, a.name⟩) (.inl rfl)
    (.inr ⟨a, hmem, .inl hk, rfl⟩))

theorem definedOption_yields (h : w.TellsApart c) (hcall : call ∈ c.root.descendants)
    (hr : call.OptionMember w limit c key r) :
    h.Yields limit (Search.definedOption w c key call) (.ok r) := by
  unfold Search.definedOption
  cases hr with
  | bare arguments =>
    have hnone : call.optionsArgument? = none := by
      unfold optionsArgument?
      rw [arguments]
    rw [hnone]
    exact yields_ofExcept (.ok none)
  | literal argument object member =>
    rw [argument.optionsArgument?]
    unfold Search.optionsObject
    simp only [object, pure_bind, Search.findOption_singleton, member]
    exact yields_ofExcept (.ok _)
  | declared argument word found object member =>
    have hfind := (find_yields limit h hcall argument word).1
    rw [found] at hfind
    rw [argument.optionsArgument?]
    unfold Search.optionsObject
    simp only [word, bind_assoc]
    apply yields_bind_ok hfind
    simp only [object, if_true, pure_bind, Search.findOption_singleton, member]
    exact yields_ofExcept (.ok _)
  | @undeclared a r argument word found nothing =>
    have hfind := (find_yields limit h hcall argument word).1
    rw [found] at hfind
    rw [argument.optionsArgument?]
    unfold Search.optionsObject
    simp only [word, bind_assoc]
    apply yields_bind_ok hfind
    cases r with
    | none => exact yields_ofExcept (.ok none)
    | some d =>
      simp only [nothing d rfl, if_false, pure_bind]
      exact yields_ofExcept (.ok none)
  | @other a argument object word =>
    have hnothing : Search.optionsObject w c a = pure none := by
      unfold Search.optionsObject
      split
      · contradiction
      · contradiction
      · rfl
    rw [argument.optionsArgument?]
    simp only [hnothing, pure_bind]
    exact yields_ofExcept (.ok none)

/-- The member stands in the scope that it comes with. -/
theorem located {m : Node} {owner : Scope} (h : w.TellsApart c) (hcall : call ∈ c.root.descendants)
    (hr : call.OptionMember w limit c key (some (m, owner))) :
    With c w.IsModule owner ∧ m ∈ owner.root.descendants := by
  generalize hs : some (m, owner) = r at hr
  cases hr with
  | bare => cases hs
  | @literal o r argument _ member =>
    cases r with
    | none => cases hs
    | some m =>
      cases hs
      have hmem := optionsArgument?_mem_descendants argument.optionsArgument?
      exact ⟨.inl rfl, mem_descendants_trans (findMember?_mem member)
        (mem_descendants_trans hmem hcall)⟩
  | @declared a d r argument word found _ member =>
    cases r with
    | none => cases hs
    | some m =>
      cases hs
      have hstands := (find_yields limit h hcall argument word).2 _ found d rfl
      exact ⟨hstands.1, mem_descendants_trans (findMember?_mem member) hstands.2⟩
  | undeclared => cases hs
  | other => cases hs

end Node.OptionMember

/-- The names of an option are those of the first call that has it. -/
theorem namesByOption_yields {before after : List Node} {call m : Node} {owner : Scope}
    (h : w.TellsApart c) (hcalls : c.root.callsOf callees = before ++ call :: after)
    (hbefore : ∀ b ∈ before, b.OptionMember w limit c key none)
    (hcall : call.OptionMember w limit c key (some (m, owner))) :
    h.Yields limit (Search.namesByOption w c [key] callees)
      ((Search.optionNames w owner m).evaluate { limit }) := by
  have hmem : ∀ b ∈ before ++ call :: after, b ∈ c.root.descendants := fun b hb =>
    Node.mem_descendants_of_mem_callsOf (hcalls ▸ hb)
  have hfirst : h.Yields limit (Search.firstFound (Search.definedOption w c key)
      (before ++ call :: after)) (.ok (some (m, owner))) := firstFound_yields
    (fun b hb => Node.OptionMember.definedOption_yields h (hmem b (by simp [hb])) (hbefore b hb))
    (hcall.definedOption_yields h (hmem call (by simp)))
  obtain ⟨howner, hm⟩ := hcall.located h (hmem call (by simp))
  rw [Search.namesByOption_eq, hcalls]
  exact yields_bind_ok hfirst (h.yields (optionNames_composed literals_of_true howner hm)).1

theorem Node.stands_of_mem_optionItems {m : Node} {owner : Scope} (hm : m ∈ owner.root.descendants)
    {meaning : Meaning} {word : Text} (h : .reference meaning word ∈ m.optionItems) :
    Mention.Stands ⟨owner, meaning, word⟩ := by
  unfold optionItems at h
  split at h
  · rename_i hk
    cases List.mem_singleton.1 h
    exact .inr ⟨m, hm, .inr hk, rfl⟩
  · rcases hv : m.child? .value with _ | v <;> rw [hv] at h
    · cases h
    · have hfrom := (valueItems_from v _ h).trans
        (mem_descendants_trans (mem_descendants_of_child? hv) hm)
      exact Item.From.stands hfrom
  · cases h

/-- What items come to, with words unfolded to any depth from the bound on. -/
theorem evaluate_namesOf {owner : Scope} {items : List Item} (h : w.TellsApart c)
    (howner : With c w.IsModule owner) (hstands : ∀ meaning word, .reference meaning word ∈ items →
      Mention.Stands ⟨owner, meaning, word⟩) {depth : Nat} (hd : Search.depthBound w owner ≤ depth) :
    (Search.namesOf w owner items).evaluate { limit } =
      (Item.texts w limit depth owner items).map MemberList.ofList := by
  have hreads (item : Item) : item.Reads fun _ => True := by
    cases item with
    | literal n => exact fun _ _ => trivial
    | member n => exact fun _ _ => trivial
    | _ => trivial
  rw [Item.texts_of_bound_le h.directory hstands hd]
  apply h.evaluate_eq
  exact namesOf_yields_of_stands (R := Region.project w h.directory c) howner
    (fun item _ => hreads item) hstands (Region.distinct_project h.itself) h.unspaced
    literals_of_true

/-- What the member of an option comes to, with words unfolded to any depth from the bound on. -/
theorem evaluate_optionNames {m : Node} {owner : Scope} (h : w.TellsApart c)
    (howner : With c w.IsModule owner) (hm : m ∈ owner.root.descendants) {depth : Nat}
    (hd : Search.depthBound w owner ≤ depth) :
    (Search.optionNames w owner m).evaluate { limit } =
      (Item.texts w limit depth owner m.optionItems).map MemberList.ofList := by
  rw [Search.optionNames_eq]
  exact evaluate_namesOf h howner (fun _ _ hi => Node.stands_of_mem_optionItems hm hi) hd

end

/-! ## Statements put in -/

theorem exists_of_forall₂_append_cons {α β : Type} {R : α → β → Prop} {before after : List α} {a : α}
    {bs : List β} (h : List.Forall₂ R (before ++ a :: after) bs) :
    ∃ before' b after', bs = before' ++ b :: after' ∧ List.Forall₂ R before before' ∧ R a b := by
  induction before generalizing bs with
  | nil =>
    cases h with
    | @cons _ b _ after' hab _ => exact ⟨[], b, after', rfl, .nil, hab⟩
  | cons x before ih =>
    cases h with
    | @cons _ y _ bs hxy h =>
      obtain ⟨before', b, after', rfl, hbefore, hab⟩ := ih h
      exact ⟨y :: before', b, after', rfl, .cons hxy hbefore, hab⟩

theorem exists_of_forall₂_right {α β : Type} {R : α → β → Prop} {as : List α} {bs : List β}
    (h : List.Forall₂ R as bs) {b : β} (hb : b ∈ bs) : ∃ a ∈ as, R a b := by
  induction h with
  | nil => cases hb
  | @cons a b' as bs hab _ ih =>
    rcases List.mem_cons.1 hb with rfl | hb
    · exact ⟨a, List.mem_cons_self, hab⟩
    · obtain ⟨a, ha, hab⟩ := ih hb
      exact ⟨a, List.mem_cons_of_mem _ ha, hab⟩

namespace Node.Grafts

variable {P : Node → Prop} {n n' : Node}

theorem forall₂_callArguments (h : n.Grafts P n') :
    List.Forall₂ (Grafts P) n.callArguments n'.callArguments := by
  unfold callArguments
  rcases ha : n.child? .arguments with _ | a
  · rw [h.child_eq_none ha (by decide)]
    exact .nil
  · obtain ⟨a', ha', haa⟩ := h.exists_child ha (by decide)
    simp only [ha', ← haa.kind_eq]
    split
    · rename_i hk
      exact haa.forall₂_namedChildren (isStatementList_eq_false (by rw [hk]; rfl))
    · exact .nil

theorem isFunctionValue_eq (h : n.Grafts P n') : n.isFunctionValue = n'.isFunctionValue := by
  unfold isFunctionValue
  rw [h.kind_eq]

theorem exists_passesOptions {a : Node} (h : n.Grafts P n') (ha : n.PassesOptions a) :
    ∃ a', n'.PassesOptions a' ∧ a.Grafts P a' := by
  have harguments := h.forall₂_callArguments
  cases ha with
  | @first b rest arguments plain =>
    rw [arguments] at harguments
    rcases hs : n'.callArguments with _ | ⟨b', rest'⟩ <;> rw [hs] at harguments <;> cases harguments
    rename_i hb hrest
    refine ⟨b'.unwrap, .first hs ?_, unwrap_congr hb⟩
    rw [← (unwrap_congr hb).isFunctionValue_eq]
    refine plain.imp_left fun hnil => ?_
    rw [hnil] at hrest
    cases hrest
    rfl
  | @second b d rest arguments setup =>
    rw [arguments] at harguments
    rcases hs : n'.callArguments with _ | ⟨b', _ | ⟨d', rest'⟩⟩ <;> rw [hs] at harguments <;>
      cases harguments
    · rename_i hrest
      cases hrest
    · rename_i hb hrest
      cases hrest with
      | cons hd _ =>
        exact ⟨d'.unwrap, .second hs ((unwrap_congr hb).isFunctionValue_eq ▸ setup), unwrap_congr hd⟩

/-- An object has the member that it had. -/
theorem findMember?_agrees (h : n.Grafts P n') (hk : n.kind = .object) (key : Text) :
    Agree (Option.Rel (Grafts P)) (n.findMember? key) (n'.findMember? key) := by
  have hmembers := MemberLikeness.members h hk
  unfold findMember?
  generalize n.namedChildren = ms at hmembers
  generalize n'.namedChildren = ms' at hmembers
  induction hmembers with
  | nil => exact .ok .none
  | @cons m m' ms ms' hm _ ih =>
    unfold findMember?.go
    rw [← hm.kind_eq, ← memberName?_congr hm]
    split
    · rcases m.memberName? with f | name
      · exact .error f
      · show Agree _ (if name = some key then _ else _) (if name = some key then _ else _)
        split
        · exact .ok (.some hm)
        · exact ih
    · exact ih

/-- A script has the calls that it had if what is put in has none. -/
theorem forall₂_callsOf {callees : List Text} (h : n.Grafts P n')
    (hP : ∀ s, P s → s.callsOf callees = []) :
    List.Forall₂ (Grafts P) (n.callsOf callees) (n'.callsOf callees) := by
  have hcalls := h.descendants.filter (p := (·.kind == .callExpression))
    fun d d' hd => by rw [hd.kind_eq]
  refine (hcalls.forall₂_filter (p := fun d => d.calleeName?.any callees.contains) ?_ ?_).imp
    fun d d' hd => hd.1
  · rintro d d' ⟨hd, hk⟩
    rw [calleeName?_congr hd (eq_of_beq hk)]
  · rintro d ⟨⟨s, hs, hd⟩, hk⟩
    rw [Bool.eq_false_iff]
    intro hcallee
    have hmem : d ∈ s.callsOf callees :=
      List.mem_filter.2 ⟨List.mem_filter.2 ⟨hd, hk⟩, hcallee⟩
    rw [hP s hs] at hmem
    cases hmem

theorem forall₂_optionItems (h : n.Grafts P n') :
    List.Forall₂ (Item.Alike P) n.optionItems n'.optionItems := by
  unfold optionItems
  rw [← h.kind_eq]
  split
  · rename_i hk
    rw [name_congr h hk rfl]
    exact .cons (.same _) .nil
  · rcases hv : n.child? .value with _ | v
    · rw [h.child_eq_none hv (by decide)]
      exact .nil
    · obtain ⟨v', hv', hvv⟩ := h.exists_child hv (by decide)
      rw [hv']
      exact hvv.forall₂_valueItems
  · exact .nil

end Node.Grafts

theorem Search.evaluate_find (w : Workspace) (q : Query) (limit : Int) :
    (find w q).evaluate { limit } = lookup w limit q := by
  have hw := find_walks w q { trail := { limit } }
  have hroom : Trail.room { limit } = limit.toNat := by simp [Trail.room, Trail.depth]
  simp only [hroom] at hw
  rw [lookup, ← hw, evaluate, Walk.result]
  cases find w q { trail := { limit } } <;> rfl

section
variable {w w' : Workspace} {c c' : Scope} {limit : Int} {key : Text} {callees : List Text}
  {start : Query → Prop}

/-- A word is found to stand for what it stood for. -/
theorem Search.find_grown (h : w.Grown callees (w.Reaches start) w')
    (hc : c.Grown w callees (w.Reaches start) c') {P : Node → Prop} {a a' : Node}
    (ha : w.Reaches start (.word c .value a.name)) (hk : a.kind = .identifier) (haa : a.Grafts P a')
    {r : Option Declaration} (hr : (find w (.word c .value a.name)).evaluate { limit } = .ok r) :
    ∃ r', (find w' (.word c' .value a'.name)).evaluate { limit } = .ok r' ∧
      Option.Rel (Declaration.Follows (Scope.Grown w callees (w.Reaches start))
        (Node.Spares w callees (w.Reaches start)) w start .value) r r' := by
  have hlook := lookup_agrees limit h.alike ha (.word hc .value a.name)
  rw [evaluate_find] at hr
  rw [hr] at hlook
  obtain ⟨r', hr', hrr⟩ := hlook.eq_ok
  rw [Node.name_congr haa hk rfl] at hr'
  exact ⟨r', (evaluate_find ..).trans hr', hrr⟩

/-- The options of a call have the member that they had. -/
theorem Node.OptionMember.grown (h : w.Grown callees (w.Reaches start) w')
    (hc : c.Grown w callees (w.Reaches start) c') {P : Node → Prop} {call call' : Node}
    (hcall : call.Grafts P call')
    (hstart : ∀ a, call.PassesOptions a → a.kind = .identifier → start (.word c .value a.name))
    {r : Option (Node × Scope)} (hr : call.OptionMember w limit c key r) :
    ∃ r', call'.OptionMember w' limit c' key r' ∧ Option.Rel (fun m m' =>
      m.2.Grown w callees (w.Reaches start) m'.2 ∧ ∃ P, m.1.Grafts P m'.1) r r' := by
  -- a word that is passed as options is one that the options lead to
  have hword {a a' : Node} (ha : call.PassesOptions a) (hk : a.kind = .identifier)
      (haa : a.Grafts P a') {r : Option Declaration}
      (hr : (Search.find w (.word c .value a.name)).evaluate { limit } = .ok r) :=
    Search.find_grown h hc (.start (hstart a ha hk)) hk haa hr
  cases hr with
  | bare arguments =>
    have harguments := hcall.forall₂_callArguments
    rw [arguments] at harguments
    exact ⟨none, .bare (List.forall₂_nil_left_iff.1 harguments), .none⟩
  | literal argument object member =>
    obtain ⟨o', ho', hoo⟩ := hcall.exists_passesOptions argument
    have hmember := hoo.findMember?_agrees object key
    rw [member] at hmember
    obtain ⟨r', hr', hrr⟩ := hmember.eq_ok
    exact ⟨r'.map (·, c'), .literal ho' (hoo.kind_eq ▸ object) hr',
      rel_map hrr fun _ _ hm => ⟨hc, P, hm⟩⟩
  | declared argument word found object member =>
    obtain ⟨a', ha', haa⟩ := hcall.exists_passesOptions argument
    obtain ⟨r', hr', hrr⟩ := hword argument word haa found
    cases hrr with
    | @some _ d' hd =>
      have hmember := hd.node.findMember?_agrees object key
      rw [member] at hmember
      obtain ⟨r', hm', hmm⟩ := hmember.eq_ok
      exact ⟨r'.map (·, d'.scope), .declared ha' (haa.kind_eq ▸ word) hr'
        (hd.node.kind_eq ▸ object) hm', rel_map hmm fun _ _ hm => ⟨hd.scope, _, hm⟩⟩
  | undeclared argument word found nothing =>
    obtain ⟨a', ha', haa⟩ := hcall.exists_passesOptions argument
    obtain ⟨r', hr', hrr⟩ := hword argument word haa found
    refine ⟨none, .undeclared ha' (haa.kind_eq ▸ word) hr' ?_, .none⟩
    rintro d' hd'
    cases hrr with
    | none => cases hd'
    | some hd =>
      cases hd'
      exact hd.node.kind_eq ▸ nothing _ rfl
  | other argument object word =>
    obtain ⟨a', ha', haa⟩ := hcall.exists_passesOptions argument
    exact ⟨none, .other ha' (haa.kind_eq ▸ object) (haa.kind_eq ▸ word), .none⟩

end

/-- The names of an option are those of the first defining call that has it, even if there are none,
on every trail that searches of the component have left. Statements that are put in at any place of
any module leave them as they were, if they have no defining call and declare, import and export
nothing that the options lead to. -/
theorem defining_call_outranks {w : Workspace} {c : Scope} (h : w.TellsApart c) {limit : Int}
    {key : Text} {callees : List Text} {before after : List Node} {call m : Node} {owner : Scope}
    (hcalls : c.root.callsOf callees = before ++ call :: after)
    (hbefore : ∀ b ∈ before, b.OptionMember w limit c key none)
    (hcall : call.OptionMember w limit c key (some (m, owner))) :
    (∀ u, h.Settled limit u → ((Strategy.options [key] callees).extract w c u).map (·.1) =
      (Search.optionNames w owner m).evaluate { limit }) ∧
    ∀ w' c' (h' : w'.TellsApart c'),
      w.Grown callees (w.Reaches (OptionWords c (before ++ [call]) m owner)) w' →
      c.Grown w callees (w.Reaches (OptionWords c (before ++ [call]) m owner)) c' →
      ∀ u, h'.Settled limit u → ((Strategy.options [key] callees).extract w' c' u).map (·.1) =
        (Search.optionNames w owner m).evaluate { limit } := by
  refine ⟨(namesByOption_yields h hcalls hbefore hcall).result, fun w' c' h' hw hc => ?_⟩
  have hmem : ∀ b ∈ before ++ call :: after, b ∈ c.root.descendants := fun b hb =>
    Node.mem_descendants_of_mem_callsOf (hcalls ▸ hb)
  have hgrown := hc.root.forall₂_callsOf fun s hs => hs.calls
  rw [hcalls] at hgrown
  obtain ⟨before', call', after', hcalls', hbefore', hcall'⟩ := exists_of_forall₂_append_cons hgrown
  -- the calls in front of the first one that has the option still lack it
  have hlack : ∀ b' ∈ before', b'.OptionMember w' limit c' key none := by
    intro b' hb'
    obtain ⟨b, hb, hbb⟩ := exists_of_forall₂_right hbefore' hb'
    obtain ⟨r', hr', hrr⟩ := (hbefore b hb).grown hw hc hbb fun a ha hk =>
      .argument (List.mem_append_left _ hb) ha hk
    cases hrr
    exact hr'
  obtain ⟨r', hr', hrr⟩ := hcall.grown hw hc hcall' fun a ha hk =>
    .argument (List.mem_append_right _ (List.mem_singleton_self call)) ha hk
  cases hrr with
  | @some _ found howner =>
    obtain ⟨m', owner'⟩ := found
    obtain ⟨howner, P, hm⟩ := howner
    have hmem' : call' ∈ c'.root.descendants :=
      Node.mem_descendants_of_mem_callsOf (by rw [hcalls']; simp)
    obtain ⟨hin, hstands⟩ := hcall.located h (hmem call (by simp))
    obtain ⟨hin', hstands'⟩ := hr'.located h' hmem'
    rw [evaluate_optionNames h hin hstands (Nat.le_max_left _ (Search.depthBound w' owner')),
      texts_eq hw.alike howner hm.forall₂_optionItems fun meaning word hi => .start (.member hi),
      ← evaluate_optionNames h' hin' hstands' (Nat.le_max_right _ _)]
    exact (namesByOption_yields h' hcalls' hlack hr').result

/-! ### Bare objects around options that have a name -/

def namedOptionsSource : List Char :=
  "const o = \x7b props: ['p'] \x7d\nfunction f() \x7b\n\x7d\ndefineComponent(o)\n".toList

def bareObjectsSource : List Char :=
  ("const bare = \x7b props: ['q'] \x7d\nconst o = \x7b props: ['p'] \x7d\nfunction f() \x7b\n" ++
    "  use(\x7b props: ['r'] \x7d)\n\x7d\ndefineComponent(o)\n").toList

def namedOptions : Scope := ⟨(Module.read namedOptionsSource none).1, []⟩

/-- The same script, with an object in front of the options and one in a function. -/
def bareObjects : Scope := ⟨(Module.read bareObjectsSource none).1, []⟩

def definingCallees : List Text := [Text.ofString "defineComponent"]

/-- Nothing is imported or exported, and words have no blanks. -/
theorem unspaced_alone : ∀ c ∈ [namedOptions, bareObjects],
    (Imports.ofRoot c.root).toOption = some [] ∧ c.root.exports = [] ∧
    ∀ n ∈ c.root.descendants, n.kind = .identifier ∨ n.kind = .shorthandPropertyIdentifier →
      n.name.Unspaced := by
  decide +kernel

/-- What is put in has no defining call, no import and no variable with the name of the options. -/
theorem grafts_bareObjects : Node.graftsBy (fun s => (s.callsOf definingCallees).isEmpty &&
    (s.findAll .variableDeclarator).all (fun d => (d.initialValue? (Text.ofString "o")).isNone) &&
      (Imports.ofStatement s).toOption == some []) namedOptions.root bareObjects.root = true := by
  decide +kernel

/-- The argument of the only defining call is a word for an object literal that refers to nothing. -/
theorem namedOptions_spec :
    (∃ call ∈ namedOptions.root.callsOf definingCallees,
      namedOptions.root.callsOf definingCallees = [call] ∧ ∃ a ∈ call.callArguments,
        call.callArguments = [a] ∧ a.unwrap.kind = .identifier ∧
          a.unwrap.name = Text.ofString "o") ∧
    ∃ value ∈ (namedOptions.root.localInitializer? (Text.ofString "o")).toList,
      value.unwrap.kind ≠ .identifier ∧ ∃ o ∈ value.declaredValue?.toList, o.kind = .object ∧
        ∃ m ∈ ((o.findMember? (Text.ofString "props")).toOption.bind id).toList,
          ((Item.inquiries namedOptions m.optionItems).eval fun _ => .ok []).toOption =
            some [Text.ofString "p"] ∧
          ∀ items ∈ [o.valueItems, m.optionItems], items.all fun item => match item with
            | .reference _ _ => false
            | _ => true := by
  decide +kernel

theorem tellsApart_alone {c : Scope} (hc : c ∈ [namedOptions, bareObjects])
    (hi : c.imports = []) : spreadWorkspace.TellsApart c where
  directory := by decide
  itself s hs := absurd hs not_load_spread
  unspaced s hs := by
    rw [scopes_alone hs]
    obtain ⟨-, hexports, hnames⟩ := unspaced_alone c hc
    refine ⟨hnames, fun statement hs => ?_, fun i h => ?_⟩
    · rw [hexports] at hs
      cases hs
    · rw [hi] at h
      cases h

/-- The options that the word is found to stand for, and the words that are asked for: no other. -/
theorem asked_namedOptions : ∃ call m, namedOptions.root.callsOf definingCallees = [call] ∧
    call.OptionMember spreadWorkspace 32 namedOptions (Text.ofString "props")
      (some (m, namedOptions)) ∧
    ((Item.inquiries namedOptions m.optionItems).eval fun _ => .ok []) = .ok [Text.ofString "p"] ∧
    (∀ meaning word, .reference meaning word ∉ m.optionItems) ∧
    ∀ q, spreadWorkspace.Reaches (OptionWords namedOptions [call] m namedOptions) q →
      q = .word namedOptions .value (Text.ofString "o") := by
  obtain ⟨⟨call, -, hcalls, a, -, harguments, hk, hname⟩, value, hv, -, o, ho, hobject, m, hm,
    hnames, hitems⟩ := namedOptions_spec
  have hnone {items : List Item} (h : items ∈ [o.valueItems, m.optionItems]) (meaning : Meaning)
      (word : Text) : .reference meaning word ∉ items :=
    fun hi => absurd (List.all_eq_true.1 (hitems items h) _ hi) Bool.false_ne_true
  have hargument : call.PassesOptions a.unwrap := .first harguments (.inl rfl)
  have hmember : o.findMember? (Text.ofString "props") = .ok (some m) := by
    obtain ⟨r, hr, rfl⟩ := Option.bind_eq_some_iff.1 (Option.mem_toList.1 hm)
    exact ok_of_toOption hr
  have hmoves : spreadWorkspace.moves (.word namedOptions .value (Text.ofString "o")) =
      [.ok (.found ⟨o, namedOptions⟩)] := by
    rw [Workspace.moves, Scope.localCandidates, Option.mem_toList.1 hv]
    simp only [Node.valueCandidates, Option.mem_toList.1 ho]
    rfl
  have hfind : (Search.find spreadWorkspace (.word namedOptions .value a.unwrap.name)).evaluate
      { limit := 32 } = .ok (some ⟨o, namedOptions⟩) := by
    rw [Search.evaluate_find, hname, lookup, show Int.toNat 32 = 31 + 1 from rfl, Walk.walk, hmoves]
    rfl
  refine ⟨call, m, hcalls, .declared hargument hk hfind hobject hmember, ok_of_toOption hnames,
    hnone (by simp), fun q hq => ?_⟩
  induction hq with
  | start first =>
    cases first with
    | argument mem argument word =>
      cases List.mem_singleton.1 mem
      have hsame := argument.optionsArgument?.symm.trans hargument.optionsArgument?
      rw [Option.some.inj hsame, hname]
    | member item => exact absurd item (hnone (by simp) _ _)
  | onward _ move ih =>
    rw [ih, hmoves] at move
    cases List.mem_singleton.1 move
  | refers _ found item ih =>
    rw [ih, hmoves] at found
    cases List.mem_singleton.1 found
    rw [ih] at item
    exact absurd item (hnone List.mem_cons_self _ _)

theorem Module.path_read (source : List Char) (path : Option String) :
    (Module.read source path).1.path = path := rfl

theorem grown_bareObjects {asked : Query → Prop}
    (h : ∀ q, asked q → q = .word namedOptions .value (Text.ofString "o")) :
    namedOptions.Grown spreadWorkspace definingCallees asked bareObjects where
  path := by rw [Scope.path, Scope.path, bareObjects, namedOptions, Module.path_read, Module.path_read]
  root := by
    refine Node.grafts_of_graftsBy (fun s hs => ?_) grafts_bareObjects
    simp only [Bool.and_eq_true, List.isEmpty_iff, List.all_eq_true, Option.isNone_iff_eq_none,
      beq_iff_eq] at hs
    obtain ⟨⟨hcalls, hvalues⟩, himports⟩ := hs
    refine ⟨hcalls, fun word hq d hd => ?_, fun word hq => ?_, fun _ _ _ bound hb i hi => ?_,
      fun _ _ _ hq => ?_⟩
    · cases h _ hq
      exact hvalues d hd
    · cases h _ hq
    · cases (ok_of_toOption himports).symm.trans hb
      cases hi
    · cases h _ hq
  imports := ok_of_toOption (unspaced_alone namedOptions (by simp)).1
  imports' := ok_of_toOption (unspaced_alone bareObjects (by simp)).1

theorem defining_call_outranks_bare :
    ((Strategy.options [Text.ofString "props"] definingCallees).extract spreadWorkspace
      namedOptions { trail := { limit := 32 } }).map (·.1) =
        .ok (MemberList.ofList [Text.ofString "p"]) ∧
    ((Strategy.options [Text.ofString "props"] definingCallees).extract spreadWorkspace
      bareObjects { trail := { limit := 32 } }).map (·.1) =
        .ok (MemberList.ofList [Text.ofString "p"]) := by
  obtain ⟨call, m, hcalls, hcall, hnames, hnone, hasked⟩ := asked_namedOptions
  have hplain : spreadWorkspace.TellsApart namedOptions := tellsApart_alone (by simp) rfl
  have hbare : spreadWorkspace.TellsApart bareObjects := tellsApart_alone (by simp) rfl
  have hmem := (hcall.located hplain
    (Node.mem_descendants_of_mem_callsOf (hcalls ▸ List.mem_singleton_self call))).2
  have hoption : (Search.optionNames spreadWorkspace namedOptions m).evaluate { limit := 32 } =
      .ok (MemberList.ofList [Text.ofString "p"]) := by
    rw [evaluate_optionNames hplain (.inl rfl) hmem (Nat.le_refl _), Item.texts,
      Item.eval_inquiries_congr fun _ _ hi => absurd hi (hnone _ _), hnames]
    rfl
  have hfirst : namedOptions.root.callsOf definingCallees = [] ++ [call] := hcalls
  obtain ⟨hsettled, hgrown⟩ := defining_call_outranks hplain hfirst (by simp) hcall
  exact ⟨(hsettled _ (settled_fresh _ _ 32)).trans hoption, (hgrown spreadWorkspace bareObjects hbare
    (.refl _ _ _) (grown_bareObjects hasked) _ (settled_fresh _ _ 32)).trans hoption⟩

end SurfaceCoverage
