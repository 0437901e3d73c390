import SurfaceCoverage.Proofs.Growth
import SurfaceCoverage.Proofs.Hiding
/-!
# Events, slots and exposed members that tests show

A test shows an event by asking for it among those emitted, a slot by filling it where it mounts the
component, and an exposed member by reading it from a mounted instance. The instance is the member
`vm` of something, or a word that declarators link to one: the first takes an instance from a
wrapper, and each later one gives the value of a word before it a further word. Whatever stands
between these declarators, a declared name that is shown is covered.
-/

namespace SurfaceCoverage

/-! ## Steps of a fold -/

section
variable {γ δ : Type} {S : γ → γ → Prop} [Std.Refl S] [IsTrans γ S] {g : γ → δ → Except Failure γ}
  {c r : γ}

/-- A fold that only adds does the step of each element after all elements before it, and has in the
end what that step gives. -/
theorem exists_step_of_foldlM (hadd : ∀ b d d', g d b = .ok d' → S d d') {l all : List δ} {d : δ}
    (hsub : (l ++ [d]).Sublist all) (h : all.foldlM g c = .ok r) :
    ∃ front before after, l.Sublist front ∧ front.foldlM g c = .ok before ∧
      g before d = .ok after ∧ S after r := by
  obtain ⟨m, rest, rfl, hl, hd⟩ := List.append_sublist_iff.1 hsub
  obtain ⟨front, back, rfl⟩ := List.append_of_mem (List.singleton_sublist.1 hd)
  rw [← List.append_assoc, List.foldlM_append] at h
  obtain ⟨before, hbefore, h⟩ := exists_ok_of_bind h
  rw [List.foldlM_cons] at h
  obtain ⟨after, hafter, h⟩ := exists_ok_of_bind h
  exact ⟨m ++ front, before, after, hl.trans (List.sublist_append_left _ _), hbefore, hafter,
    rel_of_foldlM hadd h⟩

end

namespace Node

/-! ## Values that are instances -/

/-- A declarator gives a target its first value. -/
structure Initialises (declarator target value : Node) : Prop where
  name : declarator.child? .name = some target
  value : declarator.child? .value = some value

/-- A value is a word. -/
structure IsWord (value : Node) (word : Text) : Prop where
  kind : value.kind = .identifier
  name : value.name = word

instance (value : Node) (word : Text) : Decidable (value.IsWord word) :=
  decidable_of_iff (_ ∧ _) ⟨fun h => ⟨h.1, h.2⟩, fun h => ⟨h.1, h.2⟩⟩

/-- A member of a pattern takes the instance out of a wrapper, under a word. -/
inductive TakesInstance (member : Node) : Text → Prop where
  | shorthand (kind : member.kind = .shorthandPropertyIdentifierPattern)
      (name : member.name = instanceMember) : TakesInstance member instanceMember
  | pair {target : Node} {word : Text} (kind : member.kind = .pairPattern)
      (name : member.memberName? = .ok (some instanceMember))
      (value : member.child? .value = some target) (is_word : target.IsWord word) :
      TakesInstance member word

/-- By declarators, in this order, a value is a wrapper: the result of mounting, or a word for it. -/
inductive WrapperAfter (mounts : List Text) : List Node → Node → Prop where
  | mounted {value : Node} (mounted : value.isMounted mounts = true) : WrapperAfter mounts [] value
  | word {d target mounted value awaited : Node} {word : Text} (init : d.Initialises target mounted)
      (target_word : target.IsWord word) (is_mounted : mounted.isMounted mounts = true)
      (await : value.awaited? = some awaited) (awaited_word : awaited.IsWord word) :
      WrapperAfter mounts [d] value

/-- By declarators, in this order, a value is an instance: the member `vm` of something, a word that
a pattern takes it out of a wrapper with, or a word for a value that is an instance. -/
inductive InstanceAfter (mounts : List Text) : List Node → Node → Prop where
  | member {value : Node} (kind : value.unwrap.kind = .memberExpression)
      (name : value.unwrap.propertyName? = .ok (some instanceMember)) : InstanceAfter mounts [] value
  | taken {ds : List Node} {d target wrapper m value : Node} {word : Text}
      (wraps : WrapperAfter mounts ds wrapper) (init : d.Initialises target wrapper)
      (pattern : target.kind = .objectPattern) (mem : m ∈ target.namedChildren)
      (takes : m.TakesInstance word) (is_word : value.unwrap.IsWord word) :
      InstanceAfter mounts (ds ++ [d]) value
  | again {ds : List Node} {d target initial value : Node} {word : Text}
      (holds : InstanceAfter mounts ds initial) (init : d.Initialises target initial)
      (target_word : target.IsWord word) (is_word : value.unwrap.IsWord word) :
      InstanceAfter mounts (ds ++ [d]) value

section
variable {mounts : List Text} {value target d : Node} {word : Text} {words words' : InstanceWords}

theorem isInstance_of_isWord (h : value.unwrap.IsWord word) (hw : word ∈ words.instances) :
    value.isInstance words.instances = .ok true := by
  unfold isInstance
  simp only [h.kind, h.name, List.contains_iff_mem.2 hw]

/-- A member that takes the instance out adds its word to those of the other members. -/
theorem TakesInstance.instancePatternWords_cons {m : Node} (h : m.TakesInstance word)
    (ms : List Node) :
    instancePatternWords (m :: ms) = (do return word :: (← instancePatternWords ms)) := by
  rw [instancePatternWords]
  cases h with
  | shorthand kind name =>
    simp only [kind, name, if_true]
    rfl
  | pair kind name value is_word =>
    simp only [kind, name, value, is_word.kind, is_word.name, if_true]
    rfl

/-- Every member of a pattern leaves the words of the others. -/
theorem exists_of_instancePatternWords_cons {m : Node} {ms : List Node} {taken : List Text}
    (h : instancePatternWords (m :: ms) = .ok taken) :
    ∃ first rest, instancePatternWords ms = .ok rest ∧ taken = first ++ rest := by
  have hrest {first : List Text}
      (h : (do return first ++ (← instancePatternWords ms) : Except Failure (List Text)) = .ok taken) :
      ∃ first rest, instancePatternWords ms = .ok rest ∧ taken = first ++ rest := by
    obtain ⟨rest, hms, h⟩ := exists_ok_of_bind h
    cases h
    exact ⟨first, rest, hms, rfl⟩
  rw [instancePatternWords] at h
  simp only at h
  split at h
  · exact hrest h
  · obtain ⟨name, -, h⟩ := exists_ok_of_bind h
    split at h
    · split at h <;> exact hrest h
    · exact hrest h
  · exact hrest h

/-- A pattern takes the instance out under the word of each member that takes it. -/
theorem mem_instancePatternWords {ms : List Node} {taken : List Text}
    (h : instancePatternWords ms = .ok taken) {m : Node} (hm : m ∈ ms) (ht : m.TakesInstance word) :
    word ∈ taken := by
  induction ms generalizing taken with
  | nil => cases hm
  | cons x ms ih =>
    rcases List.mem_cons.1 hm with rfl | hm
    · rw [ht.instancePatternWords_cons] at h
      obtain ⟨rest, -, h⟩ := exists_ok_of_bind h
      cases h
      exact List.mem_cons_self
    · obtain ⟨first, rest, hrest, rfl⟩ := exists_of_instancePatternWords_cons h
      exact List.mem_append_right _ (ih hrest hm)

/-! ### What one declarator adds -/

theorem Initialises.wrappers_of_isMounted (h : d.Initialises target value) (ht : target.IsWord word)
    (hv : value.isMounted mounts = true)
    (hd : declaratorWords mounts words d = .ok words') : word ∈ words'.wrappers := by
  unfold declaratorWords at hd
  simp only [h.name, h.value, ht.kind] at hd
  obtain ⟨b, hb, hd⟩ := exists_ok_of_bind hd
  cases b with
  | true => rw [isMounted_of_isInstance hb] at hv; cases hv
  | false =>
    simp only [Bool.false_eq_true, if_false, hv, if_true] at hd
    cases hd
    exact ht.name ▸ List.mem_cons_self

theorem Initialises.instances_of_isInstance (h : d.Initialises target value) (ht : target.IsWord word)
    (hv : value.isInstance words.instances = .ok true)
    (hd : declaratorWords mounts words d = .ok words') : word ∈ words'.instances := by
  unfold declaratorWords at hd
  simp only [h.name, h.value, ht.kind, hv] at hd
  cases hd
  exact ht.name ▸ List.mem_cons_self

theorem Initialises.instances_of_isMountWrapper (h : d.Initialises target value)
    (ht : target.kind = .objectPattern) {m : Node} (hm : m ∈ target.namedChildren)
    (htakes : m.TakesInstance word) (hv : value.isMountWrapper mounts words.wrappers = true)
    (hd : declaratorWords mounts words d = .ok words') : word ∈ words'.instances := by
  unfold declaratorWords at hd
  simp only [h.name, h.value, ht, hv, if_true] at hd
  obtain ⟨taken, htaken, hd⟩ := exists_ok_of_bind hd
  cases hd
  exact List.mem_append_left _ (mem_instancePatternWords htaken hm htakes)

/-! ### What a whole script adds -/

/-- A wrapper is known as one behind its declarators. -/
theorem WrapperAfter.isMountWrapper {ds all : List Node} (h : WrapperAfter mounts ds value)
    (hds : ds.Sublist all) (hall : all.foldlM (declaratorWords mounts) {} = .ok words) :
    value.isMountWrapper mounts words.wrappers = true := by
  unfold Node.isMountWrapper
  rw [Bool.or_eq_true]
  cases h with
  | mounted hv => exact .inl hv
  | @word d target mounted _ a word init target_word is_mounted await awaited_word =>
    obtain ⟨_, before, after, -, -, hstep, hwithin⟩ := exists_step_of_foldlM (l := [])
      (S := InstanceWords.Within) (fun _ _ _ => within_of_declaratorWords) hds hall
    have hword : word ∈ words.wrappers :=
      hwithin.wrappers (init.wrappers_of_isMounted target_word is_mounted hstep)
    right
    rw [await, Option.any_some, awaited_word.kind, awaited_word.name, List.contains_iff_mem.2 hword]
    rfl

/-- An instance is known as one behind its declarators, whatever stands between them. -/
theorem InstanceAfter.isInstance {ds all : List Node} (h : InstanceAfter mounts ds value)
    (hds : ds.Sublist all) (hall : all.foldlM (declaratorWords mounts) {} = .ok words) :
    value.isInstance words.instances = .ok true := by
  induction h generalizing all words with
  | member kind name =>
    unfold Node.isInstance
    simp only [kind, name]
    rfl
  | taken wraps init pattern mem takes is_word =>
    obtain ⟨front, before, after, hfront, hbefore, hstep, hwithin⟩ := exists_step_of_foldlM
      (S := InstanceWords.Within) (fun _ _ _ => within_of_declaratorWords) hds hall
    have hwrapper := wraps.isMountWrapper hfront hbefore
    exact isInstance_of_isWord is_word
      (hwithin.instances (init.instances_of_isMountWrapper pattern mem takes hwrapper hstep))
  | again holds init target_word is_word ih =>
    obtain ⟨front, before, after, hfront, hbefore, hstep, hwithin⟩ := exists_step_of_foldlM
      (S := InstanceWords.Within) (fun _ _ _ => within_of_declaratorWords) hds hall
    have hinitial := ih hfront hbefore
    exact isInstance_of_isWord is_word
      (hwithin.instances (init.instances_of_isInstance target_word hinitial hstep))

theorem InstanceAfter.isInstance_instanceWords {root : Node} {ds : List Node} {instances : List Text}
    (h : InstanceAfter mounts ds value) (hds : ds.Sublist (root.findAll .variableDeclarator))
    (hwords : root.instanceWords mounts = .ok instances) :
    value.isInstance instances = .ok true := by
  obtain ⟨words, hall, hwords⟩ := exists_ok_of_bind hwords
  cases hwords
  exact h.isInstance hds hall

end

/-! ## Names that a test shows -/

/-- A chain of members leads from a value to an object. -/
def ChainFrom (value start : Node) : Prop :=
  Relation.ReflTransGen
    (fun n o : Node => n.kind = .memberExpression ∧ n.child? .object = some o) value start

/-- A call of `emitted`. -/
def CallsEmitted (call : Node) : Prop := (call.calledMethod? "emitted").isSome = true

/-- A node of a test shows a name: an event as the argument of `emitted`, as the property that a
chain of members from an expectation of emitted events is to have, or as a member of the collection
of them; a slot as a key in the options of a mount call; and an exposed member as a member of an
instance. -/
inductive Shows (mounts : List Text) (node root : Node) : Category → Text → Prop where
  | emitted {method a : Node} {n : Text} (called : node.calledMethod? "emitted" = some method)
      (first : node.callArguments.head? = some a) (constant : a.stringValue = .ok (some n)) :
      Shows mounts node root .events n
  | expected {method a object start e : Node} {n : Text}
      (called : node.calledMethod? "toHaveProperty" = some method)
      (first : node.callArguments.head? = some a) (constant : a.stringValue = .ok (some n))
      (asked : method.child? .object = some object) (chain : object.ChainFrom start)
      (call : start.kind = .callExpression) (callee : start.calleeName? = some "expect")
      (expected : start.callArguments.head? = some e) (emitted : e.unwrap.CallsEmitted) :
      Shows mounts node root .events n
  | collected {object : Node} {n : Text}
      (access : node.kind = .memberExpression ∨ node.kind = .subscriptExpression)
      (read : node.child? .object = some object) (emitted : object.unbracket.CallsEmitted)
      (bare : object.unbracket.callArguments = [])
      (constant : node.propertyName? = .ok (some n)) : Shows mounts node root .events n
  | slot {options option value member : Node} {n : Text} (call : node.kind = .callExpression)
      (callee : node.calleeName?.any mounts.contains = true)
      (found : node.mountOptions? = some options) (mem : option ∈ options.namedChildren)
      (pair : option.kind = .pair) (name : option.memberName? = .ok (some "slots"))
      (val : option.child? .value = some value) (object : value.unwrap.kind = .object)
      (mem_slots : member ∈ value.unwrap.namedChildren)
      (constant : member.memberName? = .ok (some n)) : Shows mounts node root .slots n
  | exposed {object : Node} {ds : List Node} {n : Text}
      (access : node.kind = .memberExpression ∨ node.kind = .subscriptExpression)
      (read : node.child? .object = some object)
      (declared : ds.Sublist (root.findAll .variableDeclarator))
      (instance_after : InstanceAfter mounts ds object)
      (constant : node.propertyName? = .ok (some n)) : Shows mounts node root .exposed n

section
variable {mounts instances : List Text} {root node call method object a start : Node} {n : Text}
  {e : Evidence} {c : Category}

/-! ### Calls -/

theorem chainStart?_of_chainFrom (h : object.ChainFrom start) (hs : start.kind ≠ .memberExpression) :
    object.chainStart? = some start := by
  induction h using Relation.ReflTransGen.head_induction_on with
  | refl => rw [chainStart?_eq, if_neg hs]
  | head hstep _ ih => rw [chainStart?_eq, if_pos hstep.1, hstep.2, Option.bind_some, ih]

theorem callsEmitted_of_calls (h : call.CallsEmitted) : call.callsEmitted = .ok true := by
  obtain ⟨method, hm⟩ := Option.isSome_iff_exists.1 h
  obtain ⟨hk, hf, -, hname⟩ := calledMethod?_eq_some_iff.1 hm
  unfold callsEmitted
  rw [if_pos hk, hf]
  simp only [hname]
  exact congrArg Except.ok (decide_eq_true rfl)

/-- A call of a method mentions what the method is asked with. -/
theorem callSightings_of_calledMethod? {name : Text} (h : call.calledMethod? name = some method) :
    call.callSightings mounts = call.methodSightings method := by
  obtain ⟨-, hf, hmember, -⟩ := calledMethod?_eq_some_iff.1 h
  exact callSightings_of_method hf hmember

theorem methodSightings_of_emitted (h : call.calledMethod? "emitted" = some method)
    (ha : call.callArguments.head? = some a) (hc : a.stringValue = .ok (some n)) :
    call.methodSightings method = .ok [⟨.events, n⟩] := by
  obtain ⟨rest, hargs⟩ := List.head?_eq_some_iff.1 ha
  obtain ⟨-, -, -, hname⟩ := calledMethod?_eq_some_iff.1 h
  unfold methodSightings
  rw [hname, hargs]
  simp only [bind, Except.bind, if_neg (by decide : ("emitted" : Text) ≠ "setProps"), if_true, hc]
  rfl

theorem methodSightings_of_expected (h : call.calledMethod? "toHaveProperty" = some method)
    (ha : call.callArguments.head? = some a) (hc : a.stringValue = .ok (some n))
    (he : expectsEmitted (method.child? .object) = .ok true) :
    call.methodSightings method = .ok [⟨.events, n⟩] := by
  obtain ⟨rest, hargs⟩ := List.head?_eq_some_iff.1 ha
  obtain ⟨-, -, -, hname⟩ := calledMethod?_eq_some_iff.1 h
  unfold methodSightings
  rw [hname, hargs]
  simp only [bind, Except.bind, if_neg (by decide : ("toHaveProperty" : Text) ≠ "setProps"),
    if_neg (by decide : ("toHaveProperty" : Text) ≠ "emitted"), if_true, hc, he]
  rfl

theorem expectsEmitted_of_chainFrom (h : object.ChainFrom start)
    (hk : start.kind = .callExpression) (hcallee : start.calleeName? = some "expect")
    (ha : start.callArguments.head? = some a) (he : a.unwrap.CallsEmitted) :
    expectsEmitted (some object) = .ok true := by
  obtain ⟨rest, hargs⟩ := List.head?_eq_some_iff.1 ha
  have hstart : object.chainStart? = some start :=
    chainStart?_of_chainFrom h (by rw [hk]; exact nofun)
  unfold expectsEmitted
  rw [Option.bind_some, hstart]
  simp only [hk, hcallee, and_self, if_true, hargs, callsEmitted_of_calls he]

/-- Slots among the options of a mount call are mentioned. -/
theorem mem_mountSightings_of_slots {options option value member : Node}
    (hfound : call.mountOptions? = some options) (hoption : option ∈ options.namedChildren)
    (hpair : option.kind = .pair) (hname : option.memberName? = .ok (some "slots"))
    (hval : option.child? .value = some value) (hobject : value.unwrap.kind = .object)
    (hmember : member ∈ value.unwrap.namedChildren) (hc : member.memberName? = .ok (some n))
    (he : call.mountSightings = .ok e) : ⟨.slots, n⟩ ∈ e := by
  refine mem_mountSightings hfound hoption (fun said hsaid => ?_) he
  have hmeans : option.mountOption =
      (do return { sightings := sightings .slots (← value.unwrap.memberNames) }) := by
    unfold mountOption
    rw [hname, hval]
    have hinputs : ¬ (("slots" : Text) = "props" ∨ ("slots" : Text) = "propsData") := by decide
    simp [hpair, hobject, hinputs, bind, Except.bind]
  rw [hmeans] at hsaid
  obtain ⟨names, hnames, hsaid⟩ := exists_ok_of_bind hsaid
  cases hsaid
  exact List.mem_map_of_mem (mem_memberNames hnames hmember hc)

/-! ### Members -/

theorem propertySighting_of_name (h : node.propertyName? = .ok (some n)) (hn : n ≠ []) :
    node.propertySighting c = .ok [⟨c, n⟩] := by
  unfold propertySighting
  rw [h]
  simp [hn, bind, Except.bind, pure, Except.pure, sightings]

theorem isEmittedCollection_of_calls (h : object.unbracket.CallsEmitted)
    (hargs : object.unbracket.callArguments = []) : object.isEmittedCollection = .ok true := by
  obtain ⟨method, hm⟩ := Option.isSome_iff_exists.1 h
  obtain ⟨hk, hf, hmember, hname⟩ := calledMethod?_eq_some_iff.1 hm
  unfold isEmittedCollection
  simp only [hk, hf, hmember, hargs, hname, List.isEmpty_nil, and_self, if_true]
  rfl

/-- What reading a member mentions is an event if the object is a collection of emitted events, and
an exposed member if it is an instance. -/
theorem exists_of_accessSightings (ho : node.child? .object = some object)
    (he : node.accessSightings instances = .ok e) : ∃ event member, e = event ++ member ∧
      (object.isEmittedCollection = .ok true → node.propertySighting .events = .ok event) ∧
      (object.isInstance instances = .ok true → node.propertySighting .exposed = .ok member) := by
  have hmember {event : Evidence} (he : (do
        let member ← if ← object.isInstance instances then node.propertySighting .exposed else pure []
        return event ++ member : Except Failure Evidence) = .ok e) :
      ∃ member, e = event ++ member ∧
        (object.isInstance instances = .ok true → node.propertySighting .exposed = .ok member) := by
    obtain ⟨b, hb, he⟩ := exists_ok_of_bind he
    cases b with
    | false =>
      cases he
      exact ⟨[], rfl, fun h => by cases hb.symm.trans h⟩
    | true =>
      obtain ⟨member, hm, he⟩ := exists_ok_of_bind he
      cases he
      exact ⟨member, rfl, fun _ => hm⟩
  unfold accessSightings at he
  simp only [ho] at he
  obtain ⟨b, hb, he⟩ := exists_ok_of_bind he
  cases b with
  | false =>
    obtain ⟨member, he, hm⟩ := hmember he
    exact ⟨[], member, he, fun h => (by cases hb.symm.trans h), hm⟩
  | true =>
    obtain ⟨event, hevent, he⟩ := exists_ok_of_bind he
    obtain ⟨member, he, hm⟩ := hmember he
    exact ⟨event, member, he, fun _ => hevent, hm⟩

theorem nodeSightings_of_access (h : node.kind = .memberExpression ∨ node.kind = .subscriptExpression) :
    node.nodeSightings mounts instances = node.accessSightings instances := by
  unfold nodeSightings
  rcases h with hk | hk <;> rw [hk]

theorem nodeSightings_of_call (h : node.kind = .callExpression) :
    node.nodeSightings mounts instances = node.callSightings mounts := by
  unfold nodeSightings
  rw [h]

/-! ### All that is shown -/

/-- What a node shows it mentions, with the words for instances of the whole script. -/
theorem Shows.mem_nodeSightings (h : node.Shows mounts root c n) (hn : n ≠ [])
    (hwords : root.instanceWords mounts = .ok instances)
    (he : node.nodeSightings mounts instances = .ok e) : ⟨c, n⟩ ∈ e := by
  cases h with
  | emitted called first constant =>
    rw [nodeSightings_of_call (calledMethod?_eq_some_iff.1 called).1,
      callSightings_of_calledMethod? called,
      methodSightings_of_emitted called first constant] at he
    cases he
    exact List.mem_cons_self
  | expected called first constant asked chain call callee expected emitted =>
    have hexpects := expectsEmitted_of_chainFrom chain call callee expected emitted
    rw [nodeSightings_of_call (calledMethod?_eq_some_iff.1 called).1,
      callSightings_of_calledMethod? called,
      methodSightings_of_expected called first constant (asked ▸ hexpects)] at he
    cases he
    exact List.mem_cons_self
  | collected access read emitted bare constant =>
    rw [nodeSightings_of_access access] at he
    obtain ⟨event, member, rfl, hevent, -⟩ := exists_of_accessSightings read he
    have hcollection := isEmittedCollection_of_calls emitted bare
    cases (propertySighting_of_name constant hn).symm.trans (hevent hcollection)
    exact List.mem_append_left _ List.mem_cons_self
  | slot call callee found mem pair name val object mem_slots constant =>
    rw [nodeSightings_of_call call, callSightings_of_mounts callee] at he
    exact mem_mountSightings_of_slots found mem pair name val object mem_slots constant he
  | exposed access read declared instance_after constant =>
    rw [nodeSightings_of_access access] at he
    obtain ⟨event, member, rfl, -, hmember⟩ := exists_of_accessSightings read he
    have hinstance := instance_after.isInstance_instanceWords declared hwords
    cases (propertySighting_of_name constant hn).symm.trans (hmember hinstance)
    exact List.mem_append_right _ List.mem_cons_self

/-- A script with evidence has that of all that its nodes show. -/
theorem Shows.mem_evidence (h : node.Shows mounts root c n) (hnode : node ∈ root.descendants)
    (hn : n ≠ []) (he : root.evidence mounts = .ok e) : ⟨c, n⟩ ∈ e := by
  obtain ⟨instances, found, hwords, hfound, hsub⟩ := nodeSightings_subset_evidence he hnode
  exact hsub _ (h.mem_nodeSightings hn hwords hfound)

end
end Node

/-- A name that is shown anywhere in a test is covered on every surface that declares it: the test
has evidence if its literals can be decoded, and whenever it has, the evidence and the report on the
surface mark the name. -/
theorem marks_of_shows (mounts : List Text) {T node : Node} {c : Category} {n : Text}
    (hnode : node ∈ T.descendants) (h : node.Shows mounts T c n) :
    ((T.Literals fun _ => False) → ∃ e, T.evidence mounts = .ok e) ∧
    (∀ e, T.evidence mounts = .ok e → ∀ s : Surface, n ∈ s.get c →
      (Report.ofEvidence s e).Marks c n) ∧
    ∀ source path, (Module.read source path).1.root = T → ∀ s : Surface, n ∈ s.get c →
      ((T.Literals fun _ => False) → ∃ r, Report.ofTest mounts s source path = .ok r) ∧
      ∀ r, Report.ofTest mounts s source path = .ok r → r.Marks c n := by
  have hliterals (hl : T.Literals fun _ => False) : ∃ e, T.evidence mounts = .ok e :=
    exists_ok_of_failsOnly hl.evidence
  have hmarks (e : Evidence) (he : T.evidence mounts = .ok e) (s : Surface) (hn : n ∈ s.get c) :
      (Report.ofEvidence s e).Marks c n := by
    have hne : n ≠ [] := fun hnil => (s.get c).nil_notMem (hnil ▸ hn)
    exact Report.marks_of_mem hn (h.mem_evidence hnode hne he)
  refine ⟨hliterals, hmarks, ?_⟩
  rintro source path rfl s hn
  rw [Report.ofTest_of_mem hn]
  refine ⟨fun hl => ?_, fun r hr => ?_⟩
  · obtain ⟨e, he⟩ : ∃ e, Evidence.ofTest mounts source path = .ok e := hliterals hl
    exact ⟨.ofEvidence s e, by rw [he]; rfl⟩
  · rcases he : Evidence.ofTest mounts source path with f | e
    · rw [he] at hr
      cases hr
    · rw [he] at hr
      cases hr
      exact hmarks e he s hn

/-! ## A member of an instance under its third word -/

/-- A test that takes an instance out of a wrapper, gives it another word and reads a member. -/
def showingSource : List Char :=
  "const w = await mount(C)\nconst \x7b vm: a \x7d = w\nconst b = (a as any)!\nb.focus()\n".toList

/-- The declarators of the test, in document order. -/
def showingDeclarators : List Node :=
  (Module.read showingSource none).1.root.findAll .variableDeclarator

set_option synthInstance.maxSize 2048 in
/-- The parts of the test that are looked at. -/
theorem showing_spec :
    (∀ x ∈ (Module.read showingSource none).1.root.descendants, x.stringValue.toBool = true) ∧
    showingDeclarators.length = 3 ∧
    (∃ c ∈ showingDeclarators[0]?.toList, ∃ w ∈ (c.child? .name).toList,
      ∃ mounted ∈ (c.child? .value).toList, w.IsWord "w" ∧ mounted.isMounted givingMounts = true) ∧
    (∃ d ∈ showingDeclarators[1]?.toList, ∃ pattern ∈ (d.child? .name).toList,
      ∃ wrapper ∈ (d.child? .value).toList, pattern.kind = .objectPattern ∧
      ∃ awaited ∈ wrapper.awaited?.toList, awaited.IsWord "w" ∧
      ∃ m ∈ pattern.namedChildren, m.kind = .pairPattern ∧
      m.memberName?.toOption = some (some instanceMember) ∧
      ∃ a ∈ (m.child? .value).toList, a.IsWord "a") ∧
    (∃ e ∈ showingDeclarators[2]?.toList, ∃ target ∈ (e.child? .name).toList,
      ∃ again ∈ (e.child? .value).toList, target.IsWord "b" ∧ again.unwrap.IsWord "a") ∧
    ∃ node ∈ (Module.read showingSource none).1.root.descendants, node.kind = .memberExpression ∧
      node.propertyName?.toOption = some (some ("focus" : Text)) ∧
      ∃ object ∈ (node.child? .object).toList, object.unwrap.IsWord "b" := by
  decide +kernel

/-- Behind its three declarators, the third word of the test is an instance. -/
theorem instanceAfter_showing {value : Node} (h : value.unwrap.IsWord "b") :
    Node.InstanceAfter givingMounts showingDeclarators value := by
  obtain ⟨-, hlength, ⟨c, hc, w, hw, mounted, hmounted, hword, hcall⟩, ⟨d, hd, pattern, hpattern,
    wrapper, hwrapper, hkind, awaited, hawaited, hawaits, m, hm, hpair, hvm, a, ha, hin⟩,
    ⟨e, he, target, htarget, again, hagain, htargets, hvalue⟩, -⟩ := showing_spec
  obtain ⟨c', d', e', hall⟩ := List.length_eq_three.1 hlength
  rw [hall] at hc hd he ⊢
  simp only [Option.mem_toList] at hc hw hmounted hd hpattern hwrapper hawaited ha he htarget hagain
  cases hc; cases hd; cases he
  have hwrap : Node.WrapperAfter givingMounts [c] wrapper :=
    .word ⟨hw, hmounted⟩ hword hcall hawaited hawaits
  have htaken : Node.InstanceAfter givingMounts ([c] ++ [d]) again :=
    .taken hwrap ⟨hpattern, hwrapper⟩ hkind hm (.pair hpair (ok_of_toOption hvm) ha hin) hvalue
  exact .again htaken ⟨htarget, hagain⟩ htargets h

/-- The member that the test reads is shown. -/
theorem shows_showing : ∃ node ∈ (Module.read showingSource none).1.root.descendants,
    node.Shows givingMounts (Module.read showingSource none).1.root .exposed "focus" := by
  obtain ⟨-, -, -, -, -, node, hnode, hk, hname, object, hobject, hb⟩ := showing_spec
  exact ⟨node, hnode, .exposed (.inl hk) (Option.mem_toList.1 hobject) (List.Sublist.refl _)
    (instanceAfter_showing hb) (ok_of_toOption hname)⟩

theorem literals_showing : (Module.read showingSource none).1.root.Literals fun _ => False := by
  intro x hx f hf
  have hread := showing_spec.1 x hx
  rw [hf] at hread
  cases hread

/-- The test covers the member that it reads. -/
theorem marks_of_shows_showing :
    ∃ node ∈ (Module.read showingSource none).1.root.descendants, ∃ s : Surface,
    node.Shows givingMounts (Module.read showingSource none).1.root .exposed "focus" ∧
    ((Module.read showingSource none).1.root.Literals fun _ => False) ∧
    ("focus" : Text) ∈ s.exposed ∧
    ∃ r, Report.ofTest givingMounts s showingSource none = .ok r ∧ r.Marks .exposed "focus" := by
  obtain ⟨node, hnode, hshows⟩ := shows_showing
  have hin : ("focus" : Text) ∈ (Surface.ofLists fun _ => ["focus"]).exposed := by decide
  obtain ⟨-, -, hreport⟩ := marks_of_shows givingMounts hnode hshows
  obtain ⟨hreports, hmarks⟩ := hreport showingSource none rfl (.ofLists fun _ => ["focus"]) hin
  obtain ⟨r, hr⟩ := hreports literals_showing
  exact ⟨node, hnode, _, hshows, literals_showing, hin, r, hr, hmarks r hr⟩

end SurfaceCoverage
