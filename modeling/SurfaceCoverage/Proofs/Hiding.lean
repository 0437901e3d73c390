import SurfaceCoverage.Proofs.Wrapping
/-!
# What wrappers hide

Most values are read under their wrappers, but three are not: the name of an event, the objects of a
chain from an expectation to its method, and, by casts, the collection of emitted events. There a
wrapper hides all that is mentioned, or nothing. A node is seen through if it mentions what it
mentions with all wrappers looked through, as it is without wrappers in these places. No node is
seen through for a wrapper more.
-/

namespace SurfaceCoverage.Node

/-! ## What is hidden by a wrapper -/

/-- The object that a chain of members starts from, wrappers on the way looked through. -/
def origin? (n : Node) : Option Node :=
  if n.unwrap.kind = .memberExpression then
    match _h : n.unwrap.child? .object with
    | some object => origin? object
    | none => none
  else some n.unwrap
termination_by n.size
decreasing_by
  have := size_lt_of_mem_children (List.mem_of_find?_eq_some _h)
  have := size_unwrap_le n
  omega

/-- The method of a call, if it has a name. -/
def calledMethod? (call : Node) (name : Text) : Option Node :=
  if call.kind = .callExpression then
    (call.child? .function).filter fun method =>
      decide (method.kind = .memberExpression ∧ method.propertyName? = .ok (some name))
  else none

/-- Whether a node mentions what it mentions with all wrappers looked through. -/
structure SeenThrough (n : Node) : Prop where
  emitted : (n.calledMethod? "emitted").isSome = true → ∀ a ∈ n.callArguments.head?,
    a.eventMention = a.unwrap.eventMention
  expected : ∀ method ∈ n.calledMethod? "toHaveProperty", ∀ a ∈ n.callArguments.head?,
    a.propertyExpectation (method.child? .object) =
      a.unwrap.propertyExpectation ((method.child? .object).bind origin?)
  collected : n.kind = .memberExpression ∨ n.kind = .subscriptExpression →
    ∀ o ∈ n.child? .object, n.propertySighting .events = .ok [] ∨
      o.isEmittedCollection = o.unwrap.isEmittedCollection

instance (n : Node) : Decidable n.SeenThrough :=
  decidable_of_iff (_ ∧ _ ∧ _) ⟨fun h => ⟨h.1, h.2.1, h.2.2⟩, fun h => ⟨h.1, h.2, h.3⟩⟩

/-- How many nodes of a script are not seen through. -/
def hidden (n : Node) : Nat := n.descendants.countP fun c => !decide c.SeenThrough

/-- A node without a wrapper where one can hide something: around the name of an event, in the chain
of an expectation, and, if it is a cast, around the collection of emitted events. -/
structure Bare (n : Node) : Prop where
  name : (n.calledMethod? "emitted").isSome = true ∨
    (n.calledMethod? "toHaveProperty").isSome = true →
      ∀ a ∈ n.callArguments.head?, a.isWrapper = false
  chain : ∀ method ∈ n.calledMethod? "toHaveProperty",
    ∀ s ∈ (method.child? .object).bind chainStart?, s.isWrapper = false
  object : ∀ o ∈ n.child? .object, o.unbracket.isWrapper = false ∨
    o.unwrap.isEmittedCollection = .ok false

instance (n : Node) : Decidable n.Bare :=
  decidable_of_iff (_ ∧ _ ∧ _) ⟨fun h => ⟨h.1, h.2.1, h.2.2⟩, fun h => ⟨h.1, h.2, h.3⟩⟩

/-! ## All or nothing -/

section
variable {α : Type} {x x' y z : α}

/-- What is read without a wrapper is read with it, or nothing is. -/
theorem eq_of_hidden (h : x' = z ∨ x = x') (hx : x = z ∨ x = y) (hs : x = y → x' = y) : x = x' := by
  rcases h with rfl | rfl
  · rcases hx with hx | hx
    · exact hx
    · exact hx.trans (hs hx).symm
  · rfl

theorem eq_of_seen (h : x' = z ∨ x = x') (hx : x = z ∨ x = y) (hs : x' = y) : x = y := by
  rcases h with rfl | rfl
  · rcases hx with rfl | hx
    · exact hs
    · exact hx
  · exact hs

end

section
variable {n n' c c' : Node} {k : Kind}

/-! ## Literals under wrappers -/

theorem isWrapper_of_isLiteral (h : n.isLiteral = true) : n.isWrapper = false := by
  rcases kind_of_isLiteral h with hk | hk | hk <;> rw [isWrapper, hk] <;> rfl

theorem unwrap_of_isLiteral (h : n.isLiteral = true) : n.unwrap = n :=
  unwrap_of_not_isWrapper (isWrapper_of_isLiteral h)

/-- A value under wrappers is read as a literal or not at all. -/
theorem stringValue_or (n : Node) :
    n.stringValue = n.unwrap.stringValue ∨ n.stringValue = .ok none := by
  by_cases hl : n.isLiteral = true
  · rw [unwrap_of_isLiteral hl]
    exact .inl rfl
  · right
    rw [stringValue, if_neg hl]

/-- A literal is not wrapped. -/
theorem Held.alike_of_isLiteral (h : Held k c c') (hl : c'.isLiteral = true) : c.Alike c' := by
  cases h with
  | alike h => exact h
  | wrapped w => cases (isWrapper_of_isLiteral hl).symm.trans (isWrapper_wrap w c)

/-! ## Chains of members -/

theorem origin?_eq (n : Node) : n.origin? =
    if n.unwrap.kind = .memberExpression then (n.unwrap.child? .object).bind origin?
    else some n.unwrap := by
  rw [origin?]
  split
  · split
    · rename_i c hc
      rw [hc]
      rfl
    · rename_i hc
      rw [hc]
      rfl
  · rfl

/-- Chains of members start from objects that are alike under their wrappers. -/
theorem origin?_congr (h : n.unwrap.Alike n'.unwrap) : Option.Rel Alike n.origin? n'.origin? := by
  fun_induction origin? n generalizing n' with
  | case1 n hk o ho ih =>
    obtain ⟨o', ho', hoo⟩ := exists_of_rel (h.held_child .object) ho
    rw [origin?_eq n', if_pos (h.kind_eq ▸ hk), ho']
    exact ih hoo.unwrap
  | case2 n hk ho =>
    rw [origin?_eq n', if_pos (h.kind_eq ▸ hk), eq_none_of_rel (h.held_child .object) ho]
    exact .none
  | case3 n hk =>
    rw [origin?_eq n', if_neg (h.kind_eq ▸ hk)]
    exact .some h

theorem kind_of_origin? {s : Node} (h : n.origin? = some s) : s.kind ≠ .memberExpression := by
  fun_induction origin? n with
  | case1 n hk o ho ih => exact ih h
  | case2 n hk ho => cases h
  | case3 n hk =>
    cases h
    exact hk

theorem kind_of_chainStart? {s : Node} (h : n.chainStart? = some s) :
    s.kind ≠ .memberExpression := by
  fun_induction chainStart? n with
  | case1 n hk o ho ih => exact ih h
  | case2 n hk ho => cases h
  | case3 n hk =>
    cases h
    exact hk

theorem unwrap_of_member (h : n.kind = .memberExpression) : n.unwrap = n :=
  unwrap_of_not_isWrapper (by rw [isWrapper, h]; rfl)

/-- A chain without wrappers starts where it starts with wrappers looked through. -/
theorem origin?_of_chainStart? (h : ∀ s ∈ n.chainStart?, s.isWrapper = false) :
    n.origin? = n.chainStart? := by
  fun_induction chainStart? n with
  | case1 n hk o ho ih =>
    rw [origin?_eq, unwrap_of_member hk, if_pos hk, ho]
    exact ih h
  | case2 n hk ho =>
    rw [origin?_eq, unwrap_of_member hk, if_pos hk, ho]
    rfl
  | case3 n hk => rw [origin?_eq, unwrap_of_not_isWrapper (h n rfl), if_neg hk]

/-- A chain that starts without wrappers was not wrapped. -/
theorem Held.alike_of_chainStart? (h : Held k n n')
    (hs : ∀ s ∈ n'.chainStart?, s.isWrapper = false) : n.Alike n' := by
  cases h with
  | alike h => exact h
  | wrapped w =>
    have hk : (w.wrap n).kind ≠ .memberExpression := by cases w <;> nofun
    rw [chainStart?_eq, if_neg hk] at hs
    cases (hs _ rfl).symm.trans (isWrapper_wrap w n)

theorem Held.chainStart? (h : Held k n n') (hs : ∀ s ∈ n'.chainStart?, s.isWrapper = false) :
    Option.Rel Alike n.chainStart? n'.chainStart? := by
  fun_induction Node.chainStart? n generalizing n' k with
  | case1 n hk o ho ih =>
    have h := h.alike_of_chainStart? hs
    obtain ⟨o', ho', hoo⟩ := exists_of_rel (h.held_child .object) ho
    rw [chainStart?_eq n', if_pos (h.kind_eq ▸ hk), ho'] at hs ⊢
    exact ih hoo hs
  | case2 n hk ho =>
    have h := h.alike_of_chainStart? hs
    rw [chainStart?_eq n', if_pos (h.kind_eq ▸ hk), eq_none_of_rel (h.held_child .object) ho]
    exact .none
  | case3 n hk =>
    have h := h.alike_of_chainStart? hs
    rw [chainStart?_eq n', if_neg (h.kind_eq ▸ hk)]
    exact .some h

/-! ## Expectations -/

variable {a a' : Node} {o o' : Option Node}

theorem bind_chainStart? {s : Option Node} (h : ∀ n ∈ s, n.kind ≠ .memberExpression) :
    s.bind Node.chainStart? = s := by
  cases s with
  | none => rfl
  | some n => rw [Option.bind_some, chainStart?_eq, if_neg (h n rfl)]

/-- A chain whose start is not hidden was not wrapped. -/
theorem rel_chainStart? (h : Option.Rel (Held k) o o')
    (hs : ∀ s ∈ o'.bind Node.chainStart?, s.isWrapper = false) :
    Option.Rel Alike (o.bind Node.chainStart?) (o'.bind Node.chainStart?) := by
  cases h with
  | none => exact .none
  | some h => exact h.chainStart? hs

/-- A wrapper in a chain hides what the chain expects. -/
theorem expectsEmitted_of_isWrapper {s : Node} (hs : o.bind Node.chainStart? = some s)
    (hw : s.isWrapper = true) : expectsEmitted o = .ok false := by
  have hk : s.kind ≠ .callExpression := by
    intro hk
    rw [isWrapper, hk] at hw
    cases hw
  unfold expectsEmitted
  rw [hs]
  simp only [hk, false_and, if_false]

theorem expectsEmitted_of_chainStart?
    (h : ∀ s ∈ o.bind Node.chainStart?, s.isWrapper = false) :
    expectsEmitted o = expectsEmitted (o.bind origin?) := by
  cases o with
  | none => rfl
  | some n =>
    unfold expectsEmitted
    rw [Option.bind_some, Option.bind_some, origin?_of_chainStart? h,
      bind_chainStart? fun s hs => kind_of_chainStart? hs]

/-- A chain expects nothing, or what it expects with wrappers looked through. -/
theorem expectsEmitted_or (o : Option Node) :
    expectsEmitted o = .ok false ∨ expectsEmitted o = expectsEmitted (o.bind origin?) := by
  by_cases hw : ∃ s, o.bind Node.chainStart? = some s ∧ s.isWrapper = true
  · obtain ⟨s, hs, hw⟩ := hw
    exact .inl (expectsEmitted_of_isWrapper hs hw)
  · right
    refine expectsEmitted_of_chainStart? fun s hs => ?_
    simpa using fun h => hw ⟨s, hs, h⟩

theorem expectsEmitted_origin? (h : Option.Rel (Held k) o o') :
    expectsEmitted (o.bind origin?) = expectsEmitted (o'.bind origin?) := by
  have horigin : Option.Rel Alike (o.bind origin?) (o'.bind origin?) :=
    rel_bind h fun _ _ ho => origin?_congr ho.unwrap
  have hkind (p : Option Node) (n : Node) (hn : n ∈ p.bind origin?) :
      n.kind ≠ .memberExpression := by
    obtain ⟨m, -, hm⟩ := Option.bind_eq_some_iff.1 hn
    exact kind_of_origin? hm
  refine expectsEmitted_congr (R := Alike) ?_
  rwa [bind_chainStart? (hkind o), bind_chainStart? (hkind o')]

theorem propertyExpectation_congr (h : a.stringValue = a'.stringValue) (o : Option Node) :
    a.propertyExpectation o = a'.propertyExpectation o := by
  unfold propertyExpectation
  rw [h]

/-- Only a name that cannot be read is told apart from nothing where nothing is expected. -/
theorem propertyExpectation_of_expectsEmitted (h : expectsEmitted o = .ok false) (a : Node)
    (o' : Option Node) :
    a.propertyExpectation o = .ok [] ∨ a.propertyExpectation o = a.propertyExpectation o' := by
  unfold propertyExpectation
  rcases a.stringValue with f | v
  · exact .inr rfl
  · left
    cases v with
    | none => rfl
    | some event =>
      rw [h]
      rfl

theorem propertyExpectation_or (a : Node) (o : Option Node) : a.propertyExpectation o = .ok [] ∨
    a.propertyExpectation o = a.unwrap.propertyExpectation (o.bind origin?) := by
  rcases stringValue_or a with ha | ha
  · rw [propertyExpectation_congr ha.symm]
    rcases expectsEmitted_or o with he | he
    · exact propertyExpectation_of_expectsEmitted he a _
    · right
      unfold propertyExpectation
      rw [he]
  · left
    unfold propertyExpectation
    rw [ha]
    rfl

/-- A wrapper around a name or in a chain hides what the chain expects, or nothing. -/
theorem Held.propertyExpectation (h : Held k a a') {k' : Kind} (ho : Option.Rel (Held k') o o') :
    a'.propertyExpectation o' = .ok [] ∨ a.propertyExpectation o = a'.propertyExpectation o' := by
  by_cases hl : a'.isLiteral = true
  · rw [propertyExpectation_congr (stringValue_congr (h.alike_of_isLiteral hl))]
    by_cases hw : ∃ s, o'.bind Node.chainStart? = some s ∧ s.isWrapper = true
    · obtain ⟨s, hs, hw⟩ := hw
      have he := expectsEmitted_of_isWrapper hs hw
      exact (propertyExpectation_of_expectsEmitted he a' o).imp_right Eq.symm
    · right
      have hchain : ∀ s ∈ o'.bind Node.chainStart?, s.isWrapper = false := fun s hs => by
        simpa using fun h => hw ⟨s, hs, h⟩
      unfold Node.propertyExpectation
      rw [expectsEmitted_congr (rel_chainStart? ho hchain)]
  · left
    unfold Node.propertyExpectation
    rw [stringValue, if_neg hl]
    rfl

theorem Held.propertyExpectation_through (h : Held k a a') {k' : Kind}
    (ho : Option.Rel (Held k') o o') : a.unwrap.propertyExpectation (o.bind origin?) =
      a'.unwrap.propertyExpectation (o'.bind origin?) := by
  rw [propertyExpectation_congr (stringValue_congr h.unwrap)]
  unfold Node.propertyExpectation
  rw [expectsEmitted_origin? ho]

/-! ## Names of events -/

theorem eventMention_or (a : Node) :
    a.eventMention = .ok [] ∨ a.eventMention = a.unwrap.eventMention := by
  unfold eventMention
  rcases stringValue_or a with ha | ha
  · rw [ha]
    exact .inr rfl
  · rw [ha]
    exact .inl rfl

/-- A wrapper around the name of an event hides it. -/
theorem Held.eventMention (h : Held k a a') :
    a'.eventMention = .ok [] ∨ a.eventMention = a'.eventMention := by
  unfold Node.eventMention
  by_cases hl : a'.isLiteral = true
  · rw [stringValue_congr (h.alike_of_isLiteral hl)]
    exact .inr rfl
  · rw [stringValue, if_neg hl]
    exact .inl rfl

theorem Held.eventMention_through (h : Held k a a') :
    a.unwrap.eventMention = a'.unwrap.eventMention := by
  unfold Node.eventMention
  rw [stringValue_congr h.unwrap]

/-! ## Collections of emitted events -/

theorem exists_isEmittedCollection (n : Node) : ∃ b, n.isEmittedCollection = .ok b := by
  unfold isEmittedCollection
  dsimp only
  split
  · rename_i f _ _
    by_cases hf : f.kind = .memberExpression ∧ n.unbracket.callArguments.isEmpty = true
    · rw [if_pos hf]
      obtain ⟨name, hname⟩ : ∃ name, f.propertyName? = .ok name := by
        unfold propertyName?
        rw [hf.1]
        dsimp only
        split
        · split
          · exact ⟨_, rfl⟩
          · exact ⟨_, rfl⟩
        · exact ⟨_, rfl⟩
      rw [hname]
      exact ⟨_, rfl⟩
    · rw [if_neg hf]
      exact ⟨_, rfl⟩
  · exact ⟨_, rfl⟩

theorem kind_of_isEmittedCollection (h : n.isEmittedCollection = .ok true) :
    n.unbracket.kind = .callExpression := by
  unfold isEmittedCollection at h
  dsimp only at h
  by_contra hk
  split at h
  · exact hk ‹_›
  · cases h

theorem unwrap_eq_unbracket (h : n.unbracket.isWrapper = false) : n.unwrap = n.unbracket := by
  fun_induction Node.unbracket n with
  | case1 n c hc ih =>
    have hwrapped : n.wrapped? = some c := by
      unfold bracketed? at hc
      unfold wrapped? isWrapper
      split at hc
      · rename_i hk
        rcases hk with hk | hk <;> simpa [hk] using hc
      · cases hc
    rw [unwrap_eq, hwrapped]
    exact ih h
  | case2 n hc => exact unwrap_of_not_isWrapper h

/-- Where no cast stands around a value, it is a collection just if it is one under its wrappers. -/
theorem isEmittedCollection_of_unbracket (h : n.unbracket.isWrapper = false) :
    n.isEmittedCollection = n.unwrap.isEmittedCollection := by
  have hagain : n.unwrap.unbracket = n.unbracket := by
    rw [unwrap_eq_unbracket h, unbracket_of_not_isWrapper h]
  unfold isEmittedCollection
  rw [hagain]

theorem unbracket_of_isEmittedCollection (h : n.isEmittedCollection = .ok true) :
    n.unbracket.isWrapper = false := by
  rw [isWrapper, kind_of_isEmittedCollection h]
  rfl

theorem isEmittedCollection_or (n : Node) : n.isEmittedCollection = .ok false ∨
    n.isEmittedCollection = n.unwrap.isEmittedCollection := by
  obtain ⟨b, hb⟩ := exists_isEmittedCollection n
  cases b with
  | false => exact .inl hb
  | true =>
    exact .inr (isEmittedCollection_of_unbracket (unbracket_of_isEmittedCollection hb))

/-- A cast around a collection of emitted events hides it. -/
theorem Held.isEmittedCollection (h : Held k c c') :
    c'.isEmittedCollection = .ok false ∨ c.isEmittedCollection = c'.isEmittedCollection := by
  obtain ⟨b, hb⟩ := exists_isEmittedCollection c'
  cases b with
  | false => exact .inl hb
  | true =>
    have hcast := unbracket_of_isEmittedCollection hb
    exact .inr (isEmittedCollection_congr (h.unbracket hcast))

theorem Held.isEmittedCollection_through (h : Held k c c') :
    c.unwrap.isEmittedCollection = c'.unwrap.isEmittedCollection :=
  isEmittedCollection_congr (unbracket_congr h.unwrap)

/-! ## Nodes that are seen through -/

theorem calledMethod?_eq_some_iff {name : Text} {method : Node} :
    n.calledMethod? name = some method ↔ n.kind = .callExpression ∧
      n.child? .function = some method ∧ method.kind = .memberExpression ∧
      method.propertyName? = .ok (some name) := by
  unfold calledMethod?
  split
  · rename_i hk
    simp only [hk, Option.filter_eq_some_iff, decide_eq_true_eq, true_and]
  · rename_i hk
    simp only [hk, false_and, reduceCtorEq]

theorem Alike.calledMethod? (h : n.Alike n') {name : Text} {method : Node}
    (hm : n.calledMethod? name = some method) :
    ∃ method', n'.calledMethod? name = some method' ∧ method.Alike method' := by
  obtain ⟨hk, hf, hmember, hname⟩ := calledMethod?_eq_some_iff.1 hm
  obtain ⟨method', hf', hmm⟩ := exists_child h hf nofun (by rw [hk]; rfl)
  have hname' : method'.propertyName? = .ok (some name) := propertyName?_congr hmm ▸ hname
  exact ⟨method',
    calledMethod?_eq_some_iff.2 ⟨h.kind_eq ▸ hk, hf', hmm.kind_eq ▸ hmember, hname'⟩, hmm⟩

theorem kind_of_calledMethod? {name : Text} (h : (n.calledMethod? name).isSome = true) :
    n.kind = .callExpression := by
  obtain ⟨method, hm⟩ := Option.isSome_iff_exists.1 h
  exact (calledMethod?_eq_some_iff.1 hm).1

/-- A call is of one method. -/
theorem eq_of_calledMethod? {name name' : Text} {method method' : Node}
    (h : n.calledMethod? name = some method) (h' : n.calledMethod? name' = some method') :
    name = name' := by
  obtain ⟨-, hf, -, hname⟩ := calledMethod?_eq_some_iff.1 h
  obtain ⟨-, hf', -, hname'⟩ := calledMethod?_eq_some_iff.1 h'
  cases hf.symm.trans hf'
  cases hname.symm.trans hname'
  rfl

theorem not_access_of_kind (h : n.kind = .callExpression) :
    ¬ (n.kind = .memberExpression ∨ n.kind = .subscriptExpression) := by
  simp [h]

theorem Alike.held_argument (h : n.Alike n') (hk : n.kind = .callExpression) :
    Option.Rel (Held .arguments) n.callArguments.head? n'.callArguments.head? :=
  rel_head? (h.held_callArguments hk)

theorem Alike.propertySighting_eq (h : n.Alike n') (c : Category) :
    n.propertySighting c = n'.propertySighting c := by
  unfold propertySighting
  rw [propertyName?_congr h]

/-- A node that is seen through with a wrapper below it is seen through without. -/
theorem SeenThrough.of_alike (h : n.Alike n') (hs : n'.SeenThrough) : n.SeenThrough where
  emitted hm a ha := by
    obtain ⟨a', ha', haa⟩ := exists_of_rel (h.held_argument (kind_of_calledMethod? hm)) ha
    obtain ⟨method, hm⟩ := Option.isSome_iff_exists.1 hm
    obtain ⟨method', hm', -⟩ := h.calledMethod? hm
    refine eq_of_seen haa.eventMention (eventMention_or a) ?_
    rw [haa.eventMention_through, hs.emitted (Option.isSome_iff_exists.2 ⟨_, hm'⟩) a' ha']
  expected method hm a ha := by
    obtain ⟨method', hm', hmm⟩ := h.calledMethod? hm
    obtain ⟨a', ha', haa⟩ := exists_of_rel (h.held_argument (calledMethod?_eq_some_iff.1 hm).1) ha
    have hobject := hmm.held_child .object
    refine eq_of_seen (haa.propertyExpectation hobject) (propertyExpectation_or a _) ?_
    rw [haa.propertyExpectation_through hobject, hs.expected method' hm' a' ha']
  collected hk o ho := by
    obtain ⟨o', ho', hoo⟩ := exists_of_rel (h.held_child .object) ho
    rw [h.propertySighting_eq]
    refine (hs.collected (h.kind_eq ▸ hk) o' ho').imp_right fun hc => ?_
    refine eq_of_seen hoo.isEmittedCollection (isEmittedCollection_or o) ?_
    rw [hoo.isEmittedCollection_through, hc]

theorem Bare.seenThrough (h : n.Bare) : n.SeenThrough where
  emitted hm a ha := by rw [unwrap_of_not_isWrapper (h.name (.inl hm) a ha)]
  expected method hm a ha := by
    have hname := h.name (.inr (Option.isSome_iff_exists.2 ⟨method, hm⟩)) a ha
    unfold Node.propertyExpectation
    rw [unwrap_of_not_isWrapper hname, expectsEmitted_of_chainStart? (h.chain method hm)]
  collected _ o ho := by
    right
    rcases h.object o ho with hcast | hcollection
    · exact isEmittedCollection_of_unbracket hcast
    · rcases isEmittedCollection_or o with hnothing | heq
      · rw [hnothing, hcollection]
      · exact heq

/-- A script is hidden nowhere if all its nodes are bare. -/
theorem hidden_of_bare (h : ∀ c ∈ n.descendants, c.Bare) : n.hidden = 0 := by
  rw [hidden, List.countP_eq_zero]
  intro c hc
  simp [(h c hc).seenThrough]

/-! ### One way to hide -/

theorem seenThrough_of_emitted {method : Node} (hm : n.calledMethod? "emitted" = some method)
    (h : ∀ a ∈ n.callArguments.head?, a.eventMention = a.unwrap.eventMention) : n.SeenThrough where
  emitted _ := h
  expected method' hm' := by cases eq_of_calledMethod? hm hm'
  collected hk := (not_access_of_kind (calledMethod?_eq_some_iff.1 hm).1 hk).elim

theorem seenThrough_of_expected {method : Node}
    (hm : n.calledMethod? "toHaveProperty" = some method)
    (h : ∀ a ∈ n.callArguments.head?, a.propertyExpectation (method.child? .object) =
      a.unwrap.propertyExpectation ((method.child? .object).bind origin?)) : n.SeenThrough where
  emitted hm' := by
    obtain ⟨method', hm'⟩ := Option.isSome_iff_exists.1 hm'
    cases eq_of_calledMethod? hm hm'
  expected method' hm' := by
    cases hm.symm.trans hm'
    exact h
  collected hk := (not_access_of_kind (calledMethod?_eq_some_iff.1 hm).1 hk).elim

theorem seenThrough_of_not_call (hk : n.kind ≠ .callExpression)
    (h : n.kind = .memberExpression ∨ n.kind = .subscriptExpression → ∀ o ∈ n.child? .object,
      n.propertySighting .events = .ok [] ∨
        o.isEmittedCollection = o.unwrap.isEmittedCollection) : n.SeenThrough where
  emitted hm := (hk (kind_of_calledMethod? hm)).elim
  expected _ hm := (hk (calledMethod?_eq_some_iff.1 hm).1).elim
  collected := h

theorem seenThrough_of_not_mentions (h : n.kind.mentions = false) : n.SeenThrough := by
  refine seenThrough_of_not_call (fun hk => ?_) fun hk => ?_
  · rw [hk] at h
    cases h
  · rcases hk with hk | hk <;> rw [hk] at h <;> cases h

end
end SurfaceCoverage.Node
