import SurfaceCoverage.Module
import SurfaceCoverage.Proofs.Attaining
import SurfaceCoverage.Proofs.Hiding
/-!
# Casts mention the same

A test is written with casts to `any`, non-null marks and parentheses around the values that it
hands to a component. Each node of the test mentions the same with them and without, if it is seen
through, and no more in any case, and the declarators give the instance the same words. So it is
with the whole script, for one wrapper, and by induction for any number of them.
-/

namespace SurfaceCoverage.Node

section
variable {n n' : Node} {mounts words : List Text}

/-! ## What a node mentions -/

theorem Alike.callSightings_eq (h : n.Alike n') (hk : n.kind = .callExpression)
    (hs : n.SeenThrough → n'.SeenThrough) : n.callSightings mounts = n'.callSightings mounts := by
  refine callSightings_rel (fun _ => rfl) h hk fun method method' hf hf' hmm hmember => ?_
  have hcalls {name : Text} (hname : method.propertyName? = .ok (some name)) :
      n.calledMethod? name = some method ∧ n'.calledMethod? name = some method' :=
    ⟨calledMethod?_eq_some_iff.2 ⟨hk, hf, hmember, hname⟩, calledMethod?_eq_some_iff.2
      ⟨h.kind_eq ▸ hk, hf', hmm.kind_eq ▸ hmember, propertyName?_congr hmm ▸ hname⟩⟩
  refine methodSightings_rel (fun _ => rfl) h hmm hk (fun hname a ha a' ha' => ?_)
    fun hname a ha a' ha' => ?_
  · obtain ⟨hm, hm'⟩ := hcalls hname
    have haa := rel_of_mem (h.held_argument hk) ha ha'
    refine eq_of_hidden haa.eventMention (eventMention_or a) fun hseen => ?_
    have hseen' := hs <| seenThrough_of_emitted hm fun b hb => by
      cases Option.mem_unique ha hb
      exact hseen
    rw [haa.eventMention_through]
    exact hseen'.emitted (Option.isSome_iff_exists.2 ⟨_, hm'⟩) a' ha'
  · obtain ⟨hm, hm'⟩ := hcalls hname
    have haa := rel_of_mem (h.held_argument hk) ha ha'
    have hobject := hmm.held_child .object
    refine eq_of_hidden (haa.propertyExpectation hobject) (propertyExpectation_or a _)
      fun hseen => ?_
    have hseen' := hs <| seenThrough_of_expected hm fun b hb => by
      cases Option.mem_unique ha hb
      exact hseen
    rw [haa.propertyExpectation_through hobject]
    exact hseen'.expected method' hm' a' ha'

/-- A call mentions no more when a value below it is wrapped. -/
theorem Alike.callSightings_attained (h : n.Alike n') (hk : n.kind = .callExpression) :
    Attains (· ⊆ ·) (n'.callSightings mounts) (n.callSightings mounts) := by
  refine callSightings_rel (S := fun e e' => Attains (· ⊆ ·) e' e) (fun _ => attains_refl) h hk
    fun method method' _ _ hmm _ => ?_
  refine methodSightings_rel (S := fun e e' => Attains (· ⊆ ·) e' e) (fun _ => attains_refl) h hmm
    hk (fun _ a ha a' ha' => ?_) fun _ a ha a' ha' => ?_
  · rcases (rel_of_mem (h.held_argument hk) ha ha').eventMention with hnothing | heq
    · rw [hnothing]
      exact attains_nil
    · rw [heq]
      exact attains_refl
  · have haa := rel_of_mem (h.held_argument hk) ha ha'
    rcases haa.propertyExpectation (hmm.held_child .object) with hnothing | heq
    · rw [hnothing]
      exact attains_nil
    · rw [heq]
      exact attains_refl

theorem Alike.accessSightings_eq (h : n.Alike n')
    (hk : n.kind = .memberExpression ∨ n.kind = .subscriptExpression)
    (hs : n.SeenThrough → n'.SeenThrough) : n.accessSightings words = n'.accessSightings words := by
  unfold accessSightings
  rcases ho : n.child? .object with _ | o
  · rw [eq_none_of_rel (h.held_child .object) ho]
  · obtain ⟨o', ho', hoo⟩ := exists_of_rel (h.held_child .object) ho
    simp only [ho', ← isInstance_congr hoo.unwrap, h.propertySighting_eq]
    by_cases hnothing : n'.propertySighting .events = .ok []
    · obtain ⟨b, hb⟩ := exists_isEmittedCollection o
      obtain ⟨b', hb'⟩ := exists_isEmittedCollection o'
      rw [hb, hb', hnothing]
      cases b <;> cases b' <;> rfl
    · have hcall : n.kind ≠ .callExpression := by rcases hk with hk | hk <;> rw [hk] <;> nofun
      have hc : o.isEmittedCollection = o'.isEmittedCollection := by
        refine eq_of_hidden hoo.isEmittedCollection (isEmittedCollection_or o) fun hseen => ?_
        have hseen' := hs <| seenThrough_of_not_call hcall fun _ p hp => by
          cases Option.mem_unique ho hp
          exact .inr hseen
        rw [hoo.isEmittedCollection_through]
        exact (hseen'.collected (h.kind_eq ▸ hk) o' ho').resolve_left hnothing
      rw [hc]

/-- A member mentions no more when a value below it is wrapped. -/
theorem Alike.accessSightings_attained (h : n.Alike n') :
    Attains (· ⊆ ·) (n'.accessSightings words) (n.accessSightings words) := by
  unfold accessSightings
  rcases ho : n.child? .object with _ | o
  · rw [eq_none_of_rel (h.held_child .object) ho]
    exact attains_nil
  · obtain ⟨o', ho', hoo⟩ := exists_of_rel (h.held_child .object) ho
    simp only [ho', ← isInstance_congr hoo.unwrap, ← h.propertySighting_eq]
    have hhidden (event : Evidence) : Attains (· ⊆ ·)
        (do
          let member ← if ← o.isInstance words then n.propertySighting .exposed else pure []
          return [] ++ member : Except Failure Evidence)
        (do
          let member ← if ← o.isInstance words then n.propertySighting .exposed else pure []
          return event ++ member) := by
      refine attains_bind (attains_of_eq (R := Eq) rfl fun _ => rfl) ?_
      rintro b _ rfl
      cases b
      · exact attains_pure (List.nil_subset _)
      · refine attains_bind (attains_of_eq (R := Eq) rfl fun _ => rfl) ?_
        rintro member _ rfl
        exact attains_pure (List.subset_append_right _ _)
    rcases hoo.isEmittedCollection with hnothing | heq
    · rw [hnothing]
      intro e he
      obtain ⟨b, -, he⟩ := exists_ok_of_bind he
      cases b
      · exact ⟨e, he, List.Subset.refl e⟩
      · rw [if_pos rfl] at he
        obtain ⟨event, -, he⟩ := exists_ok_of_bind he
        exact hhidden event e he
    · rw [heq]
      exact attains_refl

theorem Wraps.tagSightings_eq (h : n.Wraps n')
    (ht : n.role = .openTag ∨ n.kind = .jsxSelfClosingElement) :
    n.tagSightings = n'.tagSightings := by
  have hchildren : List.Forall₂ Alike n.children n'.children := by
    rcases ht with hr | hk
    · exact h.children_of_openTag hr
    · exact Likeness.children (Alike.wraps h) (by rw [hk]; rfl)
  have hnamed : List.Forall₂ Alike n.namedChildren n'.namedChildren :=
    List.rel_filter (fun _ _ hc => by simp only [isNamed, hc.kind_eq]) hchildren
  unfold tagSightings isComponentTag
  rw [h.name_of_tag ht,
    mapM_congr hnamed fun _ _ hc => attributeSightings_congr hc hc.head?_of_attribute]

theorem Alike.tagSightings_eq (h : n.Alike n')
    (ht : n.role = .openTag ∨ n.kind = .jsxSelfClosingElement) :
    n.tagSightings = n'.tagSightings := by
  cases h with
  | part =>
    unfold tagSightings isComponentTag child? namedChildren
    rw [children_withRole]
  | wraps h => exact h.tagSightings_eq ht

theorem Alike.isComponentTag_eq (h : n.Alike n') (hr : n.role = .openTag) :
    n.isComponentTag = n'.isComponentTag := by
  cases h with
  | part =>
    unfold isComponentTag child?
    rw [children_withRole]
  | wraps h =>
    unfold isComponentTag
    rw [h.name_of_tag (.inl hr)]

theorem Alike.elementSightings_eq (h : n.Alike n') (hk : n.kind = .jsxElement) :
    n.elementSightings = n'.elementSightings := by
  unfold elementSightings
  rcases ho : n.child? .openTag with _ | tag
  · rw [child_eq_none h ho nofun (by rw [hk]; rfl)]
  · obtain ⟨tag', ho', htt⟩ := exists_child h ho nofun (by rw [hk]; rfl)
    have hr : tag.role = .openTag := role_of_child? ho
    have hparts := namedChildren_congr h (by rw [hk]; rfl)
    simp only [ho', htt.isComponentTag_eq hr, htt.tagSightings_eq (.inl hr),
      mapM_congr hparts fun _ _ hc => childSlots_congr hc]

theorem nodeSightings_of_not_mentions (h : n.kind.mentions = false) :
    n.nodeSightings mounts words = .ok [] := by
  unfold nodeSightings
  split
  all_goals first
    | rfl
    | rename_i hk
      rw [hk] at h
      cases h

/-- A node mentions what it mentioned before a value below it was wrapped. -/
theorem Alike.nodeSightings_eq (h : n.Alike n') (hs : n.SeenThrough → n'.SeenThrough) :
    n.nodeSightings mounts words = n'.nodeSightings mounts words := by
  unfold nodeSightings
  rw [← h.kind_eq]
  split
  · rename_i hk
    exact h.callSightings_eq hk hs
  · rename_i hk
    exact h.accessSightings_eq (.inl hk) hs
  · rename_i hk
    exact h.accessSightings_eq (.inr hk) hs
  · rename_i hk
    exact destructuringSightings_congr h hk
  · rename_i hk
    exact h.elementSightings_eq hk
  · rename_i hk
    exact h.tagSightings_eq (.inr hk)
  · rfl

/-- A node mentions no more when a value below it is wrapped. -/
theorem Alike.nodeSightings_attained (h : n.Alike n') :
    Attains (· ⊆ ·) (n'.nodeSightings mounts words) (n.nodeSightings mounts words) := by
  unfold nodeSightings
  rw [← h.kind_eq]
  split
  · rename_i hk
    exact h.callSightings_attained hk
  · exact h.accessSightings_attained
  · exact h.accessSightings_attained
  · rename_i hk
    exact attains_of_eq (destructuringSightings_congr h hk).symm List.Subset.refl
  · rename_i hk
    exact attains_of_eq (h.elementSightings_eq hk).symm List.Subset.refl
  · rename_i hk
    exact attains_of_eq (h.tagSightings_eq (.inr hk)).symm List.Subset.refl
  · exact attains_nil

/-! ## The whole script -/

theorem findAll_eq_filter_mentioning (n : Node) {k : Kind} (hk : k.mentions = true) :
    n.findAll k = n.mentioning.filter (·.kind == k) := by
  rw [findAll, mentioning, List.filter_filter]
  refine List.filter_congr fun c _ => ?_
  by_cases hc : c.kind = k
  · rw [hc, hk, Bool.and_true]
  · rw [beq_eq_false_iff_ne.2 hc, Bool.false_and]

/-- Declarators that are alike give the instance the same words. -/
theorem instanceWords_congr (h : List.Forall₂ Alike n.mentioning n'.mentioning) :
    n.instanceWords mounts = n'.instanceWords mounts := by
  have hdeclarators : List.Forall₂ (fun d d' => d.kind = .variableDeclarator ∧ d.Alike d')
      (n.findAll .variableDeclarator) (n'.findAll .variableDeclarator) := by
    rw [List.forall₂_and_left]
    refine ⟨fun d hd => (mem_descendants_of_findAll hd).2, ?_⟩
    rw [findAll_eq_filter_mentioning n rfl, findAll_eq_filter_mentioning n' rfl]
    exact List.rel_filter (fun d d' hd => by simp only [hd.kind_eq]) h
  unfold instanceWords
  rw [foldlM_congr hdeclarators fun d d' hd => declaratorWords_congr hd.2 hd.1]

theorem flatten_mapM_filter {α β : Type} {f : α → Except Failure (List β)} {p : α → Bool}
    (hf : ∀ a, p a = false → f a = .ok []) (as : List α) :
    (do return (← as.mapM f).flatten : Except Failure (List β)) =
      do return (← (as.filter p).mapM f).flatten := by
  induction as with
  | nil => rfl
  | cons a as ih =>
    by_cases hp : p a = true
    · rw [List.filter_cons_of_pos hp, List.mapM_cons, List.mapM_cons]
      cases f a with
      | error e => rfl
      | ok b =>
        revert ih
        cases as.mapM f <;> cases (as.filter p).mapM f <;> intro ih
        · exact ih
        · cases ih
        · cases ih
        · exact congrArg (fun l => Except.ok (b ++ l)) (Except.ok.inj ih)
    · rw [List.filter_cons_of_neg hp, List.mapM_cons, hf a (by simpa using hp), ← ih]
      cases as.mapM f <;> rfl

/-- The evidence of a script is that of the nodes that mention something. -/
theorem evidence_eq (n : Node) : n.evidence mounts = do
    let instances ← n.instanceWords mounts
    return (← n.mentioning.mapM (nodeSightings mounts instances)).flatten := by
  unfold evidence
  refine bind_congr fun instances => ?_
  exact flatten_mapM_filter (fun c hc => nodeSightings_of_not_mentions hc) n.descendants

theorem hidden_eq (n : Node) : n.hidden = n.mentioning.countP fun c => !decide c.SeenThrough := by
  rw [hidden, mentioning, List.countP_filter]
  refine List.countP_congr fun c _ => ?_
  by_cases hc : c.kind.mentions = true
  · simp [hc]
  · simp [hc, seenThrough_of_not_mentions (n := c) (by simpa using hc)]

/-- A node that is hidden stays hidden when a value below it is wrapped. -/
theorem Alike.hidden (h : n.Alike n') (hn : (!decide n.SeenThrough) = true) :
    (!decide n'.SeenThrough) = true := by
  rw [Bool.not_eq_true', decide_eq_false_iff_not] at hn ⊢
  exact fun hs => hn (hs.of_alike h)

theorem Wraps.hidden_le (h : n.Wraps n') : n.hidden ≤ n'.hidden := by
  rw [hidden_eq, hidden_eq]
  exact countP_le_of_forall₂ h.mentioning fun _ _ hc => hc.hidden

/-- To wrap one value where it is not hidden changes nothing about the evidence, whether there is
any or not. -/
theorem Wraps.evidence_eq (h : n.Wraps n') (hhidden : n'.hidden = n.hidden) :
    n.evidence mounts = n'.evidence mounts := by
  rw [hidden_eq, hidden_eq] at hhidden
  have hnodes := forall₂_of_countP_eq h.mentioning (fun _ _ hc => hc.hidden) hhidden
  rw [Node.evidence_eq, Node.evidence_eq, instanceWords_congr h.mentioning]
  refine bind_congr fun instances => ?_
  rw [mapM_congr hnodes fun c c' hc => hc.1.nodeSightings_eq fun hs => ?_]
  simpa [hs] using hc.2

/-- To wrap one value adds nothing to the evidence. -/
theorem Wraps.evidence_attained (h : n.Wraps n') :
    Attains (· ⊆ ·) (n'.evidence mounts) (n.evidence mounts) := by
  rw [Node.evidence_eq, Node.evidence_eq, instanceWords_congr h.mentioning]
  refine attains_bind (attains_of_eq rfl fun _ => rfl) ?_
  rintro instances _ rfl
  have hnodes : List.SublistForall₂ (flip Alike) n'.mentioning n.mentioning :=
    List.sublistForall₂_iff.2 ⟨_, List.Forall₂.flip h.mentioning, List.Sublist.refl _⟩
  refine attains_bind (attains_mapM hnodes fun _ _ hc => hc.nodeSightings_attained) ?_
  exact fun _ _ hfound => attains_pure (flatten_subset hfound)

end

/-- However many values are wrapped, no more is seen through. -/
theorem hidden_le_of_wraps {T T' : Node} (h : Relation.ReflTransGen Wraps T T') :
    T.hidden ≤ T'.hidden := by
  induction h with
  | refl => exact Nat.le_refl _
  | tail _ hstep ih => exact Nat.le_trans ih hstep.hidden_le

/-- Values in a script are wrapped, any number of times, in parentheses, by non-null marks or by
casts to `any`: arguments of calls, values of options and objects of members. The evidence of the
script is the same as before, whether there is any or not, if no wrapper hides what it wraps; and
none does that stands neither around the name of an event nor in the chain of an expectation and is
no cast around the collection of emitted events. A wrapper that hides evidence adds none. -/
theorem mentions_the_same_wrapped (mounts : List Text) {T T' : Node}
    (h : Relation.ReflTransGen Wraps T T') :
    (T'.hidden = T.hidden → T'.evidence mounts = T.evidence mounts) ∧
    ((∀ c ∈ T'.descendants, c.Bare) → T'.hidden = T.hidden) ∧
    ∀ e, T.evidence mounts = .ok e → ∃ e', T'.evidence mounts = .ok e' ∧ e' ⊆ e := by
  refine ⟨fun hhidden => ?_, fun hbare => ?_, ?_⟩
  · induction h using Relation.ReflTransGen.head_induction_on with
    | refl => rfl
    | @head T T₁ hstep hsteps ih =>
      have hle := hstep.hidden_le
      have hle' := hidden_le_of_wraps hsteps
      rw [ih (by omega), hstep.evidence_eq (by omega)]
  · have hle := hidden_le_of_wraps h
    have hnone := hidden_of_bare hbare
    omega
  · induction h with
    | refl => exact fun e he => ⟨e, he, List.Subset.refl e⟩
    | tail _ hstep ih =>
      intro e he
      obtain ⟨e₁, he₁, hsub₁⟩ := ih e he
      obtain ⟨e₂, he₂, hsub₂⟩ := hstep.evidence_attained e₁ he₁
      exact ⟨e₂, he₂, List.Subset.trans hsub₂ hsub₁⟩

/-! ## A test with casts -/

/-- A test that hands a component a value and expects an event of it. -/
def mountingTest : List Char :=
  "mount(C, { props: { size: 1 } }).vm.open();\nexpect(w.emitted()).toHaveProperty('end');\n".toList

/-- The same test with casts. -/
def castingTest : List Char :=
  ("mount(C, { props: { size: 1 } as any }).vm!.open();\n" ++
    "expect((w.emitted() satisfies any)).toHaveProperty('end');\n").toList

/-- The wrappers of the second test, with the places of their values in the first. -/
def castingSteps : List (Wrapper × List Nat) :=
  [(.asAny, [0, 0, 0, 0, 0, 1, 4, 2, 3]), (.nonNull, [0, 0, 0, 0]),
    (.satisfiesAny, [2, 0, 0, 0, 1, 1]), (.parentheses, [2, 0, 0, 0, 1, 1])]

theorem wraps_castingTest : Relation.ReflTransGen Wraps (Module.read mountingTest none).1.root
    (Module.read castingTest none).1.root :=
  wraps_wrapEach castingSteps (by decide +kernel)

theorem mentions_the_same_wrapped_casting :
    Relation.ReflTransGen Wraps (Module.read mountingTest none).1.root
      (Module.read castingTest none).1.root ∧
    (∀ c ∈ (Module.read castingTest none).1.root.descendants, c.Bare) ∧
    (Module.read castingTest none).1.root.hidden = (Module.read mountingTest none).1.root.hidden ∧
    (Module.read mountingTest none).1.root.evidence ["mount"] =
      .ok [⟨.exposed, "open"⟩, ⟨.inputs, "size"⟩, ⟨.events, "end"⟩] ∧
    (Module.read castingTest none).1.root.evidence ["mount"] =
      (Module.read mountingTest none).1.root.evidence ["mount"] := by
  have hbare : ∀ c ∈ (Module.read castingTest none).1.root.descendants, c.Bare := by
    decide +kernel
  obtain ⟨hsame, hhidden, -⟩ := mentions_the_same_wrapped ["mount"] wraps_castingTest
  exact ⟨wraps_castingTest, hbare, hhidden hbare, by decide +kernel, hsame (hhidden hbare)⟩

/-! ### Names that are hidden -/

/-- A cast around the name of an event, around the collection that an event is read from, or in the
chain of an expectation hides the event. -/
theorem evidence_hidden :
    (Module.read "w.emitted('end');".toList none).1.root.evidence [] = .ok [⟨.events, "end"⟩] ∧
    (Module.read "w.emitted('end' as any);".toList none).1.root.evidence [] = .ok [] ∧
    (Module.read "w.emitted().end;".toList none).1.root.evidence [] = .ok [⟨.events, "end"⟩] ∧
    (Module.read "(w.emitted() as any).end;".toList none).1.root.evidence [] = .ok [] ∧
    (Module.read "expect(w.emitted()).toHaveProperty('end');".toList none).1.root.evidence [] =
      .ok [⟨.events, "end"⟩] ∧
    (Module.read "expect(w.emitted())!.toHaveProperty('end');".toList none).1.root.evidence [] =
      .ok [] := by
  decide +kernel

end SurfaceCoverage.Node
