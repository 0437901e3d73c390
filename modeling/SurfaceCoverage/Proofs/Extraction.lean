import SurfaceCoverage.Proofs.Asking
import SurfaceCoverage.Proofs.Region
import SurfaceCoverage.Analysis
/-!
# What extraction is composed of

The strategies read literals, look words up and expand words, and nothing else touches the trail.
`Composed` says so of a search, together with what holds of its result: the words are mentioned by
scopes of the component's project, and what is found stands in one. `surface_composed` says it of the
extraction of a whole surface, so a fact about lookups and expansions holds of surfaces.
-/

namespace SurfaceCoverage

/-- A word that a scope can mention: any type, and the identifiers of its script as values. -/
def Mention.Stands (m : Mention) : Prop :=
  m.meaning = .type ∨ ∃ x ∈ m.scope.root.descendants,
    (x.kind = .identifier ∨ x.kind = .shorthandPropertyIdentifier) ∧ x.name = m.word

/-- A reference that is taken from a scope is mentioned by it. -/
theorem Item.From.stands {s : Scope} {meaning : Meaning} {word : Text}
    (h : (Item.reference meaning word).From s.root) : (⟨s, meaning, word⟩ : Mention).Stands := by
  cases meaning with
  | value =>
    obtain ⟨x, hx, hk, hn⟩ := h
    exact .inr ⟨x, hx, .inl hk, hn⟩
  | type => exact .inl rfl

/-- Words among the items of a declaration are mentioned by its scope. -/
theorem Declaration.Asks.stands {d : Declaration} {meaning : Meaning} {m : Mention}
    (hd : d.node ∈ d.scope.root.descendants) (h : d.Asks meaning m) : m.Stands := by
  obtain ⟨scope, meaning', word⟩ := m
  obtain ⟨rfl, hi⟩ := h
  exact Item.From.stands ((Node.items_from meaning d.node _ hi).trans hd)

variable {w : Workspace} {c : Scope} {L : Scope → Prop} {P : Failure → Prop}

/-- A word that a scope of a region mentions. -/
def Region.Mentions (R : Region w) (m : Mention) : Prop := R.scopes m.scope ∧ m.Stands

theorem Region.mentions_of_asks {R : Region w} {d : Declaration} {meaning : Meaning} {m : Mention}
    (hd : d.StandsIn R.scopes) (h : d.Asks meaning m) : R.Mentions m :=
  ⟨h.1 ▸ hd.1, h.stands hd.2⟩

/-- The scopes of a component and of other modules. -/
def With (c : Scope) (L : Scope → Prop) (s : Scope) : Prop := s = c ∨ L s

/-- Literals that cannot be read fail in some way. -/
theorem literals_of_true (s : Scope) (_ : With c L s) : s.root.Literals fun _ => True :=
  fun _ _ _ _ => trivial

/-- A search is composed of literals that fail with `P`, and of lookups and expansions of words that
the scopes of a component and of other modules mention. Its result has a property. -/
inductive Composed (w : Workspace) (c : Scope) (L : Scope → Prop) (P : Failure → Prop) :
    {α : Type} → Search α → (α → Prop) → Prop
  | ofExcept {α : Type} {Q : α → Prop} {e : Except Failure α} (hf : FailsOnly P e)
      (hq : ∀ a, e = .ok a → Q a) : Composed w c L P (Search.ofExcept e) Q
  | bind {α β : Type} {R : α → Prop} {Q : β → Prop} {m : Search α} {f : α → Search β}
      (hm : Composed w c L P m R) (hf : ∀ a, R a → Composed w c L P (f a) Q) :
      Composed w c L P (m >>= f) Q
  | weaken {α : Type} {R Q : α → Prop} {m : Search α} (hm : Composed w c L P m R)
      (hq : ∀ a, R a → Q a) : Composed w c L P m Q
  | find {m : Mention} (hs : With c L m.scope) (hm : m.Stands) :
      Composed w c L P (Search.find w m.query) fun r => ∀ d ∈ r, d.StandsIn (With c L)
  | nested {β : Type} {x : Expansion β} {B : β → Prop} {m : Mention} {base : Scope}
      (hx : x.Keeps (With c L) P B) (hb : With c L base) (hs : With base L m.scope)
      (hm : m.Stands) : Composed w c L P (x.nested w (Search.depthBound w base) [] m) B

namespace Composed

theorem pure {α : Type} {Q : α → Prop} {a : α} (h : Q a) : Composed w c L P (Pure.pure a : Search α) Q :=
  .ofExcept (e := .ok a) (failsOnly_ok a) fun _ he => by cases he; exact h

theorem firstFound {α β : Type} {Q : β → Prop} {try_ : α → Search (Option β)} {as : List α}
    (h : ∀ a ∈ as, Composed w c L P (try_ a) fun r => ∀ b ∈ r, Q b) :
    Composed w c L P (Search.firstFound try_ as) fun r => ∀ b ∈ r, Q b := by
  induction as with
  | nil => exact pure (by simp)
  | cons a as ih =>
    rw [Search.firstFound]
    refine .bind (h a List.mem_cons_self) fun r hr => ?_
    cases r with
    | some b => exact pure hr
    | none => exact ih fun a ha => h a (List.mem_cons_of_mem _ ha)

/-- An inquiry with expansions for answers. -/
theorem inquiry {α β : Type} {x : Expansion β} {B : β → Prop} {Q : α → Prop} {p : Inquiry β α}
    {base : Scope} {A : Mention → Prop} (hx : x.Keeps (With c L) P B) (hb : With c L base)
    (hA : ∀ m, A m → With base L m.scope ∧ m.Stands) (hp : p.Keeps A P B Q) :
    Composed w c L P (p.run (x.nested w (Search.depthBound w base) [])) Q := by
  induction p with
  | done e => exact .ofExcept hp.1 hp.2
  | ask m next ih =>
    obtain ⟨hs, hm⟩ := hA m hp.1
    exact .bind (.nested hx hb hs hm) fun b hb => ih b (hp.2 b hb)

end Composed

/-! ## Names -/

theorem Search.namesOf_eq (w : Workspace) (s : Scope) (items : List Item) :
    namesOf w s items = (do
      return MemberList.ofList
        (← (Item.inquiries s items).run (Expansion.names.nested w (depthBound w s) []))) := by
  unfold namesOf
  have he : expandTo w (depthBound w s) [] s = fun meaning word =>
      Expansion.names.nested w (depthBound w s) [] ⟨s, meaning, word⟩ := by
    funext meaning word
    exact expandTo_eq w _ [] s meaning word
  rw [he, itemNames_eq]

section
variable (hl : ∀ s, With c L s → s.root.Literals P) {s : Scope} (hs : With c L s)
include hl hs

/-- The names of items that can be read and whose words the scope mentions. -/
theorem namesOf_composed {items : List Item} (hr : ∀ item ∈ items, item.Reads P)
    (hm : ∀ meaning word, .reference meaning word ∈ items → (⟨s, meaning, word⟩ : Mention).Stands) :
    Composed w c L P (Search.namesOf w s items) fun _ => True := by
  rw [Search.namesOf_eq]
  refine .bind (R := fun _ => True) ?_ fun names _ => .pure trivial
  refine .inquiry (Expansion.names_keeps hl) hs ?_ (Item.inquiries_keeps hr)
  rintro ⟨_, meaning, word⟩ ⟨rfl, h⟩
  exact ⟨.inl rfl, hm meaning word h⟩

/-- The names of items that are taken from a scope. -/
theorem namesOf_composed_of_from {items : List Item} (hi : ∀ item ∈ items, item.From s.root) :
    Composed w c L P (Search.namesOf w s items) fun _ => True :=
  namesOf_composed hl hs (fun item h => (hi item h).reads (hl s hs))
    fun _ _ h => Item.From.stands (hi _ h)

theorem valueNames_composed {n : Node} (hn : n ∈ s.root.descendants) :
    Composed w c L P (Search.valueNames w s n) fun _ => True :=
  namesOf_composed_of_from hl hs fun item hi => (Node.valueItems_from n item hi).trans hn

theorem typeNames_composed {n : Node} (hn : n ∈ s.root.descendants) :
    Composed w c L P (Search.typeNames w s n) fun _ => True :=
  namesOf_composed_of_from hl hs fun item hi => (Node.typeItems_from n item hi).trans hn

theorem wordNames_composed {word : Text} (hm : Mention.Stands ⟨s, .value, word⟩) :
    Composed w c L P (Search.wordNames w s word) fun _ => True := by
  refine namesOf_composed hl hs (fun item h => ?_) fun meaning word' h => ?_
  · cases List.mem_singleton.1 h
    trivial
  · cases List.mem_singleton.1 h
    exact hm

end

/-! ## Options -/

theorem optionsObject_composed {s : Scope} (hs : With c L s) {argument : Node} (ha : argument ∈ s.root.descendants) :
    Composed w c L P (Search.optionsObject w s argument) (Located (With c L)) := by
  unfold Search.optionsObject
  split
  · refine .pure ?_
    rintro t ⟨⟩
    exact ⟨hs, ha⟩
  · rename_i hk
    refine .bind (.find (m := ⟨s, .value, argument.name⟩) hs (.inr ⟨argument, ha, .inl hk, rfl⟩))
      fun r hr => ?_
    cases r with
    | none => exact .pure (located_none _)
    | some d =>
      refine .pure ?_
      intro t ht
      split at ht
      · cases ht
        exact hr d rfl
      · cases ht
  · exact .pure (located_none _)

theorem findOption_composed {names : List Text} {object : Node} (hl : object.Literals P) :
    Composed w c L P (Search.findOption names object) fun r => ∀ m ∈ r, m ∈ object.descendants := by
  refine .firstFound fun name _ => .ofExcept hl.findMember? ?_
  rintro r hr m ⟨⟩
  exact Node.findMember?_mem hr

theorem Node.optionsArgument?_mem_descendants {call a : Node} (h : call.optionsArgument? = some a) :
    a ∈ call.descendants := by
  unfold optionsArgument? at h
  split at h
  · cases h
  · rename_i b hb
    cases h
    exact mem_descendants_trans (unwrap_mem_descendants b)
      (mem_descendants_of_mem_callArguments (by rw [hb]; simp))
  · rename_i b d _ hb
    cases h
    split
    · exact mem_descendants_trans (unwrap_mem_descendants d)
        (mem_descendants_of_mem_callArguments (by rw [hb]; simp))
    · exact mem_descendants_trans (unwrap_mem_descendants b)
        (mem_descendants_of_mem_callArguments (by rw [hb]; simp))

theorem Node.mem_descendants_of_mem_callsOf {root call : Node} {callees : List Text}
    (h : call ∈ root.callsOf callees) : call ∈ root.descendants :=
  (mem_descendants_of_findAll (List.mem_filter.1 h).1).1

section
variable (hl : ∀ s, With c L s → s.root.Literals P) {s : Scope} (hs : With c L s)
include hl hs

/-- The first member of any object under one of several names. -/
theorem anyOption_composed {names : List Text} :
    Composed w c L P (Search.firstFound (Search.findOption names) (s.root.findAll .object))
      fun r => ∀ m ∈ r, m ∈ s.root.descendants := by
  refine .firstFound fun object ho => ?_
  have hobject := (Node.mem_descendants_of_findAll ho).1
  exact .weaken (findOption_composed ((hl s hs).below hobject)) fun r hr m hm =>
    Node.mem_descendants_trans (hr m hm) hobject

theorem findOptionIn_composed {names callees : List Text} :
    Composed w c L P (Search.findOptionIn w s names callees) (Located (With c L)) := by
  unfold Search.findOptionIn
  refine .bind (R := Located (With c L)) (.firstFound fun call hc => ?_) fun r hr => ?_
  · have hcall := Node.mem_descendants_of_mem_callsOf hc
    split
    · exact .pure (located_none _)
    · rename_i argument ha
      refine .bind (optionsObject_composed hs
        (Node.mem_descendants_trans (Node.optionsArgument?_mem_descendants ha) hcall)) fun r hr => ?_
      cases r with
      | none => exact .pure (located_none _)
      | some found =>
        obtain ⟨object, owner⟩ := found
        obtain ⟨howner, hobject⟩ := hr _ rfl
        refine .bind (findOption_composed ((hl owner howner).below hobject)) fun m hm => .pure ?_
        exact located_map howner fun t ht => Node.mem_descendants_trans (hm t ht) hobject
  · cases r with
    | some found => exact .pure hr
    | none =>
      exact .bind (anyOption_composed hl hs) fun m hm => .pure (located_map hs hm)

theorem optionNames_composed {member : Node} (hm : member ∈ s.root.descendants) :
    Composed w c L P (Search.optionNames w s member) fun _ => True := by
  unfold Search.optionNames
  split
  · rename_i hk
    exact wordNames_composed hl hs (.inr ⟨member, hm, .inr hk, rfl⟩)
  · split
    · rename_i value hv
      exact valueNames_composed hl hs
        (Node.mem_descendants_trans (Node.mem_descendants_of_child? hv) hm)
    · exact .pure trivial
  · exact .pure trivial

theorem namesByOption_composed {names callees : List Text} :
    Composed w c L P (Search.namesByOption w s names callees) fun _ => True := by
  refine .bind (findOptionIn_composed hl hs) fun r hr => ?_
  cases r with
  | none => exact .pure trivial
  | some found => exact optionNames_composed hl (hr found rfl).1 (hr found rfl).2

theorem namesByCall_composed {keyword : Text} :
    Composed w c L P (Search.namesByCall w s keyword) fun _ => True := by
  unfold Search.namesByCall
  split
  · exact .pure trivial
  · rename_i call _ hc
    have hmem : call ∈ s.root.callsOf [keyword] := by
      rw [hc]
      exact List.mem_cons_self
    have hcall := Node.mem_descendants_of_mem_callsOf hmem
    have hargument : ∀ a ∈ call.callArguments, a ∈ s.root.descendants := fun a ha =>
      Node.mem_descendants_trans (Node.mem_descendants_of_mem_callArguments ha) hcall
    have htype : ∀ t ∈ call.typeArguments, t ∈ s.root.descendants := fun t ht =>
      Node.mem_descendants_trans (Node.mem_descendants_of_mem_typeArguments ht) hcall
    generalize call.callArguments = arguments at hargument
    generalize call.typeArguments = types at htype
    cases arguments with
    | nil =>
      refine .bind (R := fun _ => True) (.pure trivial) fun names _ => ?_
      dsimp only
      split
      · cases types with
        | nil => exact .pure trivial
        | cons t _ => exact typeNames_composed hl hs (htype t List.mem_cons_self)
      · exact .pure trivial
    | cons a _ =>
      refine .bind (valueNames_composed hl hs (hargument a List.mem_cons_self)) fun names _ => ?_
      dsimp only
      split
      · cases types with
        | nil => exact .pure trivial
        | cons t _ => exact typeNames_composed hl hs (htype t List.mem_cons_self)
      · exact .pure trivial

end

/-! ## Instance types -/

namespace Node

theorem declaredValues_mem_descendants {n d : Node} (h : d ∈ n.declaredValues) : d ∈ n.descendants := by
  fun_induction declaredValues n with
  | case1 => rw [List.mem_singleton.1 h]; exact self_mem_descendants _
  | case2 n _ _ ih =>
    obtain ⟨⟨x, hx⟩, -, hd⟩ := List.mem_flatMap.1 h
    exact mem_descendants_trans (ih x hx hd) (mem_descendants_of_mem_namedChildren hx)
  | case3 => exact mem_descendants_of_mem_namedChildren (List.mem_filter.1 h).1
  | case4 => exact mem_descendants_of_mem_namedChildren (List.mem_filter.1 h).1
  | case5 => cases h

theorem exportedValues_mem_descendants {root statement d : Node} (hs : statement ∈ root.descendants)
    (h : d ∈ exportedValues root statement) : d ∈ root.descendants := by
  unfold exportedValues at h
  split at h
  · rename_i declaration _ hd
    exact mem_descendants_trans (declaredValues_mem_descendants h)
      (mem_descendants_trans (mem_descendants_of_child? hd) hs)
  · rename_i value _ hv
    split at h
    · rw [List.mem_singleton.1 h]
      exact mem_descendants_trans (mem_descendants_of_child? hv) hs
    · split at h
      · exact List.mem_of_find?_eq_some (Option.mem_toList.1 h)
      · cases h
  · cases h

theorem exportedCandidates_mem_descendants {root d : Node} (h : d ∈ root.exportedCandidates) :
    d ∈ root.descendants := by
  simp only [exportedCandidates, List.partition_eq_filter_filter] at h
  obtain ⟨statement, hs, hd⟩ := List.mem_flatMap.1 h
  have hs : statement ∈ root.namedChildren.filter (·.kind == .exportStatement) := by
    rcases List.mem_append.1 hs with hs | hs
    · exact (List.mem_filter.1 hs).1
    · exact (List.mem_filter.1 hs).1
  exact exportedValues_mem_descendants
    (mem_descendants_of_mem_namedChildren (List.mem_filter.1 hs).1) hd

/-- Words among the items of a type are mentioned by its scope. -/
theorem stands_of_mem_typeItems {scope : Scope} {type : Node} {meaning : Meaning} {word : Text}
    (ht : type ∈ scope.root.descendants) (h : .reference meaning word ∈ type.typeItems) :
    Mention.Stands ⟨scope, meaning, word⟩ := by
  cases meaning with
  | type => exact .inl rfl
  | value =>
    obtain ⟨x, hx, hk, hn⟩ := (typeItems_from type _ h).trans ht
    exact .inr ⟨x, hx, .inl hk, hn⟩

end Node

theorem instanceType_composed {type : Node} (ht : type ∈ c.root.descendants) :
    Composed w c L P (Search.instanceType w (Search.depthBound w c) [] type c)
      (Located (With c L)) := by
  rw [Search.instanceType_eq]
  refine .inquiry (Expansion.types_keeps fun scope t hs ht => Node.instanceInquiry_keeps hs ht)
    (.inl rfl) ?_ (Node.instanceInquiry_keeps (.inl rfl) ht)
  rintro ⟨scope, meaning, word⟩ ⟨rfl, hm⟩
  exact ⟨.inl rfl, Node.stands_of_mem_typeItems ht hm⟩

section
variable (hl : ∀ s, With c L s → s.root.Literals P)
include hl

theorem memberType_composed {name : Text} {type : Node} {s : Scope} (hs : With c L s)
    (ht : type ∈ s.root.descendants) :
    Composed w c L P (Search.memberType w name (Search.depthBound w c) [] type s)
      (Located (With c L)) := by
  rw [Search.memberType_eq]
  refine .inquiry (Expansion.types_keeps fun scope t hs ht => Node.memberInquiry_keeps (hl scope hs) hs ht)
    (.inl rfl) ?_ (Node.memberInquiry_keeps (hl s hs) hs ht)
  rintro ⟨scope, meaning, word⟩ ⟨rfl, hm⟩
  exact ⟨hs, Node.stands_of_mem_typeItems ht hm⟩

theorem bagType_composed {bag : Text} {candidate : Node} (hc : candidate ∈ c.root.descendants) :
    Composed w c L P (Search.bagType w c bag candidate) (Located (With c L)) := by
  unfold Search.bagType
  simp only
  split
  · split
    · rename_i body hbody
      exact memberType_composed hl (.inl rfl)
        (Node.mem_descendants_trans (Node.mem_descendants_of_child? hbody) hc)
    · exact .pure (located_none _)
  · split
    · exact .pure (located_none _)
    · rename_i type ht
      refine .bind (instanceType_composed
        (Node.mem_descendants_trans (Node.annotatedType?_mem_descendants ht) hc)) fun r hr => ?_
      cases r with
      | none => exact .pure (located_none _)
      | some found => exact memberType_composed hl (hr found rfl).1 (hr found rfl).2

theorem namesByInstance_composed {bag : Text} {reserved : List Text} :
    Composed w c L P (Search.namesByInstance w c bag reserved) fun _ => True := by
  unfold Search.namesByInstance
  refine .bind (R := Located (With c L)) (.firstFound fun candidate hc =>
    bagType_composed hl (Node.exportedCandidates_mem_descendants hc)) fun r hr => ?_
  cases r with
  | none => exact .pure trivial
  | some found =>
    exact .bind (typeNames_composed hl (hr found rfl).1 (hr found rfl).2) fun names _ => .pure trivial

end

/-! ## Exposed members -/

namespace Node

variable {n : Node}

theorem failsOnly_exposingWords {ms : List Node} (h : ∀ m ∈ ms, m.Literals P) :
    FailsOnly P (exposingWords ms) := by
  induction ms with
  | nil => exact failsOnly_ok []
  | cons m ms ih =>
    have hm := (h m List.mem_cons_self).memberName?
    have hrest (word : List Text) : FailsOnly P (do return word ++ (← exposingWords ms)) :=
      failsOnly_bind (ih fun m hm => h m (List.mem_cons_of_mem _ hm)) fun _ _ => failsOnly_pure _
    unfold exposingWords
    simp only
    split
    · exact hrest _
    · refine failsOnly_bind hm fun name _ => ?_
      split
      · split <;> exact hrest _
      · exact hrest _
    · exact hrest _

theorem failsOnly_contextWords {first : Bool} {ps : List Node} (h : ∀ p ∈ ps, p.Literals P) :
    FailsOnly P (contextWords first ps) := by
  induction ps generalizing first with
  | nil => exact failsOnly_ok _
  | cons p ps ih =>
    have hrest (exposing contexts : List Text) : FailsOnly P (do
        let more ← contextWords false ps
        return (⟨exposing ++ more.exposing, contexts ++ more.contexts⟩ : ContextWords)) :=
      failsOnly_bind (ih fun p hp => h p (List.mem_cons_of_mem _ hp)) fun _ _ => failsOnly_pure _
    unfold contextWords
    simp only
    split
    · exact failsOnly_bind (failsOnly_exposingWords fun m hm =>
        (h p List.mem_cons_self).namedChild hm) fun exposing _ => hrest exposing _
    · exact hrest [] _

theorem parameterPatterns_mem_descendants {p : Node} (h : p ∈ n.parameterPatterns) :
    p ∈ n.descendants := by
  unfold parameterPatterns at h
  split at h
  · exact mem_descendants_of_child? (Option.mem_toList.1 h)
  · rename_i ps hps
    obtain ⟨x, hx, hp⟩ := List.mem_filterMap.1 h
    have hx := mem_descendants_trans (mem_descendants_of_mem_namedChildren hx)
      (mem_descendants_of_child? hps)
    split at hp
    · cases hp
      exact hx
    · exact mem_descendants_trans (mem_descendants_of_child? hp) hx

theorem exposedObject?_mem_descendants {words : ContextWords} {o : Node}
    (h : n.exposedObject? words = some o) : o ∈ n.descendants := by
  unfold exposedObject? at h
  split at h
  · obtain ⟨hm, -⟩ := Option.filter_eq_some_iff.1 h
    obtain ⟨a, ha, rfl⟩ := Option.map_eq_some_iff.1 hm
    exact mem_descendants_trans (unwrap_mem_descendants a)
      (mem_descendants_of_mem_callArguments (List.mem_of_head? ha))
  · cases h

end Node

section
variable (hl : ∀ s, With c L s → s.root.Literals P) {s : Scope} (hs : With c L s)
include hl hs

theorem objectNames_composed {objects : List Node} (ho : ∀ o ∈ objects, o ∈ s.root.descendants) :
    Composed w c L P (Search.objectNames w s objects) fun _ => True := by
  induction objects with
  | nil => exact .pure trivial
  | cons o objects ih =>
    refine .bind (namesOf_composed_of_from hl hs fun item hi =>
      (Node.objectItems_from o item hi).trans (ho o List.mem_cons_self)) fun names _ => ?_
    exact .bind (ih fun o h => ho o (List.mem_cons_of_mem _ h)) fun rest _ => .pure trivial

theorem contextCallNames_composed {functions : List Node}
    (hf : ∀ f ∈ functions, f ∈ s.root.descendants) :
    Composed w c L P (Search.contextCallNames w s functions) fun _ => True := by
  induction functions with
  | nil => exact .pure trivial
  | cons function functions ih =>
    have hfun := hf function List.mem_cons_self
    have hrest (names : List Text) : Composed w c L P
        (do return names ++ (← Search.contextCallNames w s functions)) fun _ => True :=
      .bind (ih fun f h => hf f (List.mem_cons_of_mem _ h)) fun _ _ => .pure trivial
    unfold Search.contextCallNames
    refine .bind (R := fun _ => True) (.ofExcept (Node.failsOnly_contextWords fun p hp =>
      (hl s hs).below (Node.mem_descendants_trans (Node.parameterPatterns_mem_descendants hp) hfun))
      fun _ _ => trivial) fun words _ => ?_
    simp only
    split
    · exact .bind (R := fun _ => True) (.pure trivial) fun names _ => hrest names
    · split
      · exact .bind (R := fun _ => True) (.pure trivial) fun names _ => hrest names
      · rename_i body hbody
        refine .bind (objectNames_composed hl hs fun o ho => ?_) fun names _ => hrest names
        obtain ⟨call, hc, ho⟩ := List.mem_filterMap.1 ho
        exact Node.mem_descendants_trans (Node.exposedObject?_mem_descendants ho)
          (Node.mem_descendants_trans (Node.mem_descendants_of_findAll hc).1
            (Node.mem_descendants_trans (Node.mem_descendants_of_child? hbody) hfun))

theorem exposedArrayNames_composed :
    Composed w c L P (Search.exposedArrayNames w s) fun _ => True := by
  unfold Search.exposedArrayNames
  refine .bind (R := fun r => ∀ a ∈ r, a ∈ s.root.descendants) (.firstFound fun object ho => ?_)
    fun r hr => ?_
  · have hobject := (Node.mem_descendants_of_findAll ho).1
    unfold Search.exposedArray
    refine .bind (R := fun r => ∀ m ∈ r, m ∈ s.root.descendants)
      (.ofExcept ((hl s hs).below hobject).findMember? ?_) fun r hr => ?_
    · rintro r hr m ⟨⟩
      exact Node.mem_descendants_trans (Node.findMember?_mem hr) hobject
    · cases r with
      | none => exact .pure (by simp)
      | some m =>
        simp only
        split
        · refine .pure fun a ha => ?_
          obtain ⟨hm, -⟩ := Option.filter_eq_some_iff.1 ha
          obtain ⟨value, hv, rfl⟩ := Option.map_eq_some_iff.1 hm
          exact Node.mem_descendants_trans (Node.unwrap_mem_descendants value)
            (Node.mem_descendants_trans (Node.mem_descendants_of_child? hv) (hr m rfl))
        · exact .pure (by simp)
  · cases r with
    | none => exact .pure trivial
    | some array =>
      exact namesOf_composed_of_from hl hs fun item hi =>
        (Node.arrayItems_from array item hi).trans (hr array rfl)

theorem namesByExpose_composed : Composed w c L P (Search.namesByExpose w s) fun _ => True := by
  refine .bind (contextCallNames_composed hl hs fun f hf => (List.mem_filter.1 hf).1) fun _ _ => ?_
  exact .bind (exposedArrayNames_composed hl hs) fun _ _ => .pure trivial

end

/-! ## Used slots -/

namespace Node

variable {n : Node}

theorem Literals.holdsSlots {words : List Text} (h : n.Literals P) :
    FailsOnly P (n.holdsSlots words) := by
  unfold Node.holdsSlots
  simp only
  split
  · exact failsOnly_ok _
  · exact failsOnly_bind h.unwrap.propertyName? fun _ _ => failsOnly_pure _
  · exact failsOnly_ok _

theorem Literals.readSlots (h : n.Literals P) : FailsOnly P n.readSlots := by
  refine failsOnly_bind (failsOnly_mapM fun access ha => ?_) fun _ _ => failsOnly_pure _
  have haccess := h.below (List.mem_filter.1 ha).1
  unfold readSlot?
  split
  · exact failsOnly_ok none
  · rename_i object ho
    refine failsOnly_bind (haccess.child ho).holdsSlots fun holds _ => ?_
    split
    · exact haccess.propertyName?
    · exact failsOnly_pure none

end Node

/-! ## Surfaces -/

section
variable (hl : ∀ s, With c L s → s.root.Literals P)
include hl

theorem extract_composed (strategy : Strategy) :
    Composed w c L P (strategy.extract w c) fun _ => True := by
  have hc : With c L c := .inl rfl
  cases strategy with
  | options names callees => exact namesByOption_composed hl hc
  | call keyword => exact namesByCall_composed hl hc
  | bag member reserved => exact namesByInstance_composed hl
  | expose => exact namesByExpose_composed hl hc
  | usage =>
    exact .bind (R := fun _ => True) (.ofExcept (hl c hc).readSlots fun _ _ => trivial)
      fun _ _ => .pure trivial

theorem extractFirst_composed (strategies : List Strategy) :
    Composed w c L P (Strategy.extractFirst w c strategies) fun _ => True := by
  unfold Strategy.extractFirst Strategy.firstNames
  generalize Strategy.dispatched strategies = ss
  induction ss with
  | nil => exact .pure trivial
  | cons s ss ih =>
    refine .bind (extract_composed hl s) fun names _ => ?_
    split
    · exact ih
    · exact .pure trivial

/-- The extraction of a surface. -/
theorem surface_composed (settings : Settings) :
    Composed w c L P (Search.surface w settings c) fun _ => True := by
  refine .bind (extractFirst_composed hl _) fun inputs _ => ?_
  refine .bind (extractFirst_composed hl _) fun events _ => ?_
  refine .bind (extractFirst_composed hl _) fun slots _ => ?_
  exact .bind (extractFirst_composed hl _) fun exposed _ => .pure trivial

end
end SurfaceCoverage
