import SurfaceCoverage.Proofs.Inquiry
import SurfaceCoverage.Proofs.ItemOrigins
/-!
# What expansions ask

An inquiry about a declaration asks for words that are references among the declaration's items, in
the declaration's own scope. This holds of the types that instance types go through as well: the
words of an alias, of its parts and of their parts are all among the items of the alias. An inquiry
fails only as the literals of the scope do, and a type that it ends with stands in a scope.
-/

namespace SurfaceCoverage

variable {α β γ : Type}

/-- An inquiry asks for words with `A`, fails only with `P` and ends with values with `Q`, as long
as the answers have `B`. -/
def Inquiry.Keeps (A : Mention → Prop) (P : Failure → Prop) (B : β → Prop) (Q : α → Prop) :
    Inquiry β α → Prop
  | done e => FailsOnly P e ∧ ∀ a, e = .ok a → Q a
  | ask m next => A m ∧ ∀ b, B b → (next b).Keeps A P B Q

namespace Inquiry

variable {A : Mention → Prop} {P : Failure → Prop} {B : β → Prop} {R : α → Prop} {Q : γ → Prop}

theorem keeps_done_ok {a : α} (h : R a) : (done (.ok a) : Inquiry β α).Keeps A P B R :=
  ⟨failsOnly_ok a, fun _ he => by cases he; exact h⟩

theorem keeps_single {m : Mention} {Q : β → Prop} (hm : A m) (h : ∀ b, B b → Q b) :
    (single m).Keeps A P B Q :=
  ⟨hm, fun b hb => keeps_done_ok (h b hb)⟩

theorem keeps_bind {p : Inquiry β α} {f : α → Inquiry β γ} (hp : p.Keeps A P B R)
    (hf : ∀ a, R a → (f a).Keeps A P B Q) : (p.bind f).Keeps A P B Q := by
  induction p with
  | done e =>
    cases e with
    | error e => exact ⟨fun f he => by cases he; exact hp.1 e rfl, fun _ he => by cases he⟩
    | ok a => exact hf a (hp.2 a rfl)
  | ask m next ih => exact ⟨hp.1, fun b hb => ih b (hp.2 b hb)⟩

theorem Keeps.mono {A' : Mention → Prop} {p : Inquiry β α} (h : p.Keeps A P B R)
    (hA : ∀ m, A m → A' m) : p.Keeps A' P B R := by
  induction p with
  | done e => exact h
  | ask m next ih => exact ⟨hA m h.1, fun b hb => ih b (h.2 b hb)⟩

end Inquiry

/-- A word is among the references of a declaration, in the scope of the declaration. -/
def Declaration.Asks (d : Declaration) (meaning : Meaning) (m : Mention) : Prop :=
  m.scope = d.scope ∧ .reference m.meaning m.word ∈ d.node.items meaning

/-- A declaration stands in a scope. -/
def Declaration.StandsIn (S : Scope → Prop) (d : Declaration) : Prop :=
  S d.scope ∧ d.node ∈ d.scope.root.descendants

/-- Inquiries about declarations in some scopes ask for their references and keep `B`. -/
structure Expansion.Keeps (x : Expansion β) (S : Scope → Prop) (P : Failure → Prop) (B : β → Prop) :
    Prop where
  missed : B x.missed
  inquire : ∀ meaning d p, d.StandsIn S → x.inquire meaning d = some p → p.Keeps (d.Asks meaning) P B B

theorem Expansion.Keeps.of_subset {x : Expansion β} {S S' : Scope → Prop} {P : Failure → Prop}
    {B : β → Prop} (hx : x.Keeps S P B) (h : ∀ s, S' s → S s) : x.Keeps S' P B where
  missed := hx.missed
  inquire meaning d p hd hp := hx.inquire meaning d p ⟨h _ hd.1, hd.2⟩ hp

/-! ## Names -/

/-- Reading an item fails only with `P`. -/
def Item.Reads (P : Failure → Prop) : Item → Prop
  | .literal n => FailsOnly P n.stringValue
  | .member n => FailsOnly P n.memberName?
  | _ => True

theorem Item.From.reads {item : Item} {root : Node} {P : Failure → Prop} (h : item.From root)
    (hl : root.Literals P) : item.Reads P := by
  cases item with
  | name t => trivial
  | literal n => exact hl n h
  | member n => exact (hl.below h).memberName?
  | reference meaning word => trivial

theorem Item.inquiry_keeps {scope : Scope} {item : Item} {P : Failure → Prop} (h : item.Reads P) :
    (item.inquiry scope).Keeps
      (fun m => m.scope = scope ∧ .reference m.meaning m.word = item) P (fun _ => True)
      fun _ => True := by
  -- a value that is read keeps nothing but its way to fail
  have read {e : Except Failure (Option Text)} (h : FailsOnly P e) :
      FailsOnly P (e.map Option.toList) := by
    intro f hf
    cases e with
    | error g => cases hf; exact h _ rfl
    | ok r => cases hf
  cases item with
  | name t => exact Inquiry.keeps_done_ok trivial
  | literal n => exact ⟨read h, fun _ _ => trivial⟩
  | member n => exact ⟨read h, fun _ _ => trivial⟩
  | reference meaning word => exact Inquiry.keeps_single ⟨rfl, rfl⟩ fun _ _ => trivial

theorem Item.inquiries_keeps {scope : Scope} {items : List Item} {P : Failure → Prop}
    (h : ∀ item ∈ items, item.Reads P) : (inquiries scope items).Keeps
      (fun m => m.scope = scope ∧ .reference m.meaning m.word ∈ items) P (fun _ => True)
      fun _ => True := by
  induction items with
  | nil => exact Inquiry.keeps_done_ok trivial
  | cons item items ih =>
    rw [inquiries]
    refine Inquiry.keeps_bind (R := fun _ => True) ?_ fun names _ => Inquiry.keeps_bind (R := fun _ => True)
      ?_ fun rest _ => Inquiry.keeps_done_ok trivial
    · exact (inquiry_keeps (h item List.mem_cons_self)).mono fun m hm =>
        ⟨hm.1, hm.2 ▸ List.mem_cons_self⟩
    · exact (ih fun i hi => h i (List.mem_cons_of_mem _ hi)).mono fun m hm =>
        ⟨hm.1, List.mem_cons_of_mem _ hm.2⟩

theorem Expansion.names_keeps {S : Scope → Prop} {P : Failure → Prop}
    (hl : ∀ s, S s → s.root.Literals P) : Expansion.names.Keeps S P fun _ => True where
  missed := trivial
  inquire meaning d p hd hp := by
    cases hp
    exact Item.inquiries_keeps fun item hi =>
      ((Node.items_from meaning d.node item hi).trans hd.2).reads (hl d.scope hd.1)

/-! ## Types -/

namespace Node

/-- The items of a part of a type are items of the type. -/
theorem mem_typeItems_of_part {n c : Node} (hc : c ∈ n.typeParts) {item : Item} (hi : item ∈ c.typeItems)
    (ho : n.kind ≠ .objectType) (hb : n.kind ≠ .interfaceBody) (ht : n.kind ≠ .typeIdentifier) :
    item ∈ n.typeItems := by
  unfold typeItems
  split
  · exact absurd ‹_› ho
  · exact absurd ‹_› hb
  · exact absurd ‹_› ht
  · exact List.mem_flatMap.2 ⟨⟨c, hc⟩, List.mem_attach _ _, hi⟩

theorem reference_mem_typeItems {n : Node} (h : n.kind = .typeIdentifier) :
    .reference .type n.name ∈ n.typeItems := by
  unfold typeItems
  rw [h]
  simp

theorem unparenthesizedType?_spec {n t : Node} (h : n.unparenthesizedType? = some t) :
    t ∈ n.descendants ∧ ∀ item ∈ t.typeItems, item ∈ n.typeItems := by
  fun_induction unparenthesizedType? n with
  | case1 n hk c hc ih =>
    obtain ⟨ht, hi⟩ := ih h
    have hpart : c ∈ n.typeParts := by
      unfold typeParts
      rw [hk]
      simp [hc]
    refine ⟨mem_descendants_trans ht (mem_descendants_of_mem_typeParts hpart), fun item hm => ?_⟩
    exact mem_typeItems_of_part hpart (hi item hm) (by simp [hk]) (by simp [hk]) (by simp [hk])
  | case2 => cases h
  | case3 n hk =>
    cases h
    exact ⟨self_mem_descendants _, fun _ hi => hi⟩

theorem intersectedTypes_spec {n part : Node} (h : part ∈ n.intersectedTypes) :
    part ∈ n.descendants ∧ ∀ item ∈ part.typeItems, item ∈ n.typeItems := by
  fun_induction intersectedTypes n with
  | case1 n hk ih =>
    obtain ⟨⟨c, hc⟩, -, hp⟩ := List.mem_flatMap.1 h
    obtain ⟨ht, hi⟩ := ih c hc hp
    have hpart : c ∈ n.typeParts := by
      unfold typeParts
      rw [hk]
      exact hc
    refine ⟨mem_descendants_trans ht (mem_descendants_of_mem_typeParts hpart), fun item hm => ?_⟩
    exact mem_typeItems_of_part hpart (hi item hm) (by simp [hk]) (by simp [hk]) (by simp [hk])
  | case2 n hk =>
    cases List.mem_singleton.1 h
    exact ⟨self_mem_descendants _, fun _ hi => hi⟩

theorem declaredType?_spec {n t : Node} (h : n.declaredType? = some t) :
    t ∈ n.descendants ∧ ∀ item ∈ t.typeItems, item ∈ n.typeItems := by
  have hpart : t ∈ n.typeParts ∧ (n.kind = .interfaceDeclaration ∨ n.kind = .typeAliasDeclaration) := by
    unfold declaredType? at h
    unfold typeParts
    split at h
    · rename_i hk
      rw [hk]
      simp [h]
    · rename_i hk
      rw [hk]
      simp [h]
    · cases h
  refine ⟨mem_descendants_of_mem_typeParts hpart.1, fun item hm => ?_⟩
  rcases hpart.2 with hk | hk <;>
    exact mem_typeItems_of_part hpart.1 hm (by simp [hk]) (by simp [hk]) (by simp [hk])

theorem constructedType?_mem_descendants {n t : Node} (h : n.constructedType? = some t) :
    t ∈ n.descendants :=
  mem_descendants_of_mem_namedChildren (List.mem_filter.1 (List.mem_of_getLast? h)).1

theorem annotatedMember?_spec {P : Failure → Prop} (name : Text) {ms : List Node}
    (hl : ∀ m ∈ ms, m.Literals P) : FailsOnly P (annotatedMember? name ms) ∧
      ∀ t, annotatedMember? name ms = .ok (some t) → ∃ m ∈ ms, t ∈ m.descendants := by
  induction ms with
  | nil => exact ⟨failsOnly_ok none, fun t h => by cases h⟩
  | cons m ms ih =>
    obtain ⟨hfail, hmem⟩ := ih fun m hm => hl m (List.mem_cons_of_mem _ hm)
    have behind : ∀ t, annotatedMember? name ms = .ok (some t) → ∃ x ∈ m :: ms, t ∈ x.descendants :=
      fun t ht => (hmem t ht).imp fun x hx => And.imp_left (List.mem_cons_of_mem m) hx
    have hname := (hl m List.mem_cons_self).memberName?
    unfold annotatedMember?
    split
    · cases hn : m.memberName? with
      | error f => exact ⟨fun _ h => by cases h; exact hname f hn, fun _ h => by cases h⟩
      | ok found =>
        show FailsOnly P (if found = some name then _ else _) ∧
          ∀ t, (if found = some name then _ else _) = _ → _
        split
        · cases ht : m.annotatedType? with
          | none => exact ⟨hfail, behind⟩
          | some t =>
            refine ⟨failsOnly_ok _, fun _ h => ?_⟩
            cases h
            exact ⟨m, List.mem_cons_self, annotatedType?_mem_descendants ht⟩
        · exact ⟨hfail, behind⟩
    · exact ⟨hfail, behind⟩

end Node

/-- A type, if there is one, stands in a scope. -/
def Located (S : Scope → Prop) (r : Option ScopedType) : Prop :=
  ∀ t ∈ r, S t.2 ∧ t.1 ∈ t.2.root.descendants

theorem located_none (S : Scope → Prop) : Located S none := by
  intro t h
  cases h

theorem located_map {S : Scope → Prop} {scope : Scope} (hs : S scope) {r : Option Node}
    (h : ∀ t ∈ r, t ∈ scope.root.descendants) : Located S (r.map (·, scope)) := by
  intro t ht
  obtain ⟨n, hn, rfl⟩ := Option.map_eq_some_iff.1 ht
  exact ⟨hs, h n hn⟩

section
variable {S : Scope → Prop} {P : Failure → Prop} {scope : Scope} {type : Node}

theorem Node.instanceInquiry_keeps (hs : S scope) (ht : type ∈ scope.root.descendants) :
    (type.instanceInquiry scope).Keeps
      (fun m => m.scope = scope ∧ .reference m.meaning m.word ∈ type.typeItems) P (Located S)
      (Located S) := by
  unfold instanceInquiry
  split
  · exact Inquiry.keeps_done_ok (located_none S)
  · rename_i inner hi
    obtain ⟨hmem, hitems⟩ := unparenthesizedType?_spec hi
    have hroot := mem_descendants_trans hmem ht
    split
    · exact Inquiry.keeps_done_ok (located_map hs fun t h =>
        mem_descendants_trans (constructedType?_mem_descendants h) hroot)
    · split
      · rename_i signature hsig
        have hsig := mem_descendants_of_mem_namedChildren (List.mem_of_find?_eq_some hsig)
        exact Inquiry.keeps_done_ok (located_map hs fun t h => mem_descendants_trans
          (annotatedType?_mem_descendants h) (mem_descendants_trans hsig hroot))
      · exact Inquiry.keeps_done_ok (located_none S)
    · split
      · rename_i signature hsig
        have hsig := mem_descendants_of_mem_namedChildren (List.mem_of_find?_eq_some hsig)
        exact Inquiry.keeps_done_ok (located_map hs fun t h => mem_descendants_trans
          (annotatedType?_mem_descendants h) (mem_descendants_trans hsig hroot))
      · exact Inquiry.keeps_done_ok (located_none S)
    · rename_i hk
      exact Inquiry.keeps_single ⟨rfl, hitems _ (reference_mem_typeItems hk)⟩ fun _ h => h
    · exact Inquiry.keeps_done_ok (located_none S)

theorem Node.memberInquiry_keeps {name : Text} (hl : scope.root.Literals P) (hs : S scope)
    (ht : type ∈ scope.root.descendants) : (type.memberInquiry name scope).Keeps
      (fun m => m.scope = scope ∧ .reference m.meaning m.word ∈ type.typeItems) P (Located S)
      (Located S) := by
  have hparts : ∀ part ∈ type.intersectedTypes, part ∈ scope.root.descendants ∧
      ∀ item ∈ part.typeItems, item ∈ type.typeItems := fun part hp =>
    ⟨mem_descendants_trans (intersectedTypes_spec hp).1 ht, (intersectedTypes_spec hp).2⟩
  unfold memberInquiry
  generalize type.intersectedTypes = parts at hparts
  induction parts with
  | nil => exact Inquiry.keeps_done_ok (located_none S)
  | cons part parts ih =>
    obtain ⟨hpart, hitems⟩ := hparts part List.mem_cons_self
    rw [memberInquiries]
    refine Inquiry.keeps_bind (R := Located S) ?_ fun r hr => ?_
    · unfold memberInquiryOf
      split
      · rename_i hk
        exact Inquiry.keeps_single ⟨rfl, hitems _ (reference_mem_typeItems hk)⟩ fun _ h => h
      · have hm : ∀ m ∈ part.namedChildren, m.Literals P := fun m hm => (hl.below hpart).namedChild hm
        obtain ⟨hfail, hmem⟩ := annotatedMember?_spec name hm
        refine ⟨fun f hf => ?_, fun r hr => ?_⟩
        · cases he : annotatedMember? name part.namedChildren with
          | error g => rw [he] at hf; cases hf; exact hfail _ he
          | ok r => rw [he] at hf; cases hf
        · cases he : annotatedMember? name part.namedChildren with
          | error g => rw [he] at hr; cases hr
          | ok found =>
            rw [he] at hr
            cases hr
            refine located_map hs fun t h => ?_
            cases h
            obtain ⟨m, hm, htm⟩ := hmem t he
            exact mem_descendants_trans htm
              (mem_descendants_trans (mem_descendants_of_mem_namedChildren hm) hpart)
    · cases r with
      | some t => exact Inquiry.keeps_done_ok hr
      | none => exact ih fun p hp => hparts p (List.mem_cons_of_mem _ hp)

end

/-- An expansion for types keeps types located if what it asks of a declared type does. -/
theorem Expansion.types_keeps {S : Scope → Prop} {P : Failure → Prop}
    {inquiry : Node → Scope → Inquiry (Option ScopedType) (Option ScopedType)}
    (h : ∀ scope type, S scope → type ∈ scope.root.descendants → (inquiry type scope).Keeps
      (fun m => m.scope = scope ∧ .reference m.meaning m.word ∈ type.typeItems) P (Located S)
      (Located S)) : (Expansion.types inquiry).Keeps S P (Located S) where
  missed := located_none S
  inquire meaning d p hd hp := by
    cases meaning with
    | value => cases hp
    | type =>
      obtain ⟨t, ht, rfl⟩ := Option.map_eq_some_iff.1 hp
      obtain ⟨hmem, hitems⟩ := Node.declaredType?_spec ht
      exact (h d.scope t hd.1 (Node.mem_descendants_trans hmem hd.2)).mono
        fun m hm => ⟨hm.1, hitems _ hm.2⟩

end SurfaceCoverage
