import SurfaceCoverage.Names.Items
import SurfaceCoverage.Proofs.Descendants
/-!
# Where items come from

The literals and members among the items of a declaration stand below it, and a word that its value
refers to is an identifier below it. References of a type are to types only.
-/

namespace SurfaceCoverage

/-- An item is taken from a tree. -/
def Item.From (n : Node) : Item → Prop
  | .name _ => True
  | .literal x | .member x => x ∈ n.descendants
  | .reference .value word => ∃ x ∈ n.descendants, x.kind = .identifier ∧ x.name = word
  | .reference .type _ => True

theorem Item.From.trans {a n : Node} {item : Item} (h : item.From a) (ha : a ∈ n.descendants) :
    item.From n := by
  match item, h with
  | .name _, _ => trivial
  | .literal _, h => exact Node.mem_descendants_trans h ha
  | .member _, h => exact Node.mem_descendants_trans h ha
  | .reference .value _, ⟨x, hx, hk⟩ => exact ⟨x, Node.mem_descendants_trans hx ha, hk⟩
  | .reference .type _, _ => trivial

namespace Node

/-- The parts of a type stand below it. -/
theorem mem_descendants_of_mem_typeArguments {c n : Node} (h : c ∈ n.typeArguments) :
    c ∈ n.descendants := by
  unfold typeArguments at h
  split at h
  · rename_i types ht
    refine mem_descendants_trans (mem_descendants_of_mem_namedChildren h) ?_
    rcases Option.or_eq_some_iff.1 ht with ht | ⟨-, ht⟩
    · exact mem_descendants_of_child? ht
    · exact mem_descendants_of_mem_children (List.mem_of_find?_eq_some ht)
  · cases h

theorem mem_descendants_of_mem_typeParts {c n : Node} (h : c ∈ n.typeParts) : c ∈ n.descendants := by
  have head {c : Node} (h : c ∈ n.namedChildren.head?.toList) : c ∈ n.descendants :=
    mem_descendants_of_mem_namedChildren (List.mem_of_head? (by simpa using h))
  have child {c : Node} {r : Role} (h : c ∈ (n.child? r).toList) : c ∈ n.descendants :=
    mem_descendants_of_child? (r := r) (by simpa using h)
  unfold typeParts at h
  split at h
  · exact head h
  · exact head h
  · exact mem_descendants_of_mem_namedChildren h
  · exact mem_descendants_of_mem_namedChildren h
  · split at h
    · rename_i hs
      exact mem_descendants_of_mem_typeArguments (by simp_all)
    · exact child h
  · rcases List.mem_append.1 h with h | h
    · obtain ⟨m, hm, hc⟩ := List.mem_flatMap.1 h
      exact mem_descendants_trans (mem_descendants_of_mem_namedChildren hc)
        (mem_descendants_of_mem_namedChildren (List.mem_filter.1 hm).1)
    · exact child h
  · exact child h
  · cases h

theorem literalTypeItems_from (n : Node) : ∀ item ∈ n.literalTypeItems, item.From n := by
  fun_induction literalTypeItems n with
  | case1 n _ =>
    intro item hi
    obtain ⟨c, hc, rfl⟩ := List.mem_map.1 hi
    exact mem_descendants_of_mem_namedChildren hc
  | case2 n _ ih =>
    intro item hi
    obtain ⟨⟨c, hc⟩, -, hi⟩ := List.mem_flatMap.1 hi
    exact (ih c hc item hi).trans (mem_descendants_of_mem_namedChildren hc)
  | case3 n _ ih =>
    intro item hi
    obtain ⟨⟨c, hc⟩, -, hi⟩ := List.mem_flatMap.1 hi
    exact (ih c hc item hi).trans (mem_descendants_of_mem_namedChildren hc)
  | case4 => simp

theorem annotatedType?_mem_descendants {n type : Node} (h : n.annotatedType? = some type) :
    type ∈ n.descendants := by
  have hasc {a : Node} (h : n.ascription? = some a) : a ∈ n.descendants := by
    unfold ascription? at h
    simp only at h
    split at h
    · rename_i b hb
      split at h
      · cases h
        exact mem_descendants_of_child? hb
      · rcases Option.or_eq_some_iff.1 h with h | ⟨-, h⟩
        · exact mem_descendants_of_mem_namedChildren (List.mem_of_find?_eq_some h)
        · cases h
          exact mem_descendants_of_child? hb
    · exact mem_descendants_of_mem_namedChildren (List.mem_of_find?_eq_some h)
  unfold annotatedType? at h
  split at h
  · rename_i a ha
    split at h
    · exact mem_descendants_trans (mem_descendants_of_mem_namedChildren (List.mem_of_head? h)) (hasc ha)
    · cases h
      exact hasc ha
  · cases h

theorem signatureItems_from (n : Node) : ∀ item ∈ n.signatureItems, item.From n := by
  intro item hi
  unfold signatureItems at hi
  split at hi
  · rename_i type ht
    obtain ⟨p, hp, ht⟩ := Option.bind_eq_some_iff.1 ht
    have hp : p ∈ n.descendants := by
      have hp := List.mem_of_head? hp
      unfold signatureParameters at hp
      split at hp
      · rename_i ps hps
        refine mem_descendants_trans (mem_descendants_of_mem_namedChildren hp) ?_
        rcases Option.or_eq_some_iff.1 hps with hps | ⟨-, hps⟩
        · exact mem_descendants_of_child? hps
        · exact mem_descendants_of_mem_namedChildren (List.mem_of_find?_eq_some hps)
      · cases hp
    exact (literalTypeItems_from type item hi).trans
      (mem_descendants_trans (annotatedType?_mem_descendants ht) hp)
  · cases hi

theorem typeMemberItems_from (n : Node) : ∀ item ∈ n.typeMemberItems, item.From n := by
  intro item hi
  unfold typeMemberItems at hi
  split at hi
  · exact signatureItems_from n item hi
  · rw [List.mem_singleton.1 hi]
    exact self_mem_descendants n
  · rw [List.mem_singleton.1 hi]
    exact self_mem_descendants n
  · cases hi

theorem typeItems_from (n : Node) : ∀ item ∈ n.typeItems, item.From n := by
  have members {n : Node} : ∀ item ∈ n.namedChildren.flatMap typeMemberItems, item.From n := by
    intro item hi
    obtain ⟨c, hc, hi⟩ := List.mem_flatMap.1 hi
    exact (typeMemberItems_from c item hi).trans (mem_descendants_of_mem_namedChildren hc)
  fun_induction typeItems n with
  | case1 n _ => exact members
  | case2 n _ => exact members
  | case3 n _ =>
    intro item hi
    rw [List.mem_singleton.1 hi]
    trivial
  | case4 n _ _ _ ih =>
    intro item hi
    obtain ⟨⟨c, hc⟩, -, hi⟩ := List.mem_flatMap.1 hi
    exact (ih c hc item hi).trans (mem_descendants_of_mem_typeParts hc)

/-! ## Values -/

theorem spreadItems_from (n : Node) : ∀ item ∈ n.spreadItems, item.From n := by
  intro item hi
  unfold spreadItems at hi
  split at hi
  · rename_i target ht
    obtain ⟨c, hc, rfl⟩ := Option.map_eq_some_iff.1 ht
    split at hi
    · rename_i hk
      rw [List.mem_singleton.1 hi]
      exact ⟨c.unwrap, mem_descendants_trans (unwrap_mem_descendants c)
        (mem_descendants_of_mem_namedChildren (List.mem_of_head? hc)), hk, rfl⟩
    · cases hi
  · cases hi

theorem elementItems_from (n : Node) : ∀ item ∈ n.elementItems, item.From n := by
  intro item hi
  unfold elementItems at hi
  split at hi
  · rw [List.mem_singleton.1 hi]
    exact self_mem_descendants n
  · rw [List.mem_singleton.1 hi]
    exact self_mem_descendants n
  · rw [List.mem_singleton.1 hi]
    trivial
  · exact spreadItems_from n item hi
  · cases hi

theorem arrayItems_from (n : Node) : ∀ item ∈ n.arrayItems, item.From n := by
  intro item hi
  obtain ⟨c, hc, hi⟩ := List.mem_flatMap.1 hi
  exact (elementItems_from c item hi).trans (mem_descendants_of_mem_namedChildren hc)

theorem objectItems_from (n : Node) : ∀ item ∈ n.objectItems, item.From n := by
  intro item hi
  obtain ⟨c, hc, hi⟩ := List.mem_flatMap.1 hi
  have hc := mem_descendants_of_mem_namedChildren hc
  split at hi
  · exact (spreadItems_from c item hi).trans hc
  · rw [List.mem_singleton.1 hi]
    exact hc

theorem plainItems_from (n : Node) : ∀ item ∈ n.plainItems, item.From n := by
  intro item hi
  unfold plainItems at hi
  split at hi
  · exact arrayItems_from n item hi
  · exact objectItems_from n item hi
  · rename_i hk
    rw [List.mem_singleton.1 hi]
    exact ⟨n, self_mem_descendants n, hk, rfl⟩
  · cases hi

theorem valueItems_from (n : Node) : ∀ item ∈ n.valueItems, item.From n := by
  have plain : ∀ item ∈ n.unwrap.plainItems, item.From n := fun item hi =>
    (plainItems_from n.unwrap item hi).trans (unwrap_mem_descendants n)
  intro item hi
  unfold valueItems at hi
  split at hi
  · rename_i cast type hg
    split at hi
    · exact plain item hi
    · exact (typeItems_from type item hi).trans (genericCast?_mem_descendants hg).2
  · exact plain item hi

/-- Every item of a declaration is taken from it. -/
theorem items_from (meaning : Meaning) (n : Node) : ∀ item ∈ n.items meaning, item.From n := by
  cases meaning with
  | value => exact valueItems_from n
  | type => exact typeItems_from n

end Node
end SurfaceCoverage
