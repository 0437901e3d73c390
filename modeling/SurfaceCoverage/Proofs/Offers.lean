import SurfaceCoverage.Lookup.Candidates
import SurfaceCoverage.Proofs.Descendants
/-!
# What a module offers

Where the candidates of a lookup come from. A declaration offered for a name stands below the root
of its script and has a shape that names can be read from. A word that is passed on is an identifier
of the script or stands in an export clause.
-/

namespace SurfaceCoverage

namespace Node

/-- What a lookup of a value or a type can find: an array, an object or a cast to a generic type, or
an interface or a type alias. -/
def Declares : Meaning → Node → Prop
  | .value, n => n.kind = .array ∨ n.kind = .object ∨
      ∃ type, n.castType? = some type ∧ type.kind = .genericType
  | .type, n => n.isTypeDeclaration = true

/-- A node is found as a value or as a type, not as both. -/
theorem Declares.meaning_eq {n : Node} {meaning meaning' : Meaning} (h : n.Declares meaning)
    (h' : n.Declares meaning') : meaning = meaning' := by
  have disjoint (hv : n.Declares .value) (ht : n.Declares .type) : False := by
    have ht : n.kind = .interfaceDeclaration ∨ n.kind = .typeAliasDeclaration := by
      simpa [Declares, isTypeDeclaration] using ht
    rcases hv with hk | hk | ⟨type, hcast, -⟩
    · rcases ht with ht | ht <;> rw [hk] at ht <;> cases ht
    · rcases ht with ht | ht <;> rw [hk] at ht <;> cases ht
    · unfold castType? at hcast
      rcases ht with ht | ht <;> rw [ht] at hcast <;> cases hcast
  cases meaning <;> cases meaning'
  · rfl
  · exact (disjoint h h').elim
  · exact (disjoint h' h).elim
  · rfl

theorem declaredValue?_declares {value n : Node} (h : value.declaredValue? = some n) :
    n ∈ value.descendants ∧ n.Declares .value := by
  unfold declaredValue? at h
  simp only at h
  split at h
  · rename_i hk
    cases h
    exact ⟨unwrap_mem_descendants value, hk.elim .inl fun hk => .inr (.inl hk)⟩
  · obtain ⟨⟨cast, type⟩, hg, rfl⟩ := Option.map_eq_some_iff.1 h
    refine ⟨(genericCast?_mem_descendants hg).1, .inr (.inr ⟨type, ?_⟩)⟩
    unfold genericCast? at hg
    simp only at hg
    split at hg
    · split at hg
      · cases hg
        exact ⟨‹_›, ‹_›⟩
      · cases hg
    · cases hg

/-- The ways on from an initial value: one declaration, or one word. -/
theorem mem_valueCandidates {value : Node} {c : Candidate} :
    c ∈ value.valueCandidates ↔
      (∃ n, value.declaredValue? = some n ∧ c = .here n) ∨
      (value.declaredValue? = none ∧ value.unwrap.kind = .identifier ∧
        c = .sibling value.unwrap.name) := by
  unfold valueCandidates
  split
  · rename_i n h
    simp [h]
  · rename_i h
    simp only [h, reduceCtorEq, false_and, exists_false, false_or, true_and]
    split
    · rename_i hk
      simp [hk]
    · rename_i hk
      simp [hk]

theorem initialValue?_eq_some {name : Text} {d value : Node} :
    initialValue? name d = some value ↔
      ∃ target, d.child? .name = some target ∧ target.kind = .identifier ∧ target.name = name ∧
        d.child? .value = some value := by
  unfold initialValue?
  split
  · rename_i target h
    simp only [h, Option.some.injEq, exists_eq_left']
    split
    · rename_i hk
      simp [hk.1, hk.2]
    · rename_i hk
      simp only [reduceCtorEq, false_iff]
      exact fun ⟨hi, hn, _⟩ => hk ⟨hi, hn⟩
  · rename_i h
    simp [h]

theorem initialValue?_mem_descendants {name : Text} {d value : Node}
    (h : initialValue? name d = some value) : value ∈ d.descendants := by
  obtain ⟨_, -, -, -, hv⟩ := initialValue?_eq_some.1 h
  exact mem_descendants_of_child? hv

theorem localInitializer?_mem_descendants {root value : Node} {name : Text}
    (h : root.localInitializer? name = some value) : value ∈ root.descendants := by
  obtain ⟨d, hd, hv⟩ := List.exists_of_findSome?_eq_some h
  exact mem_descendants_trans (initialValue?_mem_descendants hv) (mem_descendants_of_findAll hd).1

theorem localType?_spec {root n : Node} {name : Text} (h : root.localType? name = some n) :
    n ∈ root.descendants ∧ n.isTypeDeclaration = true := by
  refine ⟨List.mem_of_find?_eq_some h, ?_⟩
  have := List.find?_some h
  simp only [declaresType, Bool.and_eq_true] at this
  exact this.1

end Node
end SurfaceCoverage
