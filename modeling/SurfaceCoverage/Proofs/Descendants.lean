import SurfaceCoverage.Tree.Shape
/-!
# Nodes below a node

The traversal of a tree is its pre-order, so a node's descendants are the node itself and the
descendants of its children. Every part that a declaration is taken from stands below the root of
its script.
-/

namespace SurfaceCoverage.Node

/-! ## Traversal and pre-order -/

attribute [local simp] preorder preorderAll children

theorem preorder_eq (n : Node) : n.preorder = n :: preorderAll n.children := by
  cases n <;> simp

theorem preorderAll_append (ms ns : List Node) :
    preorderAll (ms ++ ns) = preorderAll ms ++ preorderAll ns := by
  induction ms with
  | nil => rfl
  | cons m ms ih => simp [ih]

/-- Keeping the pending nodes in a list visits them in pre-order. -/
theorem visit_eq (ns : List Node) : visit ns = preorderAll ns := by
  fun_induction visit ns with
  | case1 => rfl
  | case2 n pending ih => rw [ih, preorderAll_append, preorderAll, preorder_eq, List.cons_append]

theorem descendants_eq (n : Node) : n.descendants = n :: preorderAll n.children := by
  rw [descendants, visit_eq, preorderAll, preorderAll, List.append_nil, preorder_eq]

theorem preorder_eq_descendants (n : Node) : n.preorder = n.descendants := by
  rw [preorder_eq, descendants_eq]

theorem length_preorderAll (ns : List Node) : (preorderAll ns).length = sizeAll ns := by
  rw [← visit_eq]
  fun_induction visit ns with
  | case1 => rfl
  | case2 n pending ih =>
    rw [List.length_cons, ih, sizeAll_append, sizeAll, size_eq]
    omega

/-- A tree has as many nodes as its size says. -/
theorem length_descendants (n : Node) : n.descendants.length = n.size := by
  rw [descendants_eq, List.length_cons, length_preorderAll, size_eq]

theorem mem_preorderAll {a : Node} {ns : List Node} :
    a ∈ preorderAll ns ↔ ∃ n ∈ ns, a ∈ n.descendants := by
  induction ns with
  | nil => simp
  | cons n ns ih => rw [preorderAll, List.mem_append, ih, preorder_eq, ← descendants_eq]; simp

/-! ## Below -/

theorem mem_descendants {a n : Node} :
    a ∈ n.descendants ↔ a = n ∨ ∃ c ∈ n.children, a ∈ c.descendants := by
  rw [descendants_eq, List.mem_cons, mem_preorderAll]

theorem self_mem_descendants (n : Node) : n ∈ n.descendants := mem_descendants.2 (.inl rfl)

theorem mem_descendants_of_mem_children {c n : Node} (h : c ∈ n.children) : c ∈ n.descendants :=
  mem_descendants.2 (.inr ⟨c, h, self_mem_descendants c⟩)

theorem mem_descendants_trans {a b n : Node} (hab : a ∈ b.descendants) (hbn : b ∈ n.descendants) :
    a ∈ n.descendants := by
  induction hs : n.size using Nat.strongRecOn generalizing n with
  | _ s ih =>
    rcases mem_descendants.1 hbn with rfl | ⟨c, hc, hbc⟩
    · exact hab
    · have hlt := size_lt_of_mem_children hc
      exact mem_descendants.2 (.inr ⟨c, hc, ih c.size (hs ▸ hlt) hbc rfl⟩)

theorem size_le_of_mem_descendants {a n : Node} (h : a ∈ n.descendants) : a.size ≤ n.size := by
  induction hs : n.size using Nat.strongRecOn generalizing n with
  | _ s ih =>
    rcases mem_descendants.1 h with rfl | ⟨c, hc, hac⟩
    · omega
    · have hlt := size_lt_of_mem_children hc
      have hle := ih c.size (by omega) hac rfl
      omega

/-! ### Parts of a node -/

theorem mem_descendants_of_mem_namedChildren {c n : Node} (h : c ∈ n.namedChildren) :
    c ∈ n.descendants :=
  mem_descendants_of_mem_children (mem_children_of_mem_namedChildren h)

theorem mem_descendants_of_child? {c n : Node} {r : Role} (h : n.child? r = some c) :
    c ∈ n.descendants :=
  mem_descendants_of_mem_children (List.mem_of_find?_eq_some h)

theorem mem_descendants_of_findAll {c n : Node} {k : Kind} (h : c ∈ n.findAll k) :
    c ∈ n.descendants ∧ c.kind = k := by
  simpa [findAll] using h

theorem mem_namedChildren_of_wrapped? {c n : Node} (h : n.wrapped? = some c) :
    c ∈ n.namedChildren := by
  unfold wrapped? at h
  split at h
  · exact List.mem_of_find?_eq_some h
  · split at h
    · exact List.mem_of_head? h
    · cases h

theorem unwrap_mem_descendants (n : Node) : n.unwrap ∈ n.descendants := by
  fun_induction unwrap n with
  | case1 n c h ih =>
    exact mem_descendants_trans ih
      (mem_descendants_of_mem_namedChildren (mem_namedChildren_of_wrapped? h))
  | case2 n h => exact self_mem_descendants n

theorem unbracket_mem_descendants (n : Node) : n.unbracket ∈ n.descendants := by
  fun_induction unbracket n with
  | case1 n c h ih =>
    unfold bracketed? at h
    split at h
    · exact mem_descendants_trans ih (mem_descendants_of_mem_namedChildren (List.mem_of_head? h))
    · cases h
  | case2 n h => exact self_mem_descendants n

theorem castType?_mem_descendants {n type : Node} (h : n.castType? = some type) :
    type ∈ n.descendants := by
  unfold castType? at h
  split at h
  · simp only at h
    split at h
    · exact mem_descendants_of_mem_namedChildren (List.mem_of_getLast? h)
    · cases h
  · simp only at h
    split at h
    · exact mem_descendants_of_mem_namedChildren (List.mem_of_getLast? h)
    · cases h
  · split at h
    · rename_i types ht
      exact mem_descendants_trans (mem_descendants_of_mem_namedChildren (List.mem_of_head? h))
        (mem_descendants_of_mem_namedChildren (List.mem_of_find?_eq_some ht))
    · cases h
  · cases h

theorem genericCast?_mem_descendants {n cast type : Node} (h : n.genericCast? = some (cast, type)) :
    cast ∈ n.descendants ∧ type ∈ n.descendants := by
  unfold genericCast? at h
  simp only at h
  split at h
  · rename_i t ht
    split at h
    · cases h
      have hc := unbracket_mem_descendants n
      exact ⟨hc, mem_descendants_trans (castType?_mem_descendants ht) hc⟩
    · cases h
  · cases h

theorem mem_descendants_of_mem_callArguments {call a : Node} (h : a ∈ call.callArguments) :
    a ∈ call.descendants := by
  unfold callArguments at h
  split at h
  · rename_i arguments ha
    split at h
    · exact mem_descendants_trans (mem_descendants_of_mem_namedChildren h)
        (mem_descendants_of_child? ha)
    · cases h
  · cases h

end SurfaceCoverage.Node
