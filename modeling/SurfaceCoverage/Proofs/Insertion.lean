import SurfaceCoverage.Proofs.Likeness
/-!
# Scripts with more statements

A script grows by a statement at its end, at its start or between two others, at the top or in a
block at any depth. Nothing else about it changes: a node of the larger script has the kind, the
part, the words and the named parts of the node it comes from, and the nodes that come from the
smaller script stand in the same order. So whatever is read from a node without looking into its
blocks is the same in both scripts.
-/

namespace SurfaceCoverage
namespace Node

/-- A node after a statement may have been put into a block below it, behind the brace that opens
the block. Neither a word nor the name of an attribute has a block. -/
inductive Grows : Node → Node → Prop where
  | same (n : Node) : Grows n n
  | block {r : Role} {brace statement : Node} {before after : List Node} (opens : brace.text ≠ "")
      (part : statement.role = .none) :
      Grows (branch r .statementBlock (brace :: before ++ after))
        (branch r .statementBlock (brace :: before ++ statement :: after))
  | under {r : Role} {k : Kind} {before after : List Node} {n n' : Node} (grows : Grows n n')
      (phrase : k.isWord = false)
      (value : k = .jsxAttribute → (branch r k before).namedChildren ≠ []) :
      Grows (branch r k (before ++ n :: after)) (branch r k (before ++ n' :: after))

/-- A script after a statement was put among those at its top or into a block. -/
inductive Inserts : Node → Node → Prop where
  | top {r : Role} {statement : Node} {before after : List Node} :
      Inserts (branch r .program (before ++ after)) (branch r .program (before ++ statement :: after))
  | inside {n n' : Node} (grows : Grows n n') : Inserts n n'

instance : Std.Refl Grows := ⟨.same⟩

namespace Grows

variable {n n' : Node}

/-! ## The node itself -/

theorem role_eq (h : n.Grows n') : n.role = n'.role := by cases h <;> rfl

theorem kind_eq (h : n.Grows n') : n.kind = n'.kind := by cases h <;> rfl

theorem eq_of_isWord (h : n.Grows n') (hk : n.kind.isWord = true) : n = n' := by
  cases h with
  | same => rfl
  | block => cases hk
  | under _ phrase => rw [kind, phrase] at hk; cases hk

/-- The text of a node grows behind a part that it begins with. -/
theorem name_eq_append (h : n.Grows n') :
    ∃ front added back, n.name = front ++ back ∧ n'.name = front ++ added ++ back ∧
      (front = [] → added = []) := by
  have name_branch (r k cs) : (branch r k cs).name = cs.flatMap name := by
    simp only [name, text]
    induction cs with
    | nil => rfl
    | cons c cs ih =>
      simp only [List.flatMap_cons, textAll, name, Text.ofString, Text.ofChars, String.toList_append,
        List.map_append] at ih ⊢
      rw [ih]
  induction h with
  | same n => exact ⟨n.name, [], [], by simp, by simp, fun _ => rfl⟩
  | @block r brace statement before after opens _ =>
    refine ⟨brace.name ++ before.flatMap name, statement.name, after.flatMap name, ?_, ?_, ?_⟩
    · simp [name_branch]
    · simp [name_branch]
    · intro hnil
      have hbrace : brace.text.toList = [] := by
        simpa [name, Text.ofString, Text.ofChars] using (List.append_eq_nil_iff.1 hnil).1
      exact (opens (by simpa using hbrace)).elim
  | @under r k before after n n' _ _ _ ih =>
    obtain ⟨front, added, back, hn, hn', hfront⟩ := ih
    refine ⟨before.flatMap name ++ front, added, back ++ after.flatMap name, ?_, ?_, ?_⟩
    · simp [name_branch, hn]
    · simp [name_branch, hn']
    · exact fun hnil => hfront (List.append_eq_nil_iff.1 hnil).2

/-! ## Its parts -/

theorem children (h : n.Grows n') (hk : n.kind ≠ .statementBlock) :
    List.Forall₂ Grows n.children n'.children := by
  cases h with
  | same n => exact List.forall₂_refl _
  | block => exact (hk rfl).elim
  | under grows => exact List.rel_append (List.forall₂_refl _) (.cons grows (List.forall₂_refl _))

end Grows

theorem sublistForall₂_filter {α β : Type} {R : α → β → Prop} {as : List α} {bs : List β}
    {p : α → Bool} {q : β → Bool} (h : List.SublistForall₂ R as bs)
    (hpq : ∀ a b, R a b → p a = q b) :
    List.SublistForall₂ (fun a b => R a b ∧ p a = true) (as.filter p) (bs.filter q) := by
  induction h with
  | nil => exact .nil
  | @cons a b _ _ hab _ ih =>
    rw [List.filter_cons, List.filter_cons, ← hpq a b hab]
    split
    · exact .cons ⟨hab, ‹_›⟩ ih
    · exact ih
  | cons_right _ ih =>
    rw [List.filter_cons]
    split
    · exact .cons_right ih
    · exact ih

namespace Grows

variable {n n' : Node}

theorem namedChildren_sublist (h : n.Grows n') :
    List.SublistForall₂ Grows n.namedChildren n'.namedChildren := by
  have hchildren : List.SublistForall₂ Grows n.children n'.children := by
    cases h with
    | same n => exact Std.Refl.refl _
    | block =>
      refine List.Sublist.sublistForall₂ ?_
      exact List.Sublist.append (List.Sublist.refl _) (List.sublist_cons_self _ _)
    | under grows =>
      refine List.sublistForall₂_iff.2 ⟨_, ?_, List.Sublist.refl _⟩
      exact List.rel_append (List.forall₂_refl _) (.cons grows (List.forall₂_refl _))
  have hnamed := sublistForall₂_filter (p := fun c => c.isNamed && c.kind != .comment)
    (q := fun c => c.isNamed && c.kind != .comment) hchildren
    fun c c' hc => by rw [Node.isNamed, Node.isNamed, hc.kind_eq]
  obtain ⟨l, hl, hsub⟩ := List.sublistForall₂_iff.1 hnamed
  exact List.sublistForall₂_iff.2 ⟨l, hl.imp fun _ _ h => h.1, hsub⟩

/-- A statement plays no part in its block, so the parts of a node are those it comes from. -/
theorem child? (h : n.Grows n') {r : Role} (hr : r ≠ .none) :
    Option.Rel Grows (n.child? r) (n'.child? r) := by
  by_cases hk : n.kind = .statementBlock
  · cases h with
    | same => exact rel_refl _
    | @block r' brace statement before after _ part =>
      have hskip : (statement.role == r) = false := by
        rw [part]
        exact beq_eq_false_iff_ne.2 hr.symm
      have heq : (branch r' .statementBlock (brace :: before ++ statement :: after)).child? r =
          (branch r' .statementBlock (brace :: before ++ after)).child? r := by
        simp only [Node.child?, Node.children, List.find?_append, List.find?_cons, hskip]
      rw [heq]
      exact rel_refl _
    | under grows =>
      exact rel_find? (List.rel_append (List.forall₂_refl _) (.cons grows (List.forall₂_refl _)))
        fun c c' hc => by rw [hc.role_eq]
  · exact rel_find? (h.children hk) fun c c' hc => by rw [hc.role_eq]

theorem exists_child (h : n.Grows n') {r : Role} {c : Node} (hc : n.child? r = some c)
    (hr : r ≠ .none) : ∃ c', n'.child? r = some c' ∧ c.Grows c' :=
  exists_of_rel (h.child? hr) hc

theorem child_eq_none (h : n.Grows n') {r : Role} (hc : n.child? r = none) (hr : r ≠ .none) :
    n'.child? r = none :=
  eq_none_of_rel (h.child? hr) hc

theorem callArguments (h : n.Grows n') : List.Forall₂ Grows n.callArguments n'.callArguments := by
  unfold Node.callArguments
  rcases ha : n.child? .arguments with _ | a
  · rw [h.child_eq_none ha nofun]
    exact .nil
  · obtain ⟨a', ha', haa⟩ := h.exists_child ha nofun
    simp only [ha', ← haa.kind_eq]
    split
    · rename_i hk
      refine List.rel_filter (fun c c' hc => ?_) (haa.children (by rw [hk]; nofun))
      simp only [isNamed, hc.kind_eq]
    · exact .nil

end Grows

instance : Likeness Grows where
  kind_eq := Grows.kind_eq
  text_eq h hw := by rw [h.eq_of_isWord hw]
  children h hk := h.children fun hblock => by rw [hblock] at hk; cases hk
  child? h hr _ := h.child? hr

instance : MemberLikeness Grows where
  members h hk := List.rel_filter (fun c c' hc => by simp only [isNamed, hc.kind_eq])
    (h.children fun hblock => by cases hk.symm.trans hblock)

instance : ValueLikeness Grows where
  value h := rel_map (h.child? nofun) fun _ _ hv => unwrap_congr hv
  arguments h _ := h.callArguments.imp fun _ _ ha => unwrap_congr ha

namespace Grows

variable {n n' : Node}

/-! ## The nodes below -/

theorem sublistForall₂_append {as bs cs ds : List Node} (h : List.SublistForall₂ Grows as bs)
    (h' : List.SublistForall₂ Grows cs ds) : List.SublistForall₂ Grows (as ++ cs) (bs ++ ds) := by
  rw [List.sublistForall₂_iff] at h h' ⊢
  obtain ⟨l, hl, hsub⟩ := h
  obtain ⟨l', hl', hsub'⟩ := h'
  exact ⟨l ++ l', List.rel_append hl hl', hsub.append hsub'⟩

/-- The nodes that come from the smaller tree stand in their order among those of the larger one. -/
theorem descendants (h : n.Grows n') : List.SublistForall₂ Grows n.descendants n'.descendants := by
  induction h with
  | same n => exact Std.Refl.refl _
  | block opens part =>
    rw [descendants_eq, descendants_eq]
    refine .cons (.block opens part) (List.Sublist.sublistForall₂ ?_)
    simp only [Node.children, preorderAll_append, preorderAll]
    exact List.Sublist.append (List.Sublist.refl _) (List.sublist_append_right _ _)
  | @under r k before after n n' grows phrase value ih =>
    rw [descendants_eq, descendants_eq]
    refine .cons (.under grows phrase value) ?_
    simp only [Node.children, preorderAll_append, preorderAll, preorder_eq_descendants]
    exact sublistForall₂_append (Std.Refl.refl _) (sublistForall₂_append ih (Std.Refl.refl _))

end Grows

namespace Inserts

variable {n n' : Node}

theorem kind_eq (h : n.Inserts n') : n.kind = n'.kind := by
  cases h with
  | top => rfl
  | inside grows => exact grows.kind_eq

/-- Only a whole script gets a statement at its top. -/
theorem grows (h : n.Inserts n') (hk : n.kind ≠ .program) : n.Grows n' := by
  cases h with
  | top => exact (hk rfl).elim
  | inside grows => exact grows

theorem descendants (h : n.Inserts n') :
    List.SublistForall₂ Inserts n.descendants n'.descendants := by
  have lift {as bs : List Node} (h : List.SublistForall₂ Grows as bs) :
      List.SublistForall₂ Inserts as bs := by
    obtain ⟨l, hl, hsub⟩ := List.sublistForall₂_iff.1 h
    exact List.sublistForall₂_iff.2 ⟨l, hl.imp fun _ _ => .inside, hsub⟩
  cases h with
  | top =>
    rw [descendants_eq, descendants_eq]
    refine .cons .top (lift (List.Sublist.sublistForall₂ ?_))
    simp only [Node.children, preorderAll_append, preorderAll]
    exact List.Sublist.append (List.Sublist.refl _) (List.sublist_append_right _ _)
  | inside grows => exact lift grows.descendants

end Inserts
end Node
end SurfaceCoverage
