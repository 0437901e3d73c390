import SurfaceCoverage.Names.Items
import SurfaceCoverage.Proofs.Grafting
/-!
# Items of nodes with statements put in

Items are read from the parts of types and values, and no list of statements is among these. So a
node has the items that it had before statements were put in below it: its words are the same, and
its literals and members are read alike.
-/

namespace SurfaceCoverage

section
variable {α β : Type} {R : α → β → Prop} {as : List α} {bs : List β}

theorem rel_getLast? (h : List.Forall₂ R as bs) : Option.Rel R as.getLast? bs.getLast? := by
  rw [← List.head?_reverse, ← List.head?_reverse]
  exact rel_head? (List.rel_reverse h)

theorem rel_or {a a' : Option α} {b b' : Option β} (h : Option.Rel R a b)
    (h' : Option.Rel R a' b') : Option.Rel R (a.or a') (b.or b') := by
  cases h with
  | none => exact h'
  | some h => exact .some h

theorem forall₂_toList {a : Option α} {b : Option β} (h : Option.Rel R a b) :
    List.Forall₂ R a.toList b.toList := by
  cases h with
  | none => exact .nil
  | some h => exact .cons h .nil

theorem forall₂_flatMap {γ δ : Type} {S : γ → δ → Prop} {f : α → List γ} {g : β → List δ}
    (h : List.Forall₂ R as bs) (hf : ∀ a ∈ as, ∀ b, R a b → List.Forall₂ S (f a) (g b)) :
    List.Forall₂ S (as.flatMap f) (bs.flatMap g) := by
  induction h with
  | nil => exact .nil
  | cons hab _ ih =>
    exact List.rel_append (hf _ List.mem_cons_self _ hab)
      (ih fun a ha => hf a (List.mem_cons_of_mem _ ha))

theorem any_eq_of_forall₂ {p : α → Bool} {q : β → Bool} (h : List.Forall₂ R as bs)
    (hpq : ∀ a b, R a b → p a = q b) : as.any p = bs.any q := by
  induction h with
  | nil => rfl
  | @cons a b as bs hab _ ih => rw [List.any_cons, List.any_cons, hpq a b hab, ih]

end

/-- Items that say the same, read from a node and from what it became. -/
inductive Item.Alike (P : Node → Prop) : Item → Item → Prop
  | same (i : Item) : Alike P i i
  | literal {n n' : Node} (node : n.Grafts P n') : Alike P (.literal n) (.literal n')
  | member {n n' : Node} (node : n.Grafts P n') : Alike P (.member n) (.member n')

namespace Node.Grafts

variable {P : Node → Prop} {n n' : Node}

/-! ## Casts and type arguments -/

theorem rel_castType? (h : n.Grafts P n') :
    Option.Rel (Grafts P) n.castType? n'.castType? := by
  unfold castType?
  rw [← h.kind_eq]
  split
  iterate 2
    rename_i hk
    have hparts := namedChildren_congr h (by rw [hk]; rfl)
    simp only [← hparts.length_eq]
    split
    · exact rel_getLast? hparts
    · exact .none
  · rename_i hk
    have htypes := rel_find? (p := (·.kind == .typeArguments)) (q := (·.kind == .typeArguments))
      (namedChildren_congr h (by rw [hk]; rfl)) fun c c' hc => by rw [hc.kind_eq]
    rcases ht : n.namedChildren.find? (·.kind == .typeArguments) with _ | types
    · simp only [ht, eq_none_of_rel htypes ht]
      exact .none
    · obtain ⟨types', ht', htt⟩ := exists_of_rel htypes ht
      have hkind : types.kind = .typeArguments := by simpa using List.find?_some ht
      simp only [ht, ht']
      exact rel_head? (namedChildren_congr htt (by rw [hkind]; rfl))
  · exact .none

theorem rel_genericCast? (h : n.Grafts P n') :
    Option.Rel (fun p p' => p.1.Grafts P p'.1 ∧ p.2.Grafts P p'.2) n.genericCast? n'.genericCast? := by
  have hcast := unbracket_congr h
  unfold genericCast?
  rcases ht : n.unbracket.castType? with _ | type
  · simp only [ht, eq_none_of_rel hcast.rel_castType? ht]
    exact .none
  · obtain ⟨type', ht', htt⟩ := exists_of_rel hcast.rel_castType? ht
    simp only [ht, ht', ← htt.kind_eq]
    split
    · exact .some ⟨hcast, htt⟩
    · exact .none

/-- A part that is found by its role or else by its kind is no list of statements. -/
theorem isStatementList_of_or {r : Role} {k : Kind} {cs : List Node} {p : Node} (hr : r ≠ .none)
    (hb : r ≠ .body) (hk : k.listsStatements = false)
    (hp : (n.child? r).or (cs.find? (·.kind == k)) = some p) : p.isStatementList = false := by
  rcases Option.or_eq_some_iff.1 hp with hp | ⟨-, hp⟩
  · exact isStatementList_of_child? hp hr hb
  · have hkind : p.kind = k := by simpa using List.find?_some hp
    exact isStatementList_eq_false (by rw [hkind, hk])

theorem forall₂_typeArguments (h : n.Grafts P n') (hk : n.kind.listsStatements = false) :
    List.Forall₂ (Grafts P) n.typeArguments n'.typeArguments := by
  have htypes : Option.Rel (Grafts P)
      ((n.child? .typeArguments).or (n.children.find? (·.kind == .typeArguments)))
      ((n'.child? .typeArguments).or (n'.children.find? (·.kind == .typeArguments))) :=
    rel_or (h.child? (by decide)) (rel_find? (h.forall₂_children (isStatementList_eq_false hk))
      fun c c' hc => by rw [hc.kind_eq])
  unfold typeArguments
  rcases ht : (n.child? .typeArguments).or (n.children.find? (·.kind == .typeArguments)) with _ | types
  · simp only [eq_none_of_rel htypes ht]
    exact .nil
  · obtain ⟨types', ht', htt⟩ := exists_of_rel htypes ht
    simp only [ht']
    exact htt.forall₂_namedChildren (isStatementList_of_or (by decide) (by decide) rfl ht)

/-! ## Types -/

theorem forall₂_typeParts (h : n.Grafts P n') :
    List.Forall₂ (Grafts P) n.typeParts n'.typeParts := by
  unfold typeParts
  rw [← h.kind_eq]
  split
  iterate 2
    rename_i hk
    exact forall₂_toList (rel_head? (namedChildren_congr h (by rw [hk]; rfl)))
  iterate 2
    rename_i hk
    exact namedChildren_congr h (by rw [hk]; rfl)
  · rename_i hk
    have harguments := h.forall₂_typeArguments (by rw [hk]; rfl)
    generalize n.typeArguments = ts at harguments
    generalize n'.typeArguments = ts' at harguments
    cases harguments with
    | nil => exact forall₂_toList (h.child? (by decide))
    | cons ht _ => exact .cons ht .nil
  · rename_i hk
    have hclauses : List.Forall₂ (Grafts P) (n.namedChildren.filter (·.kind == .extendsTypeClause))
        (n'.namedChildren.filter (·.kind == .extendsTypeClause)) :=
      List.rel_filter (fun c c' hc => by simp only [hc.kind_eq])
        (namedChildren_congr h (by rw [hk]; rfl))
    refine List.rel_append (forall₂_flatMap hclauses fun c hc c' hcc => ?_)
      (forall₂_toList (h.child? (by decide)))
    have hkind : c.kind = .extendsTypeClause := by simpa using (List.mem_filter.1 hc).2
    exact namedChildren_congr hcc (by rw [hkind]; rfl)
  · exact forall₂_toList (h.child? (by decide))
  · exact .nil

theorem rel_ascription? (h : n.Grafts P n') :
    Option.Rel (Grafts P) n.ascription? n'.ascription? := by
  -- an annotation is a part wherever it stands
  have hfirst : Option.Rel (Grafts P) (n.namedChildren.find? (·.kind == .typeAscription))
      (n'.namedChildren.find? (·.kind == .typeAscription)) := by
    refine h.namedChildren.rel_find? (fun c c' hc => by rw [hc.kind_eq]) fun s hs => ?_
    have hpart := hs.2.1
    simp only [isPart, Bool.or_eq_false_iff] at hpart
    exact hpart.2
  unfold ascription?
  rcases ha : n.child? .type with _ | a
  · simp only [h.child_eq_none ha (by decide)]
    exact hfirst
  · obtain ⟨a', ha', haa⟩ := h.exists_child ha (by decide)
    simp only [ha', ← haa.kind_eq]
    split
    · exact .some haa
    · exact rel_or hfirst (.some haa)

theorem rel_annotatedType? (h : n.Grafts P n') :
    Option.Rel (Grafts P) n.annotatedType? n'.annotatedType? := by
  unfold annotatedType?
  rcases ha : n.ascription? with _ | a
  · simp only [eq_none_of_rel h.rel_ascription? ha]
    exact .none
  · obtain ⟨a', ha', haa⟩ := exists_of_rel h.rel_ascription? ha
    simp only [ha', ← haa.kind_eq]
    split
    · rename_i hk
      exact rel_head? (namedChildren_congr haa (by rw [hk]; rfl))
    · exact .some haa

theorem forall₂_literalTypeItems (h : n.Grafts P n') :
    List.Forall₂ (Item.Alike P) n.literalTypeItems n'.literalTypeItems := by
  induction hn : n.size using Nat.strongRecOn generalizing n n' with
  | ind size ih =>
    rw [literalTypeItems_eq, literalTypeItems_eq n', ← h.kind_eq]
    split
    · rename_i hk
      have hparts := namedChildren_congr h (by rw [hk]; rfl)
      exact List.forall₂_map_left_iff.2 (List.forall₂_map_right_iff.2
        (hparts.imp fun _ _ hc => .literal hc))
    iterate 2
      rename_i hk
      refine forall₂_flatMap (namedChildren_congr h (by rw [hk]; rfl)) fun c hc c' hcc => ?_
      exact ih c.size (hn ▸ size_lt_of_mem_namedChildren hc) hcc rfl
    · exact .nil

theorem forall₂_signatureParameters (h : n.Grafts P n') (hk : n.kind.listsStatements = false) :
    List.Forall₂ (Grafts P) n.signatureParameters n'.signatureParameters := by
  have hparameters : Option.Rel (Grafts P)
      ((n.child? .parameters).or (n.namedChildren.find? (·.kind == .formalParameters)))
      ((n'.child? .parameters).or (n'.namedChildren.find? (·.kind == .formalParameters))) :=
    rel_or (h.child? (by decide)) (rel_find? (h.forall₂_namedChildren (isStatementList_eq_false hk))
      fun c c' hc => by rw [hc.kind_eq])
  unfold signatureParameters
  rcases hp : (n.child? .parameters).or (n.namedChildren.find? (·.kind == .formalParameters)) with _ | ps
  · simp only [eq_none_of_rel hparameters hp]
    exact .nil
  · obtain ⟨ps', hp', hpp⟩ := exists_of_rel hparameters hp
    simp only [hp']
    exact hpp.forall₂_namedChildren (isStatementList_of_or (by decide) (by decide) rfl hp)

theorem forall₂_signatureItems (h : n.Grafts P n') (hk : n.kind.listsStatements = false) :
    List.Forall₂ (Item.Alike P) n.signatureItems n'.signatureItems := by
  have htype := rel_bind (rel_head? (h.forall₂_signatureParameters hk))
    fun c c' hc => hc.rel_annotatedType?
  unfold signatureItems
  rcases ht : n.signatureParameters.head?.bind annotatedType? with _ | type
  · simp only [eq_none_of_rel htype ht]
    exact .nil
  · obtain ⟨type', ht', htt⟩ := exists_of_rel htype ht
    simp only [ht']
    exact htt.forall₂_literalTypeItems

theorem forall₂_typeMemberItems (h : n.Grafts P n') :
    List.Forall₂ (Item.Alike P) n.typeMemberItems n'.typeMemberItems := by
  unfold typeMemberItems
  rw [← h.kind_eq]
  split
  · rename_i hk
    exact h.forall₂_signatureItems (by rw [hk]; rfl)
  iterate 2 exact .cons (.member h) .nil
  · exact .nil

theorem forall₂_typeItems (h : n.Grafts P n') :
    List.Forall₂ (Item.Alike P) n.typeItems n'.typeItems := by
  induction hn : n.size using Nat.strongRecOn generalizing n n' with
  | ind size ih =>
    rw [typeItems_eq, typeItems_eq n', ← h.kind_eq]
    split
    iterate 2
      rename_i hk
      refine forall₂_flatMap (namedChildren_congr h (by rw [hk]; rfl)) fun c _ c' hcc => ?_
      exact hcc.forall₂_typeMemberItems
    · rename_i hk
      rw [h.eq_of_isSolid (by rw [hk]; rfl)]
      exact .cons (.same _) .nil
    · refine forall₂_flatMap h.forall₂_typeParts fun c hc c' hcc => ?_
      exact ih c.size (hn ▸ size_lt_of_mem_typeParts hc) hcc rfl

/-! ## Values -/

theorem spreadItems_eq (h : n.Grafts P n') (hk : n.kind = .spreadElement) :
    n.spreadItems = n'.spreadItems := by
  have htarget := rel_map (rel_head? (namedChildren_congr h (by rw [hk]; rfl)))
    fun c c' hc => unwrap_congr hc
  unfold spreadItems
  rcases ht : n.namedChildren.head?.map unwrap with _ | target
  · rw [eq_none_of_rel htarget ht]
  · obtain ⟨target', ht', htt⟩ := exists_of_rel htarget ht
    simp only [ht', ← htt.kind_eq]
    split
    · rename_i hword
      rw [name_congr htt hword rfl]
    · rfl

theorem forall₂_elementItems (h : n.Grafts P n') :
    List.Forall₂ (Item.Alike P) n.elementItems n'.elementItems := by
  unfold elementItems
  rw [← h.kind_eq]
  split
  iterate 2 exact .cons (.literal h) .nil
  · rename_i hk
    rw [name_congr h hk rfl]
    exact .cons (.same _) .nil
  · rename_i hk
    rw [h.spreadItems_eq hk]
    exact List.forall₂_same.2 fun i _ => .same i
  · exact .nil

theorem forall₂_plainItems (h : n.Grafts P n') :
    List.Forall₂ (Item.Alike P) n.plainItems n'.plainItems := by
  unfold plainItems
  rw [← h.kind_eq]
  split
  · rename_i hk
    exact forall₂_flatMap (namedChildren_congr h (by rw [hk]; rfl))
      fun c _ c' hc => hc.forall₂_elementItems
  · rename_i hk
    refine forall₂_flatMap (MemberLikeness.members h hk) fun m _ m' hm => ?_
    rw [← hm.kind_eq]
    split
    · rename_i hspread
      rw [hm.spreadItems_eq hspread]
      exact List.forall₂_same.2 fun i _ => .same i
    · exact .cons (.member hm) .nil
  · rename_i hk
    rw [name_congr h hk rfl]
    exact .cons (.same _) .nil
  · exact .nil

theorem forall₂_valueItems (h : n.Grafts P n') :
    List.Forall₂ (Item.Alike P) n.valueItems n'.valueItems := by
  have hplain := (unwrap_congr h).forall₂_plainItems
  unfold valueItems
  rcases hg : n.genericCast? with _ | ⟨cast, type⟩
  · simp only [eq_none_of_rel h.rel_genericCast? hg]
    exact hplain
  · obtain ⟨⟨cast', type'⟩, hg', hcast, htype⟩ := exists_of_rel h.rel_genericCast? hg
    simp only [hg', ← (unwrap_congr hcast).kind_eq]
    split
    · exact hplain
    · exact htype.forall₂_typeItems

/-- A declaration contributes what it did before. -/
theorem forall₂_items (h : n.Grafts P n') (meaning : Meaning) :
    List.Forall₂ (Item.Alike P) (n.items meaning) (n'.items meaning) := by
  cases meaning with
  | value => exact h.forall₂_valueItems
  | type => exact h.forall₂_typeItems

end Node.Grafts
end SurfaceCoverage
