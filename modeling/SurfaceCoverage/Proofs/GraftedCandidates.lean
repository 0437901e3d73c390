import SurfaceCoverage.Lookup.Candidates
import SurfaceCoverage.Proofs.GraftedItems
/-!
# Candidates in scripts with statements put in

What a script offers for a word or an export stays as it was if none of the statements that are put
in declares the word, imports it, or offers anything for the export.
-/

namespace SurfaceCoverage

/-- Candidates that come to the same, read from a node and from what it became. -/
inductive Candidate.Alike (P : Node → Prop) : Candidate → Candidate → Prop
  | same (c : Candidate) : Alike P c c
  | here {n n' : Node} (node : n.Grafts P n') : Alike P (.here n) (.here n')

instance {P : Node → Prop} : Std.Refl (Candidate.Alike P) := ⟨.same⟩

/-- What one statement exports under a name. -/
def Scope.exported (meaning : Meaning) (name : Text) (statement : Node) : List Candidate :=
  match Node.stringValue? (statement.child? .source) with
  | .error f => [.fault f]
  | .ok source => statementCandidates meaning name statement source

variable {P : Node → Prop} {n n' : Node}

namespace Node.Grafts

/-! ## Declared values -/

theorem rel_declaredValue? (h : n.Grafts P n') :
    Option.Rel (Grafts P) n.declaredValue? n'.declaredValue? := by
  have hinner := unwrap_congr h
  unfold declaredValue?
  simp only [← hinner.kind_eq]
  split
  · exact .some hinner
  · exact rel_map h.rel_genericCast? fun _ _ hp => hp.1

theorem forall₂_valueCandidates (h : n.Grafts P n') :
    List.Forall₂ (Candidate.Alike P) n.valueCandidates n'.valueCandidates := by
  unfold valueCandidates
  rcases hd : n.declaredValue? with _ | d
  · simp only [eq_none_of_rel h.rel_declaredValue? hd, ← (unwrap_congr h).kind_eq]
    split
    · rename_i hk
      rw [name_congr (unwrap_congr h) hk rfl]
      exact List.forall₂_refl _
    · exact .nil
  · obtain ⟨d', hd', hdd⟩ := exists_of_rel h.rel_declaredValue? hd
    simp only [hd']
    exact .cons (.here hdd) .nil

theorem rel_initialValue? (h : n.Grafts P n') (name : Text) :
    Option.Rel (Grafts P) (n.initialValue? name) (n'.initialValue? name) := by
  unfold initialValue?
  rcases ht : n.child? .name with _ | target
  · simp only [h.child_eq_none ht (by decide)]
    exact .none
  · obtain ⟨target', ht', htt⟩ := h.exists_child ht (by decide)
    simp only [ht', ← htt.kind_eq]
    by_cases hk : target.kind = .identifier
    · rw [name_congr htt hk rfl]
      split
      · exact h.child? (by decide)
      · exact .none
    · simp only [hk, false_and, if_false]
      exact .none

theorem declaresType_eq (h : n.Grafts P n') (name : Text) :
    n.declaresType name = n'.declaresType name := by
  unfold declaresType
  have hkind : n.isTypeDeclaration = n'.isTypeDeclaration := by
    unfold isTypeDeclaration
    rw [h.kind_eq]
  rw [← hkind]
  by_cases hn : n.isTypeDeclaration = true
  · rw [h.typeName_eq hn]
  · rw [Bool.not_eq_true] at hn
    rw [hn, Bool.false_and, Bool.false_and]

/-- A word keeps its first initial value if no statement that is put in has one for it. -/
theorem rel_localInitializer? (h : n.Grafts P n') {word : Text}
    (hP : ∀ s, P s → ∀ d ∈ s.findAll .variableDeclarator, d.initialValue? word = none) :
    Option.Rel (Grafts P) (n.localInitializer? word) (n'.localInitializer? word) := by
  have hdeclarators := h.descendants.filter (p := (·.kind == .variableDeclarator))
    fun d d' hd => by rw [hd.kind_eq]
  refine hdeclarators.rel_findSome? (fun d d' hd => hd.1.rel_initialValue? word) ?_
  rintro d ⟨⟨s, hs, hd⟩, hk⟩
  exact hP s hs d (List.mem_filter.2 ⟨hd, hk⟩)

theorem rel_localType? (h : n.Grafts P n') {word : Text}
    (hP : ∀ s, P s → ∀ d ∈ s.descendants, d.declaresType word = false) :
    Option.Rel (Grafts P) (n.localType? word) (n'.localType? word) := by
  refine h.descendants.rel_find? (fun d d' hd => hd.declaresType_eq word) ?_
  rintro d ⟨s, hs, hd⟩
  exact hP s hs d hd

/-! ## Exports -/

theorem hasToken_eq (h : n.Grafts P n') (hk : n.kind.listsStatements = false) (t : String) :
    n.hasToken t = n'.hasToken t := by
  refine any_eq_of_forall₂ (h.forall₂_children (isStatementList_eq_false hk)) fun c c' hc => ?_
  rw [← hc.kind_eq]
  by_cases hw : c.kind = .token
  · rw [Likeness.text_eq hc (by rw [hw]; rfl)]
  · rw [beq_eq_false_iff_ne.2 hw, Bool.false_and, Bool.false_and]

theorem isStarExport_eq (h : n.Grafts P n') (hk : n.kind.listsStatements = false) :
    n.isStarExport = n'.isStarExport := by
  have hall : n.namedChildren.any (·.kind == .namespaceExport) =
      n'.namedChildren.any (·.kind == .namespaceExport) :=
    any_eq_of_forall₂ (h.forall₂_namedChildren (isStatementList_eq_false hk))
      fun c c' hc => by rw [hc.kind_eq]
  unfold isStarExport
  rw [h.hasToken_eq hk, hall]

theorem exportedPair?_eq (h : n.Grafts P n') : n.exportedPair? = n'.exportedPair? := by
  by_cases hk : n.kind = .exportSpecifier
  · rw [h.eq_of_isSolid (by rw [hk]; rfl)]
  · unfold exportedPair?
    rw [if_pos hk, if_pos (h.kind_eq ▸ hk)]

theorem forall₂_exportSpecifiers (h : n.Grafts P n') (hk : n.kind.listsStatements = false) :
    List.Forall₂ (Grafts P) n.exportSpecifiers n'.exportSpecifiers := by
  have hclauses : Option.Rel (Grafts P) (n.namedChildren.find? (·.kind == .exportClause))
      (n'.namedChildren.find? (·.kind == .exportClause)) :=
    rel_find? (h.forall₂_namedChildren (isStatementList_eq_false hk))
      fun c c' hc => by rw [hc.kind_eq]
  unfold exportSpecifiers
  rcases hc : n.namedChildren.find? (·.kind == .exportClause) with _ | clause
  · simp only [hc, eq_none_of_rel hclauses hc]
    exact .nil
  · obtain ⟨clause', hc', hcc⟩ := exists_of_rel hclauses hc
    have hkind : clause.kind = .exportClause := by simpa using List.find?_some hc
    simp only [hc, hc']
    exact namedChildren_congr hcc (by rw [hkind]; rfl)

end Node.Grafts

namespace Scope

theorem specifierCandidates_eq {ns ns' : List Node} (h : List.Forall₂ (Node.Grafts P) ns ns')
    (name : Text) : specifierCandidates name ns = specifierCandidates name ns' := by
  induction h with
  | nil => rfl
  | cons hn _ ih => rw [specifierCandidates, specifierCandidates, hn.exportedPair?_eq, ih]

theorem passedOn_eq {ns ns' : List Node} (h : List.Forall₂ (Node.Grafts P) ns ns')
    (name source : Text) : passedOn name source ns = passedOn name source ns' := by
  induction h with
  | nil => rfl
  | cons hn _ ih => rw [passedOn, passedOn, hn.exportedPair?_eq, ih]

theorem forall₂_declarationCandidates (h : n.Grafts P n') (meaning : Meaning) (name : Text) :
    List.Forall₂ (Candidate.Alike P) (declarationCandidates meaning name n)
      (declarationCandidates meaning name n') := by
  unfold declarationCandidates
  cases meaning with
  | type =>
    simp only [h.declaresType_eq name]
    split
    · exact .cons (.here h) .nil
    · exact .nil
  | value =>
    simp only [← h.kind_eq]
    split
    · rename_i hk
      have hdeclarators : List.Forall₂ (Node.Grafts P)
          (n.namedChildren.filter (·.kind == .variableDeclarator))
          (n'.namedChildren.filter (·.kind == .variableDeclarator)) :=
        List.rel_filter (fun c c' hc => by simp only [hc.kind_eq])
          (Node.namedChildren_congr h (by rcases hk with hk | hk <;> rw [hk] <;> rfl))
      have hvalue := (Sprinkled.of_forall₂ (Q := fun _ => False) hdeclarators).rel_findSome?
        (fun d d' hd => hd.rel_initialValue? name) fun _ hf => hf.elim
      rcases hv : (n.namedChildren.filter (·.kind == .variableDeclarator)).findSome?
          (Node.initialValue? name) with _ | value
      · simp only [hv, eq_none_of_rel hvalue hv]
        exact .nil
      · obtain ⟨value', hv', hvv⟩ := exists_of_rel hvalue hv
        simp only [hv, hv']
        exact hvv.forall₂_valueCandidates
    · exact .nil

theorem forall₂_statementCandidates (h : n.Grafts P n') (hk : n.kind.listsStatements = false)
    (meaning : Meaning) (name : Text) (source : Option Text) :
    List.Forall₂ (Candidate.Alike P) (statementCandidates meaning name n source)
      (statementCandidates meaning name n' source) := by
  have hspecifiers := h.forall₂_exportSpecifiers hk
  unfold statementCandidates
  rcases hd : n.child? .declaration with _ | d
  · simp only [h.child_eq_none hd (by decide), Node.isDefaultExport, ← h.hasToken_eq hk,
      ← h.isStarExport_eq hk, ← specifierCandidates_eq hspecifiers, ← passedOn_eq hspecifiers]
    by_cases hdefault : n.hasToken "default" = true
    · simp only [hdefault, if_true]
      split
      · rcases hv : n.child? .value with _ | value
        · simp only [h.child_eq_none hv (by decide)]
          exact .nil
        · obtain ⟨value', hv', hvv⟩ := h.exists_child hv (by decide)
          simp only [hv']
          exact hvv.forall₂_valueCandidates
      · exact .nil
    · simp only [hdefault]
      exact List.forall₂_refl _
  · obtain ⟨d', hd', hdd⟩ := h.exists_child hd (by decide)
    simp only [hd']
    exact forall₂_declarationCandidates hdd meaning name

theorem forall₂_exported (h : n.Grafts P n') (hk : n.kind.listsStatements = false)
    (meaning : Meaning) (name : Text) :
    List.Forall₂ (Candidate.Alike P) (exported meaning name n) (exported meaning name n') := by
  have hsource : Node.stringValue? (n.child? .source) = Node.stringValue? (n'.child? .source) := by
    rcases hs : n.child? .source with _ | s
    · rw [h.child_eq_none hs (by decide)]
    · obtain ⟨s', hs', hss⟩ := h.exists_child hs (by decide)
      rw [hs']
      exact Node.stringValue_congr hss
  unfold exported
  rw [← hsource]
  cases Node.stringValue? (n.child? .source) with
  | error f => exact List.forall₂_refl _
  | ok source => exact forall₂_statementCandidates h hk meaning name source

theorem exportCandidates_eq (root : Node) (meaning : Meaning) (name : Text) :
    exportCandidates root meaning name =
      (root.namedChildren.filter (·.kind == .exportStatement)).flatMap (exported meaning name) := rfl

/-- A script offers the same for an export if no statement that is put in offers anything. -/
theorem forall₂_exportCandidates (h : n.Grafts P n') {meaning : Meaning} {name : Text}
    (hP : ∀ s, P s → s.kind = .exportStatement → exported meaning name s = []) :
    List.Forall₂ (Candidate.Alike P) (exportCandidates n meaning name)
      (exportCandidates n' meaning name) := by
  have hstatements := h.namedChildren.filter (p := (·.kind == .exportStatement))
    fun c c' hc => by rw [hc.kind_eq]
  rw [exportCandidates_eq, exportCandidates_eq]
  refine hstatements.forall₂_flatMap ?_ ?_
  · rintro c c' ⟨hc, hk⟩
    exact forall₂_exported hc (by rw [eq_of_beq hk]; rfl) meaning name
  · rintro s ⟨⟨-, -, hs⟩, hk⟩
    exact hP s hs (eq_of_beq hk)

end Scope

/-! ## Imports -/

namespace Imports

theorem get?_eq (imports : Imports) (word : Text) :
    imports.get? word = (imports.filter (·.localName = word)).getLast? := by
  unfold get?
  rw [← List.head?_filter, List.filter_reverse, List.head?_reverse]

theorem ofStatement_eq (h : n.Grafts P n') : ofStatement n = ofStatement n' := by
  by_cases hk : n.kind = .importStatement
  · rw [h.eq_of_isSolid (by rw [hk]; rfl)]
  · unfold ofStatement
    rw [if_pos hk, if_pos (h.kind_eq ▸ hk)]

/-- What statements bind, in turn. -/
theorem mapM_ofStatement_cons {s : Node} {ss : List Node} {bs : List Imports}
    (h : (s :: ss).mapM ofStatement = .ok bs) :
    ∃ b rest, ofStatement s = .ok b ∧ ss.mapM ofStatement = .ok rest ∧ bs = b :: rest := by
  rw [List.mapM_cons] at h
  rcases hs : ofStatement s with f | b <;> rw [hs] at h
  · cases h
  · rcases hss : ss.mapM ofStatement with f | rest <;> rw [hss] at h
    · cases h
    · cases h
      exact ⟨b, rest, rfl, rfl, rfl⟩

theorem filter_flatten_eq {Q : Node → Prop} {word : Text} {ns ns' : List Node}
    {bs bs' : List Imports} (h : Sprinkled (Node.Grafts P) Q ns ns')
    (hi : ns.mapM ofStatement = .ok bs) (hi' : ns'.mapM ofStatement = .ok bs')
    (hQ : ∀ s, Q s → ∀ bound, ofStatement s = .ok bound → ∀ i ∈ bound, i.localName ≠ word) :
    bs.flatten.filter (·.localName = word) = bs'.flatten.filter (·.localName = word) := by
  induction h generalizing bs bs' with
  | nil => rw [Except.ok.inj (hi.symm.trans hi')]
  | kept part _ ih =>
    obtain ⟨b, rest, hb, hrest, rfl⟩ := mapM_ofStatement_cons hi
    obtain ⟨b', rest', hb', hrest', rfl⟩ := mapM_ofStatement_cons hi'
    cases hb.symm.trans ((ofStatement_eq part).trans hb')
    rw [List.flatten_cons, List.flatten_cons, List.filter_append, List.filter_append,
      ih hrest hrest']
  | added extra _ ih =>
    obtain ⟨b', rest', hb', hrest', rfl⟩ := mapM_ofStatement_cons hi'
    have hnone : b'.filter (·.localName = word) = [] :=
      List.filter_eq_nil_iff.2 fun i hi => by simpa using hQ _ extra _ hb' i hi
    rw [List.flatten_cons, List.filter_append, hnone, List.nil_append, ih hi hrest']

/-- A word keeps its binding if no statement that is put in binds it. -/
theorem get?_eq_of_grafts {word : Text} {imports imports' : Imports} (h : n.Grafts P n')
    (hi : ofRoot n = .ok imports) (hi' : ofRoot n' = .ok imports')
    (hP : ∀ s, P s → ∀ bound, ofStatement s = .ok bound → ∀ i ∈ bound, i.localName ≠ word) :
    imports.get? word = imports'.get? word := by
  have hparts {root : Node} {imports : Imports} (h : ofRoot root = .ok imports) :
      ∃ bs, root.namedChildren.mapM ofStatement = .ok bs ∧ imports = bs.flatten := by
    unfold ofRoot at h
    rcases hbs : root.namedChildren.mapM ofStatement with f | bs <;> rw [hbs] at h
    · cases h
    · cases h
      exact ⟨bs, rfl, rfl⟩
  obtain ⟨bs, hbs, rfl⟩ := hparts hi
  obtain ⟨bs', hbs', rfl⟩ := hparts hi'
  rw [get?_eq, get?_eq, filter_flatten_eq h.namedChildren hbs hbs' fun s hs => hP s hs.2.2]

end Imports
end SurfaceCoverage
