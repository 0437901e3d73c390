import SurfaceCoverage.Proofs.Absence
import SurfaceCoverage.Proofs.Region
/-!
# Keys tell lookups apart

The trail knows a lookup by the path of its module and by a key, a name behind words for the kind of
lookup. Names without blanks cannot be mistaken for such a key. In a region whose names have none,
lookups are told apart by their visits (`domain_inside`).
-/

namespace SurfaceCoverage

/-! ## Names -/

/-- A name without blanks, as every identifier is. -/
def Text.Unspaced (t : Text) : Prop := CodePoint.scalar ' ' ∉ t

instance (t : Text) : Decidable t.Unspaced := inferInstanceAs (Decidable (_ ∉ _))

theorem Text.Unspaced.not_prefix {t : Text} (h : t.Unspaced) {p : String}
    (hp : CodePoint.scalar ' ' ∈ Text.ofString p) : ¬ Text.ofString p <+: t :=
  fun hpt => h (hpt.subset hp)

/-- The names by which a module refers to others or is referred to have no blanks: its identifiers,
the names in its export clauses and the exports that it imports. -/
structure Scope.Unspaced (s : Scope) : Prop where
  identifiers : ∀ n ∈ s.root.descendants,
    n.kind = .identifier ∨ n.kind = .shorthandPropertyIdentifier → n.name.Unspaced
  exports : ∀ statement ∈ s.root.exports, ∀ n ∈ statement.exportSpecifiers, ∀ word name,
    n.exportedPair? = .ok (some (word, name)) → word.Unspaced ∧ name.Unspaced
  imports : ∀ i ∈ s.imports, i.exported.Unspaced

/-- The key of a query is no key of another kind of lookup. Types are always clear: the words before
their names tell them apart. -/
def Query.Clear : Query → Prop
  | .exported _ .value name => ¬ Text.ofString "type " <+: name ∧ ¬ Text.ofString "local " <+: name
  | .word _ .value name => ¬ Text.ofString "type " <+: name
  | .exported _ .type _ | .word _ .type _ => True

theorem Query.clear_exported {name : Text} (h : name.Unspaced) (path : String) (meaning : Meaning) :
    (Query.exported path meaning name).Clear := by
  cases meaning with
  | value => exact ⟨h.not_prefix (by decide), h.not_prefix (by decide)⟩
  | type => trivial

theorem Query.clear_word {name : Text} (h : name.Unspaced) (s : Scope) (meaning : Meaning) :
    (Query.word s meaning name).Clear := by
  cases meaning with
  | value => exact h.not_prefix (by decide)
  | type => trivial

/-! ## Queries -/

namespace Query

theorem local_type_eq : Text.ofString "local type " = Text.ofString "local " ++ Text.ofString "type " := by
  decide

theorem type_ne_local (a b : Text) : Text.ofString "type " ++ a ≠ Text.ofString "local " ++ b := by
  simp [Text.ofString, Text.ofChars]

/-- Clear queries with one visit are of one kind and about one name. -/
theorem same_of_visit {q p : Query} (hq : q.Clear) (hp : p.Clear) (h : q.visit = p.visit) :
    q = p ∨ ∃ s s' meaning name, q = .word s meaning name ∧ p = .word s' meaning name ∧
      Module.shownPath s.path = Module.shownPath s'.path := by
  rcases q with ⟨path, _ | _, n⟩ | ⟨s, _ | _, n⟩ <;> rcases p with ⟨path', _ | _, n'⟩ | ⟨s', _ | _, n'⟩ <;>
    simp only [visit, Visit.mk.injEq, List.append_cancel_left_eq, local_type_eq, List.append_assoc] at h <;>
    obtain ⟨hpath, hkey⟩ := h
  · exact .inl (by rw [hpath, hkey])
  · exact absurd ⟨n', hkey.symm⟩ hq.1
  · exact absurd ⟨n', hkey.symm⟩ hq.2
  · exact absurd ⟨_, hkey.symm⟩ hq.2
  · exact absurd ⟨n, hkey⟩ hp.1
  · exact .inl (by rw [hpath, hkey])
  · exact absurd hkey (type_ne_local _ _)
  · exact absurd hkey (type_ne_local _ _)
  · exact absurd ⟨n, hkey⟩ hp.2
  · exact absurd hkey.symm (type_ne_local _ _)
  · exact .inr ⟨s, s', .value, n, rfl, by rw [hkey], hpath⟩
  · exact absurd ⟨n', hkey.symm⟩ hq
  · exact absurd ⟨_, hkey⟩ hp.2
  · exact absurd hkey.symm (type_ne_local _ _)
  · exact absurd ⟨n, hkey⟩ hp
  · exact .inr ⟨s, s', .type, n, rfl, by rw [hkey], hpath⟩

theorem visit_inj {w : Workspace} {R : Region w} (hR : R.Distinct) {q p : Query} (hq : q.Clear)
    (hp : p.Clear) (hiq : R.Inside q) (hip : R.Inside p) (h : q.visit = p.visit) : q = p := by
  rcases same_of_visit hq hp h with rfl | ⟨s, s', meaning, name, rfl, rfl, he⟩
  · rfl
  · rw [hR s s' hiq hip he]

/-! ### What queries lead to -/

theorem unspaced_of_repeats {s : Scope} (hs : s.Unspaced) {value : Node} {y : Text}
    (hv : value ∈ s.root.descendants) (h : value.Repeats y) : y.Unspaced := by
  obtain ⟨-, hk, rfl⟩ := h
  exact hs.identifiers _ (Node.mem_descendants_trans (Node.unwrap_mem_descendants value) hv) (.inl hk)

end Query

theorem Node.ExportsValue.mem_descendants {root value : Node} {name : Text}
    (h : root.ExportsValue name value) : value ∈ root.descendants := by
  cases h with
  | declared hs hd _ hv =>
    obtain ⟨d, hm, hv⟩ := List.exists_of_findSome?_eq_some hv
    have hd := Node.mem_descendants_trans
      (Node.mem_descendants_of_mem_namedChildren (List.mem_filter.1 hm).1)
      (Node.mem_descendants_of_child? hd)
    exact Node.mem_descendants_trans (Node.initialValue?_mem_descendants hv)
      (Node.mem_descendants_trans hd
        (Node.mem_descendants_of_mem_namedChildren (List.mem_filter.1 hs).1))
  | default hs _ _ _ hv =>
    exact Node.mem_descendants_trans (Node.mem_descendants_of_child? hv)
      (Node.mem_descendants_of_mem_namedChildren (List.mem_filter.1 hs).1)

/-- A declaration stands in the script of its scope. -/
theorem Holds.mem_descendants {w : Workspace} {q : Query} {d : Declaration} (h : Holds w q d) :
    d.node ∈ d.scope.root.descendants := by
  cases h with
  | localValue hv hd =>
    exact Node.mem_descendants_trans (Node.declaredValue?_declares hd).1
      (Node.localInitializer?_mem_descendants hv)
  | localType hn => exact (Node.localType?_spec hn).1
  | exportedValue _ hv hd =>
    exact Node.mem_descendants_trans (Node.declaredValue?_declares hd).1 hv.mem_descendants
  | exportedType _ hn =>
    obtain ⟨statement, hs, hd, -⟩ := hn
    exact Node.mem_descendants_trans (Node.mem_descendants_of_child? hd)
      (Node.mem_descendants_of_mem_namedChildren (List.mem_filter.1 hs).1)

/-- A name that a value is declared under is an identifier. -/
theorem Scope.Unspaced.declared {s : Scope} (hs : s.Unspaced) {d value : Node} {name : Text}
    (hd : d ∈ s.root.descendants) (h : Node.initialValue? name d = some value) : name.Unspaced := by
  obtain ⟨target, ht, hk, rfl, -⟩ := Node.initialValue?_eq_some.1 h
  exact hs.identifiers target (Node.mem_descendants_trans (Node.mem_descendants_of_child? ht) hd)
    (.inl hk)

theorem Scope.Unspaced.initialized {s : Scope} (hs : s.Unspaced) {value : Node} {name : Text}
    (h : s.root.localInitializer? name = some value) : name.Unspaced := by
  obtain ⟨d, hd, hv⟩ := List.exists_of_findSome?_eq_some h
  exact hs.declared (Node.mem_descendants_of_findAll hd).1 hv

theorem Scope.Unspaced.exported {s : Scope} (hs : s.Unspaced) {value : Node} {name : Text}
    (h : s.root.ExportsValue name value) : name.Unspaced := by
  cases h with
  | declared hst hd _ hv =>
    obtain ⟨d, hm, hv⟩ := List.exists_of_findSome?_eq_some hv
    have hroot := Node.mem_descendants_trans (Node.mem_descendants_of_child? hd)
      (Node.mem_descendants_of_mem_namedChildren (List.mem_filter.1 hst).1)
    exact hs.declared (Node.mem_descendants_trans
      (Node.mem_descendants_of_mem_namedChildren (List.mem_filter.1 hm).1) hroot) hv
  | default _ _ _ hn _ =>
    rw [hn]
    decide

theorem Node.PassesOn.unspaced {s : Scope} (hs : s.Unspaced) {name specifier word : Text}
    (h : s.root.PassesOn name specifier word) : word = name ∨ word.Unspaced := by
  cases h with
  | star => exact .inl rfl
  | named hst _ _ _ hl hp =>
    exact .inr (hs.exports _ hst _ (by rw [hl]; simp) _ _ hp).1

namespace Query

/-- A clear query in a region leads to clear queries. -/
theorem clear_of_leads {w : Workspace} {R : Region w} (hn : ∀ s, R.scopes s → s.Unspaced)
    {q p : Query} (hi : R.Inside q) (hq : q.Clear) (h : Leads w q p) : p.Clear := by
  cases h with
  | @aliased s x y value hv hr =>
    have hy := unspaced_of_repeats (hn s hi) (Node.localInitializer?_mem_descendants hv) hr
    exact clear_word hy s _
  | @imported s meaning x i path hl hg ha hp =>
    have hy := (hn s hi).imports i (Scope.mem_imports_of_get? hg)
    exact clear_exported hy path _
  | @exportedAlias path s name y value hs hv hr =>
    have hy := unspaced_of_repeats (hn s (R.loaded hi hs)) hv.mem_descendants hr
    exact clear_word hy s _
  | @clause path s meaning name y hs hw =>
    obtain ⟨statement, hst, -, -, n, hsp, hp⟩ := hw
    have hy := ((hn s (R.loaded hi hs)).exports statement hst n hsp y name hp).1
    exact clear_word hy s _
  | @passedOn path path' s meaning name specifier y hs ho ha hp =>
    rcases ho.unspaced (hn s (R.loaded hi hs)) with rfl | hy
    · cases meaning <;> exact hq
    · exact clear_exported hy path' _

/-- The clear queries of a region whose names have no blanks are told apart by their visits. -/
theorem domain_inside {w : Workspace} {R : Region w} (hR : R.Distinct)
    (hn : ∀ s, R.scopes s → s.Unspaced) : Domain w fun q => R.Inside q ∧ q.Clear where
  onward hq h :=
    ⟨Region.inside_of_leads hq.1 (leads_of_onward h), clear_of_leads hn hq.1 hq.2 (leads_of_onward h)⟩
  visit_inj hq hp := visit_inj hR hq.2 hp.2 hq.1 hp.1

/-! ### Names with blanks lead nowhere else -/

variable {w : Workspace} {R : Region w}

/-- A name with a blank is passed on by star exports alone. -/
theorem same_name_of_leads {path : String} {name : Text} {p : Query} (hn : ∀ s, R.scopes s → s.Unspaced)
    (hi : R.paths path) (hs : ¬ name.Unspaced) (h : Leads w (.exported path .value name) p) :
    ∃ path', p = .exported path' .value name := by
  cases h with
  | exportedAlias hl hv _ => exact absurd ((hn _ (R.loaded hi hl)).exported hv) hs
  | clause hl hw =>
    obtain ⟨statement, hst, -, -, n, hsp, hp⟩ := hw
    exact absurd ((hn _ (R.loaded hi hl)).exports statement hst n hsp _ _ hp).2 hs
  | @passedOn _ path' _ _ _ _ _ hl ho _ hr =>
    cases ho with
    | star => exact ⟨path', rfl⟩
    | named hst _ _ _ hls hp =>
      exact absurd ((hn _ (R.loaded hi hl)).exports _ hst _ (by rw [hls]; simp) _ _ hp).2 hs

/-- A word with a blank leads to an export at most. -/
theorem clear_of_leads_word {s : Scope} {name : Text} {p : Query} (hn : ∀ s, R.scopes s → s.Unspaced)
    (hi : R.scopes s) (hs : ¬ name.Unspaced) (h : Leads w (.word s .value name) p) : p.Clear := by
  cases h with
  | aliased hv _ => exact absurd ((hn s hi).initialized hv) hs
  | @imported _ _ _ i path hl hg ha hp =>
    exact clear_exported ((hn s hi).imports i (Scope.mem_imports_of_get? hg)) path _

/-- Whatever a query in a region leads to is told apart by visits. -/
theorem exists_domain (hR : R.Distinct) (hn : ∀ s, R.scopes s → s.Unspaced) {q : Query}
    (hq : R.Inside q) : ∃ U : Query → Prop, Domain w U ∧ U q ∧ ∀ p, U p → R.Inside p := by
  by_cases hc : q.Clear
  · exact ⟨_, domain_inside hR hn, ⟨hq, hc⟩, fun _ h => h.1⟩
  · rcases q with ⟨path, _ | _, name⟩ | ⟨s, _ | _, name⟩
    · have hs : ¬ name.Unspaced := fun h => hc (clear_exported h path .value)
      refine ⟨fun p => R.Inside p ∧ ∃ path, p = .exported path .value name, ⟨?_, ?_⟩, ⟨hq, path, rfl⟩,
        fun _ h => h.1⟩
      · rintro _ p ⟨hi, path, rfl⟩ h
        exact ⟨Region.inside_of_leads hi (leads_of_onward h),
          same_name_of_leads hn hi hs (leads_of_onward h)⟩
      · rintro _ _ ⟨-, path, rfl⟩ ⟨-, path', rfl⟩ h
        simp only [visit, Visit.mk.injEq] at h
        rw [h.1]
    · exact absurd trivial hc
    · have hs : ¬ name.Unspaced := fun h => hc (clear_word h s .value)
      -- no clear lookup of a value has the key of this one
      have apart : ∀ p : Query, p.Clear → Search.meaningOf p = .value →
          (Query.word s .value name).visit ≠ p.visit := by
        rintro (⟨path, _ | _, n⟩ | ⟨s', _ | _, n⟩) hp hm h
        · simp only [visit, Visit.mk.injEq] at h
          exact hp.2 ⟨name, h.2⟩
        · cases hm
        · simp only [visit, Visit.mk.injEq, List.append_cancel_left_eq] at h
          rw [← h.2] at hp
          exact hc hp
        · cases hm
      refine ⟨fun p => R.Inside p ∧
        (p = .word s .value name ∨ p.Clear ∧ Search.meaningOf p = .value), ⟨?_, ?_⟩,
        ⟨hq, .inl rfl⟩, fun _ h => h.1⟩
      · rintro q p ⟨hi, hk⟩ h
        have hl := leads_of_onward h
        refine ⟨Region.inside_of_leads hi hl, .inr ?_⟩
        rcases hk with rfl | ⟨hk, hm⟩
        · exact ⟨clear_of_leads_word hn hi hs hl, hl.meaningOf_eq⟩
        · exact ⟨clear_of_leads hn hi hk hl, hl.meaningOf_eq.trans hm⟩
      · rintro q p ⟨hiq, rfl | ⟨hq, hmq⟩⟩ ⟨hip, rfl | ⟨hp, hmp⟩⟩ h
        · rfl
        · exact absurd h (apart p hp hmp)
        · exact absurd h.symm (apart q hq hmq)
        · exact visit_inj hR hq hp hiq hip h
    · exact absurd trivial hc

end Query
end SurfaceCoverage
