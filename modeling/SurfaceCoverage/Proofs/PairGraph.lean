import SurfaceCoverage.Proofs.Offers
import SurfaceCoverage.Proofs.Walk
/-!
# The graph of references

The nodes are queries: an exported value or type of a module, or a word of a module as a value or a
type. The edges are the references between them: initial values that repeat a word, imports, export
clauses, and exports that are passed on by name or all together. Some nodes hold a declaration.

The graph is described by the statements of modules alone. `leads_of_onward` and `holds_of_found`
say that a walk moves along it; `onward_of_leads` and `found_of_holds` that it can take every edge
of a module that can be read. `stops_of_error` says what else stops a walk.
-/

namespace SurfaceCoverage

namespace Node

/-- The export statements of a script. -/
def exports (root : Node) : List Node := root.namedChildren.filter (·.kind == .exportStatement)

/-- A value is a word under casts, and no declaration itself. -/
def Repeats (value : Node) (word : Text) : Prop :=
  value.declaredValue? = none ∧ value.unwrap.kind = .identifier ∧ value.unwrap.name = word

/-- An export without a declaration and without the keyword `default`. -/
def IsClause (statement : Node) : Prop :=
  statement.child? .declaration = none ∧ statement.isDefaultExport = false

/-- The initial values that a script exports under a name: that of the first declarator of the name
in an exported declaration, and a default export's. -/
inductive ExportsValue (root : Node) (name : Text) : Node → Prop
  | declared {statement d value : Node} (hs : statement ∈ root.exports)
      (hd : statement.child? .declaration = some d)
      (hk : d.kind = .lexicalDeclaration ∨ d.kind = .variableDeclaration)
      (hv : (d.namedChildren.filter (·.kind == .variableDeclarator)).findSome? (initialValue? name) =
        some value) : ExportsValue root name value
  | default {statement value : Node} (hs : statement ∈ root.exports)
      (hd : statement.child? .declaration = none) (hk : statement.isDefaultExport = true)
      (hn : name = defaultExport) (hv : statement.child? .value = some value) :
      ExportsValue root name value

/-- A script exports the declaration of a type. -/
def ExportsType (root : Node) (name : Text) (d : Node) : Prop :=
  ∃ statement ∈ root.exports, statement.child? .declaration = some d ∧ d.declaresType name = true

/-- A script exports a word of its own under a name. -/
def ExportsWord (root : Node) (name word : Text) : Prop :=
  ∃ statement ∈ root.exports, statement.IsClause ∧
    stringValue? (statement.child? .source) = .ok none ∧
    ∃ n ∈ statement.exportSpecifiers, n.exportedPair? = .ok (some (word, name))

/-- A script passes on another module's export under a name: every name but the default one of a
star export, and the first specifier of the name in braces. -/
inductive PassesOn (root : Node) (name specifier : Text) : Text → Prop
  | star {statement : Node} (hs : statement ∈ root.exports) (hc : statement.IsClause)
      (hf : stringValue? (statement.child? .source) = .ok (some specifier))
      (ha : statement.isStarExport = true) (hn : name ≠ defaultExport) :
      PassesOn root name specifier name
  | named {statement n : Node} {before after : List Node} {word : Text}
      (hs : statement ∈ root.exports) (hc : statement.IsClause)
      (hf : stringValue? (statement.child? .source) = .ok (some specifier))
      (ha : statement.isStarExport = false) (hl : statement.exportSpecifiers = before ++ n :: after)
      (hp : n.exportedPair? = .ok (some (word, name)))
      (hb : ∀ m ∈ before, ∀ other, m.exportedPair? ≠ .ok (some (other, name))) :
      PassesOn root name specifier word

end Node

/-! ## The graph -/

/-- A module declares a word as a value or a type. -/
def Scope.declares (s : Scope) : Meaning → Text → Bool
  | .value, word => (s.root.localInitializer? word).isSome
  | .type, word => (s.root.localType? word).isSome

/-- The edges: the references that lead from one query to another. -/
inductive Leads (w : Workspace) : Query → Query → Prop
  | aliased {s : Scope} {x y : Text} {value : Node} (hv : s.root.localInitializer? x = some value)
      (hr : value.Repeats y) : Leads w (.word s .value x) (.word s .value y)
  | imported {s : Scope} {meaning : Meaning} {x : Text} {i : Import} {path : String}
      (hl : s.declares meaning x = false) (hi : s.imports.get? x = some i)
      (ha : i.exported ≠ allExports) (hp : w.resolve s i.specifier = .ok (some path)) :
      Leads w (.word s meaning x) (.exported path meaning i.exported)
  | exportedAlias {path : String} {s : Scope} {name y : Text} {value : Node}
      (hs : w.load path = .ok (some s)) (hv : s.root.ExportsValue name value)
      (hr : value.Repeats y) : Leads w (.exported path .value name) (.word s .value y)
  | clause {path : String} {s : Scope} {meaning : Meaning} {name y : Text}
      (hs : w.load path = .ok (some s)) (hw : s.root.ExportsWord name y) :
      Leads w (.exported path meaning name) (.word s meaning y)
  | passedOn {path path' : String} {s : Scope} {meaning : Meaning} {name specifier y : Text}
      (hs : w.load path = .ok (some s)) (ho : s.root.PassesOn name specifier y)
      (ha : y ≠ allExports) (hp : w.resolve s specifier = .ok (some path')) :
      Leads w (.exported path meaning name) (.exported path' meaning y)

/-- The declarations that queries hold directly. -/
inductive Holds (w : Workspace) : Query → Declaration → Prop
  | localValue {s : Scope} {x : Text} {value n : Node}
      (hv : s.root.localInitializer? x = some value) (hd : value.declaredValue? = some n) :
      Holds w (.word s .value x) ⟨n, s⟩
  | localType {s : Scope} {x : Text} {n : Node} (hn : s.root.localType? x = some n) :
      Holds w (.word s .type x) ⟨n, s⟩
  | exportedValue {path : String} {s : Scope} {name : Text} {value n : Node}
      (hs : w.load path = .ok (some s)) (hv : s.root.ExportsValue name value)
      (hd : value.declaredValue? = some n) : Holds w (.exported path .value name) ⟨n, s⟩
  | exportedType {path : String} {s : Scope} {name : Text} {n : Node}
      (hs : w.load path = .ok (some s)) (hn : s.root.ExportsType name n) :
      Holds w (.exported path .type name) ⟨n, s⟩

theorem Leads.meaningOf_eq {w : Workspace} {q p : Query} (h : Leads w q p) :
    Search.meaningOf p = Search.meaningOf q := by
  cases h <;> rfl

theorem Holds.declares {w : Workspace} {q : Query} {d : Declaration} (h : Holds w q d) :
    d.node.Declares (Search.meaningOf q) := by
  cases h with
  | localValue _ hd => exact (Node.declaredValue?_declares hd).2
  | localType hn => exact (Node.localType?_spec hn).2
  | exportedValue _ _ hd => exact (Node.declaredValue?_declares hd).2
  | exportedType _ hn =>
    obtain ⟨_, _, _, ht⟩ := hn
    simp only [Node.declaresType, Bool.and_eq_true] at ht
    exact ht.1

/-! ## The candidates of a module -/

namespace Scope

variable {root : Node} {name : Text} {c : Candidate}

theorem mem_specifierCandidates {ns : List Node} (h : c ∈ specifierCandidates name ns) :
    ∃ n ∈ ns, (∃ word, n.exportedPair? = .ok (some (word, name)) ∧ c = .sibling word) ∨
      ∃ f, n.exportedPair? = .error f ∧ c = .fault f := by
  induction ns with
  | nil => cases h
  | cons n ns ih =>
    have behind (h : c ∈ specifierCandidates name ns) :=
      (ih h).imp fun m hm => And.imp_left (List.mem_cons_of_mem n) hm
    rw [specifierCandidates] at h
    split at h
    · rename_i f hf
      exact ⟨n, List.mem_cons_self, .inr ⟨f, hf, List.mem_singleton.1 h⟩⟩
    · rename_i word exported hp
      split at h
      · rename_i he
        rcases List.mem_cons.1 h with rfl | h
        · exact ⟨n, List.mem_cons_self, .inl ⟨word, he ▸ hp, rfl⟩⟩
        · exact behind h
      · exact behind h
    · exact behind h

theorem specifierCandidates_of_mem {ns : List Node} (hd : ∀ n ∈ ns, ∃ r, n.exportedPair? = .ok r)
    {n : Node} (hn : n ∈ ns) {word : Text} (hp : n.exportedPair? = .ok (some (word, name))) :
    .sibling word ∈ specifierCandidates name ns := by
  induction ns with
  | nil => cases hn
  | cons m ns ih =>
    rw [specifierCandidates]
    rcases List.mem_cons.1 hn with rfl | hn
    · rw [hp]
      simp
    · have := ih (fun n hn => hd n (List.mem_cons_of_mem _ hn)) hn
      obtain ⟨r, hr⟩ := hd m List.mem_cons_self
      rw [hr]
      rcases r with _ | ⟨other, exported⟩
      · exact this
      · simp only
        split
        · exact List.mem_cons_of_mem _ this
        · exact this

theorem mem_passedOn {source : Text} {ns : List Node} (h : c ∈ passedOn name source ns) :
    (∃ before n after word, ns = before ++ n :: after ∧ n.exportedPair? = .ok (some (word, name)) ∧
      (∀ m ∈ before, ∀ other, m.exportedPair? ≠ .ok (some (other, name))) ∧
      c = .elsewhere ⟨name, source, word⟩) ∨
    ∃ n ∈ ns, ∃ f, n.exportedPair? = .error f ∧ c = .fault f := by
  induction ns with
  | nil => cases h
  | cons n ns ih =>
    have behind (hn : ∀ other, n.exportedPair? ≠ .ok (some (other, name)))
        (h : c ∈ passedOn name source ns) :
        (∃ before m after word, n :: ns = before ++ m :: after ∧
          m.exportedPair? = .ok (some (word, name)) ∧
          (∀ m ∈ before, ∀ other, m.exportedPair? ≠ .ok (some (other, name))) ∧
          c = .elsewhere ⟨name, source, word⟩) ∨
        ∃ m ∈ n :: ns, ∃ f, m.exportedPair? = .error f ∧ c = .fault f := by
      rcases ih h with ⟨before, m, after, word, rfl, hp, hb, hc⟩ | ⟨m, hm, hf⟩
      · refine .inl ⟨n :: before, m, after, word, rfl, hp, fun x hx => ?_, hc⟩
        rcases List.mem_cons.1 hx with rfl | hx
        · exact hn
        · exact hb x hx
      · exact .inr ⟨m, List.mem_cons_of_mem n hm, hf⟩
    rw [passedOn] at h
    split at h
    · rename_i f hf
      exact .inr ⟨n, List.mem_cons_self, f, hf, List.mem_singleton.1 h⟩
    · rename_i word exported hp
      split at h
      · rename_i he
        subst he
        exact .inl ⟨[], n, ns, word, rfl, hp, by simp, List.mem_singleton.1 h⟩
      · rename_i he
        refine behind (fun other ho => he ?_) h
        rw [hp] at ho
        cases ho
        rfl
    · rename_i hp
      exact behind (fun other ho => by rw [hp] at ho; cases ho) h

theorem passedOn_of_first {source : Text} {before after : List Node} {n : Node} {word : Text}
    (hd : ∀ m ∈ before, ∃ r, m.exportedPair? = .ok r)
    (hb : ∀ m ∈ before, ∀ other, m.exportedPair? ≠ .ok (some (other, name)))
    (hp : n.exportedPair? = .ok (some (word, name))) :
    .elsewhere ⟨name, source, word⟩ ∈ passedOn name source (before ++ n :: after) := by
  induction before with
  | nil =>
    rw [List.nil_append, passedOn, hp]
    simp
  | cons m before ih =>
    have := ih (fun m hm => hd m (List.mem_cons_of_mem _ hm))
      fun m hm => hb m (List.mem_cons_of_mem _ hm)
    obtain ⟨r, hr⟩ := hd m List.mem_cons_self
    rw [List.cons_append, passedOn, hr]
    rcases r with _ | ⟨other, exported⟩
    · exact this
    · have hne : exported ≠ name := fun he => hb m List.mem_cons_self other (he ▸ hr)
      simp only [hne, if_false]
      exact this

/-- Where a candidate of an exported declaration comes from. -/
theorem mem_declarationCandidates {meaning : Meaning} {d : Node}
    (h : c ∈ declarationCandidates meaning name d) :
    (meaning = .type ∧ d.declaresType name = true ∧ c = .here d) ∨
      (meaning = .value ∧ (d.kind = .lexicalDeclaration ∨ d.kind = .variableDeclaration) ∧
        ∃ value, (d.namedChildren.filter (·.kind == .variableDeclarator)).findSome?
          (Node.initialValue? name) = some value ∧ c ∈ value.valueCandidates) := by
  unfold declarationCandidates at h
  split at h
  · split at h
    · exact .inl ⟨rfl, ‹_›, List.mem_singleton.1 h⟩
    · cases h
  · split at h
    · rename_i hk
      simp only at h
      split at h
      · rename_i value hv
        exact .inr ⟨rfl, hk, value, hv, h⟩
      · cases h
    · cases h

/-- Why the exports of a script cannot be read: a source or a name in braces cannot be decoded. -/
inductive ExportFault (root : Node) (f : Failure) : Prop
  | source {statement : Node} (hs : statement ∈ root.exports)
      (hf : Node.stringValue? (statement.child? .source) = .error f)
  | specifier {statement n : Node} (hs : statement ∈ root.exports)
      (hn : n ∈ statement.exportSpecifiers) (hf : n.exportedPair? = .error f)

/-- What a script can offer for a name. -/
inductive Offers (root : Node) (name : Text) : Meaning → Candidate → Prop
  | value {value : Node} {c : Candidate} (hv : root.ExportsValue name value)
      (hc : c ∈ value.valueCandidates) : Offers root name .value c
  | type {d : Node} (hd : root.ExportsType name d) : Offers root name .type (.here d)
  | word {meaning : Meaning} {word : Text} (hw : root.ExportsWord name word) :
      Offers root name meaning (.sibling word)
  | passedOn {meaning : Meaning} {source word : Text} (ho : root.PassesOn name source word) :
      Offers root name meaning (.elsewhere ⟨name, source, word⟩)
  | fault {meaning : Meaning} {f : Failure} (hf : ExportFault root f) :
      Offers root name meaning (.fault f)

theorem offers_of_mem {meaning : Meaning} (hm : c ∈ exportCandidates root meaning name) :
    Offers root name meaning c := by
  obtain ⟨statement, hs, h⟩ := List.mem_flatMap.1 hm
  clear hm
  split at h
  · rename_i hf
    cases List.mem_singleton.1 h
    exact .fault (.source hs hf)
  · rename_i source hf
    unfold statementCandidates at h
    split at h
    · rename_i d hd
      rcases mem_declarationCandidates h with ⟨rfl, ht, rfl⟩ | ⟨rfl, hk, value, hv, hc⟩
      · exact .type ⟨statement, hs, hd, ht⟩
      · exact .value (.declared hs hd hk hv) hc
    · rename_i hd
      split at h
      · rename_i hdef
        split at h
        · rename_i hn
          obtain ⟨hn, rfl⟩ := hn
          split at h
          · rename_i value hv
            exact .value (.default hs hd hdef hn hv) h
          · cases h
        · cases h
      · rename_i hdef
        have hc : statement.IsClause := ⟨hd, by simpa using hdef⟩
        split at h
        · split at h
          · rename_i ha
            split at h
            · cases h
            · rename_i hn
              cases List.mem_singleton.1 h
              exact .passedOn (.star hs hc hf ha hn)
          · rename_i ha
            rcases mem_passedOn h with ⟨before, n, after, word, hl, hp, hb, rfl⟩ | ⟨n, hn, f, he, rfl⟩
            · exact .passedOn (.named hs hc hf (by simpa using ha) hl hp hb)
            · exact .fault (.specifier hs hn he)
        · rcases mem_specifierCandidates h with ⟨n, hn, ⟨word, hp, rfl⟩ | ⟨f, he, rfl⟩⟩
          · exact .word ⟨statement, hs, hc, hf, n, hn, hp⟩
          · exact .fault (.specifier hs hn he)

/-- The candidates of a word: its declaration, or else its import. -/
theorem mem_localCandidates {s : Scope} {meaning : Meaning} {word : Text} :
    c ∈ s.localCandidates meaning word ↔
      (meaning = .value ∧ ∃ value, s.root.localInitializer? word = some value ∧
        c ∈ value.valueCandidates) ∨
      (meaning = .type ∧ ∃ n, s.root.localType? word = some n ∧ c = .here n) ∨
      (s.declares meaning word = false ∧ ∃ i, s.imports.get? word = some i ∧ c = .elsewhere i) := by
  have hi : c ∈ ((s.imports.get? word).map Candidate.elsewhere).toList ↔
      ∃ i, s.imports.get? word = some i ∧ c = .elsewhere i := by
    rw [Option.mem_toList, Option.map_eq_some_iff]
    simp only [eq_comm]
  cases meaning with
  | value =>
    cases h : s.root.localInitializer? word with
    | none => simp only [localCandidates, h, hi, declares]; simp
    | some value => simp [localCandidates, declares, h]
  | type =>
    cases h : s.root.localType? word with
    | none => simp only [localCandidates, h, hi, declares]; simp
    | some n => simp [localCandidates, declares, h]

end Scope

/-! ## Walks move along the graph -/

namespace Workspace

theorem onward_mem_candidateMoves {w : Workspace} {s : Scope} {meaning : Meaning} {c : Candidate}
    {q : Query} : .ok (.onward q) ∈ w.candidateMoves s meaning c ↔
      (∃ word, c = .sibling word ∧ q = .word s meaning word) ∨
      (∃ i path, c = .elsewhere i ∧ i.exported ≠ allExports ∧
        w.resolve s i.specifier = .ok (some path) ∧ q = .exported path meaning i.exported) := by
  cases c with
  | here n => simp [candidateMoves]
  | sibling word => simp [candidateMoves]
  | fault f => simp [candidateMoves]
  | elsewhere i =>
    by_cases hi : i.exported = allExports
    · simp [candidateMoves, hi]
    · rcases hr : w.resolve s i.specifier with f | _ | path <;> simp [candidateMoves, hi, hr]

theorem found_mem_candidateMoves {w : Workspace} {s : Scope} {meaning : Meaning} {c : Candidate}
    {d : Declaration} : .ok (.found d) ∈ w.candidateMoves s meaning c ↔
      ∃ n, c = .here n ∧ d = ⟨n, s⟩ := by
  cases c with
  | here n => simp [candidateMoves]
  | sibling word => simp [candidateMoves]
  | fault f => simp [candidateMoves]
  | elsewhere i =>
    by_cases hi : i.exported = allExports
    · simp [candidateMoves, hi]
    · rcases hr : w.resolve s i.specifier with f | _ | path <;> simp [candidateMoves, hi, hr]

theorem mem_moves {w : Workspace} {q : Query} {m : Move} (h : .ok m ∈ w.moves q) :
    (∃ path meaning name s, q = .exported path meaning name ∧ w.load path = .ok (some s) ∧
      ∃ c ∈ Scope.exportCandidates s.root meaning name, .ok m ∈ w.candidateMoves s meaning c) ∨
    (∃ s meaning word, q = .word s meaning word ∧
      ∃ c ∈ s.localCandidates meaning word, .ok m ∈ w.candidateMoves s meaning c) := by
  cases q with
  | exported path meaning name =>
    rw [moves] at h
    split at h
    · simp at h
    · cases h
    · rename_i s hs
      obtain ⟨c, hc, hm⟩ := List.mem_flatMap.1 h
      exact .inl ⟨path, meaning, name, s, rfl, hs, c, hc, hm⟩
  | word s meaning word =>
    obtain ⟨c, hc, hm⟩ := List.mem_flatMap.1 h
    exact .inr ⟨s, meaning, word, rfl, c, hc, hm⟩

end Workspace

open Workspace

theorem leads_of_onward {w : Workspace} {q p : Query} (h : .ok (.onward p) ∈ w.moves q) :
    Leads w q p := by
  rcases mem_moves h with ⟨path, meaning, name, s, rfl, hs, c, hc, hm⟩ | ⟨s, meaning, word, rfl, c, hc, hm⟩
  · rcases onward_mem_candidateMoves.1 hm with ⟨y, rfl, rfl⟩ | ⟨i, path', rfl, ha, hp, rfl⟩
    · cases Scope.offers_of_mem hc with
      | value hv hc =>
        rcases Node.mem_valueCandidates.1 hc with ⟨n, -, he⟩ | ⟨hd, hk, he⟩
        · cases he
        · cases he
          exact .exportedAlias hs hv ⟨hd, hk, rfl⟩
      | word hw => exact .clause hs hw
    · cases Scope.offers_of_mem hc with
      | value hv hc => rcases Node.mem_valueCandidates.1 hc with ⟨n, -, he⟩ | ⟨-, -, he⟩ <;> cases he
      | passedOn ho => exact .passedOn hs ho ha hp
  · rcases onward_mem_candidateMoves.1 hm with ⟨y, rfl, rfl⟩ | ⟨i, path', rfl, ha, hp, rfl⟩
    · rcases Scope.mem_localCandidates.1 hc with ⟨rfl, value, hv, hc⟩ | ⟨-, n, -, he⟩ | ⟨-, i, -, he⟩
      · rcases Node.mem_valueCandidates.1 hc with ⟨n, -, he⟩ | ⟨hd, hk, he⟩
        · cases he
        · cases he
          exact .aliased hv ⟨hd, hk, rfl⟩
      · cases he
      · cases he
    · rcases Scope.mem_localCandidates.1 hc with ⟨rfl, value, hv, hc⟩ | ⟨-, n, -, he⟩ | ⟨hl, i, hi, he⟩
      · rcases Node.mem_valueCandidates.1 hc with ⟨n, -, he⟩ | ⟨hd, hk, he⟩ <;> cases he
      · cases he
      · cases he
        exact .imported hl hi ha hp

theorem holds_of_found {w : Workspace} {q : Query} {d : Declaration} (h : .ok (.found d) ∈ w.moves q) :
    Holds w q d := by
  rcases mem_moves h with ⟨path, meaning, name, s, rfl, hs, c, hc, hm⟩ | ⟨s, meaning, word, rfl, c, hc, hm⟩
  · obtain ⟨n, rfl, rfl⟩ := found_mem_candidateMoves.1 hm
    cases Scope.offers_of_mem hc with
    | value hv hc =>
      rcases Node.mem_valueCandidates.1 hc with ⟨n, hd, he⟩ | ⟨-, -, he⟩
      · cases he
        exact .exportedValue hs hv hd
      · cases he
    | type hd => exact .exportedType hs hd
  · obtain ⟨n, rfl, rfl⟩ := found_mem_candidateMoves.1 hm
    rcases Scope.mem_localCandidates.1 hc with ⟨rfl, value, hv, hc⟩ | ⟨rfl, n, hn, he⟩ | ⟨-, i, -, he⟩
    · rcases Node.mem_valueCandidates.1 hc with ⟨n, hd, he⟩ | ⟨-, -, he⟩
      · cases he
        exact .localValue hv hd
      · cases he
    · cases he
      exact .localType hn
    · cases he

/-! ## What stops a walk -/

/-- Why a lookup in a scope can fail: an export that cannot be read, or a specifier of an import or
an export whose path cannot be resolved. -/
inductive Scope.Stops (w : Workspace) (s : Scope) (f : Failure) : Prop
  | unread (h : Scope.ExportFault s.root f)
  | imported {i : Import} (hi : i ∈ s.imports) (hf : w.resolve s i.specifier = .error f)
  | passedOn {statement : Node} {specifier : Text} (hs : statement ∈ s.root.exports)
      (hsrc : Node.stringValue? (statement.child? .source) = .ok (some specifier))
      (hf : w.resolve s specifier = .error f)

theorem Scope.mem_imports_of_get? {s : Scope} {word : Text} {i : Import}
    (h : s.imports.get? word = some i) : i ∈ s.imports :=
  List.mem_reverse.1 (List.mem_of_find?_eq_some h)

theorem Node.PassesOn.exists_source {root : Node} {name specifier word : Text}
    (h : root.PassesOn name specifier word) :
    ∃ statement ∈ root.exports, stringValue? (statement.child? .source) = .ok (some specifier) := by
  cases h with
  | star hs _ hf => exact ⟨_, hs, hf⟩
  | named hs _ hf => exact ⟨_, hs, hf⟩

theorem Workspace.error_mem_candidateMoves {w : Workspace} {s : Scope} {meaning : Meaning}
    {c : Candidate} {f : Failure} (h : .error f ∈ w.candidateMoves s meaning c) :
    c = .fault f ∨ ∃ i, c = .elsewhere i ∧ w.resolve s i.specifier = .error f := by
  cases c with
  | here n => simp [candidateMoves] at h
  | sibling word => simp [candidateMoves] at h
  | fault g =>
    cases List.mem_singleton.1 h
    exact .inl rfl
  | elsewhere i =>
    by_cases hi : i.exported = allExports
    · simp [candidateMoves, hi] at h
    · rcases hr : w.resolve s i.specifier with g | _ | path <;> simp [candidateMoves, hi, hr] at h
      exact .inr ⟨i, rfl, h ▸ hr⟩

/-- A walk fails at a module whose imports cannot be read, or where a lookup in its scope stops. -/
theorem stops_of_error {w : Workspace} {q : Query} {f : Failure} (h : .error f ∈ w.moves q) :
    (∃ path meaning name, q = .exported path meaning name ∧ w.load path = .error f) ∨
    (∃ path meaning name s, q = .exported path meaning name ∧ w.load path = .ok (some s) ∧
      s.Stops w f) ∨
    ∃ s meaning word, q = .word s meaning word ∧ s.Stops w f := by
  cases q with
  | exported path meaning name =>
    rw [moves] at h
    split at h
    · rename_i g hg
      cases List.mem_singleton.1 h
      exact .inl ⟨path, meaning, name, rfl, hg⟩
    · cases h
    · rename_i s hs
      obtain ⟨c, hc, hm⟩ := List.mem_flatMap.1 h
      refine .inr (.inl ⟨path, meaning, name, s, rfl, hs, ?_⟩)
      rcases error_mem_candidateMoves hm with rfl | ⟨i, rfl, hr⟩
      · cases Scope.offers_of_mem hc with
        | value _ hc => rcases Node.mem_valueCandidates.1 hc with ⟨n, -, he⟩ | ⟨-, -, he⟩ <;> cases he
        | fault hf => exact .unread hf
      · cases Scope.offers_of_mem hc with
        | value _ hc => rcases Node.mem_valueCandidates.1 hc with ⟨n, -, he⟩ | ⟨-, -, he⟩ <;> cases he
        | passedOn ho =>
          obtain ⟨statement, hst, hsrc⟩ := ho.exists_source
          exact .passedOn hst hsrc hr
  | word s meaning word =>
    obtain ⟨c, hc, hm⟩ := List.mem_flatMap.1 h
    refine .inr (.inr ⟨s, meaning, word, rfl, ?_⟩)
    rcases Scope.mem_localCandidates.1 hc with ⟨-, value, -, hc⟩ | ⟨-, n, -, rfl⟩ | ⟨-, i, hi, rfl⟩
    · rcases Node.mem_valueCandidates.1 hc with ⟨n, -, rfl⟩ | ⟨-, -, rfl⟩ <;>
        simp [candidateMoves] at hm
    · simp [candidateMoves] at hm
    · rcases error_mem_candidateMoves hm with he | ⟨j, hj, hr⟩
      · cases he
      · cases hj
        exact .imported (Scope.mem_imports_of_get? hi) hr

/-! ## Walks can take every edge -/

/-- Nothing stops a lookup in a scope. -/
def Scope.Readable (w : Workspace) (s : Scope) : Prop := ∀ f, ¬ s.Stops w f

namespace Scope

variable {w : Workspace} {s : Scope} {name : Text} {meaning : Meaning}

theorem Readable.source (h : s.Readable w) {statement : Node} (hs : statement ∈ s.root.exports) :
    ∃ r, Node.stringValue? (statement.child? .source) = .ok r := by
  cases hr : Node.stringValue? (statement.child? .source) with
  | error f => exact absurd (.unread (.source hs hr)) (h f)
  | ok r => exact ⟨r, rfl⟩

theorem Readable.specifiers (h : s.Readable w) {statement : Node} (hs : statement ∈ s.root.exports) :
    ∀ n ∈ statement.exportSpecifiers, ∃ r, n.exportedPair? = .ok r := by
  intro n hn
  cases hr : n.exportedPair? with
  | error f => exact absurd (.unread (.specifier hs hn hr)) (h f)
  | ok r => exact ⟨r, rfl⟩

/-- A readable scope offers what its export statements say. -/
theorem mem_of_offers (h : s.Readable w) {c : Candidate} (hc : Offers s.root name meaning c)
    (hf : ∀ f, c ≠ .fault f) : c ∈ exportCandidates s.root meaning name := by
  -- what a statement offers is offered if its source can be read
  have offered {statement : Node} {source : Option Text} (hs : statement ∈ s.root.exports)
      (hsrc : Node.stringValue? (statement.child? .source) = .ok source)
      (hm : c ∈ statementCandidates meaning name statement source) :
      c ∈ exportCandidates s.root meaning name :=
    List.mem_flatMap.2 ⟨statement, hs, by rw [hsrc]; exact hm⟩
  cases hc with
  | value hv hc =>
    cases hv with
    | declared hs hd hk hv =>
      obtain ⟨source, hsrc⟩ := h.source hs
      refine offered hs hsrc ?_
      simp only [statementCandidates, hd, declarationCandidates, hk, if_true, hv]
      exact hc
    | default hs hd hk hn hv =>
      obtain ⟨source, hsrc⟩ := h.source hs
      refine offered hs hsrc ?_
      simp only [statementCandidates, hd, hk, hn, hv, if_true, and_self]
      exact hc
  | type hd =>
    obtain ⟨statement, hs, hd, ht⟩ := hd
    obtain ⟨source, hsrc⟩ := h.source hs
    refine offered hs hsrc ?_
    simp [statementCandidates, hd, declarationCandidates, ht]
  | word hw =>
    obtain ⟨statement, hs, ⟨hd, hdef⟩, hsrc, n, hn, hp⟩ := hw
    refine offered hs hsrc ?_
    simp only [statementCandidates, hd, hdef, Bool.false_eq_true, if_false]
    exact specifierCandidates_of_mem (h.specifiers hs) hn hp
  | passedOn ho =>
    cases ho with
    | star hs hc hsrc ha hn =>
      refine offered hs hsrc ?_
      simp [statementCandidates, hc.1, hc.2, ha, hn]
    | named hs hc hsrc ha hl hp hb =>
      refine offered hs hsrc ?_
      simp only [statementCandidates, hc.1, hc.2, ha, Bool.false_eq_true, if_false, hl]
      exact passedOn_of_first (fun m hm => h.specifiers hs m (by rw [hl]; simp [hm])) hb hp
  | fault => exact absurd rfl (hf _)

end Scope

/-- What a query leads to is among its moves if its module can be read. -/
theorem onward_of_leads {w : Workspace} {q p : Query}
    (hl : ∀ path meaning name s, q = .exported path meaning name → w.load path = .ok (some s) →
      s.Readable w) (h : Leads w q p) :
    .ok (.onward p) ∈ w.moves q := by
  cases h with
  | @aliased s x y value hv hr =>
    obtain ⟨hd, hk, rfl⟩ := hr
    refine List.mem_flatMap.2 ⟨.sibling value.unwrap.name, ?_, by simp [candidateMoves]⟩
    exact Scope.mem_localCandidates.2 (.inl ⟨rfl, value, hv, Node.mem_valueCandidates.2
      (.inr ⟨hd, hk, rfl⟩)⟩)
  | @imported s meaning x i path hd hi ha hp =>
    refine List.mem_flatMap.2 ⟨.elsewhere i, ?_, ?_⟩
    · exact Scope.mem_localCandidates.2 (.inr (.inr ⟨hd, i, hi, rfl⟩))
    · exact onward_mem_candidateMoves.2 (.inr ⟨i, path, rfl, ha, hp, rfl⟩)
  | @exportedAlias path s name y value hs hv hr =>
    obtain ⟨hd, hk, rfl⟩ := hr
    rw [moves, hs]
    refine List.mem_flatMap.2 ⟨.sibling value.unwrap.name, ?_, by simp [candidateMoves]⟩
    exact Scope.mem_of_offers (hl _ _ _ s rfl hs)
      (.value hv (Node.mem_valueCandidates.2 (.inr ⟨hd, hk, rfl⟩))) (by simp)
  | @clause path s meaning name y hs hw =>
    rw [moves, hs]
    refine List.mem_flatMap.2 ⟨.sibling y, ?_, by simp [candidateMoves]⟩
    exact Scope.mem_of_offers (hl _ _ _ s rfl hs) (.word hw) (by simp)
  | @passedOn path path' s meaning name specifier y hs ho ha hp =>
    rw [moves, hs]
    refine List.mem_flatMap.2 ⟨.elsewhere ⟨name, specifier, y⟩, ?_, ?_⟩
    · exact Scope.mem_of_offers (hl _ _ _ s rfl hs) (.passedOn ho) (by simp)
    · exact onward_mem_candidateMoves.2 (.inr ⟨⟨name, specifier, y⟩, path', rfl, ha, hp, rfl⟩)

/-- A declaration that a query holds is among its moves if its module can be read. -/
theorem found_of_holds {w : Workspace} {q : Query} {d : Declaration}
    (hl : ∀ path meaning name s, q = .exported path meaning name → w.load path = .ok (some s) →
      s.Readable w) (h : Holds w q d) :
    .ok (.found d) ∈ w.moves q := by
  cases h with
  | @localValue s x value n hv hd =>
    refine List.mem_flatMap.2 ⟨.here n, ?_, by simp [candidateMoves]⟩
    exact Scope.mem_localCandidates.2 (.inl ⟨rfl, value, hv, Node.mem_valueCandidates.2
      (.inl ⟨n, hd, rfl⟩)⟩)
  | @localType s x n hn =>
    refine List.mem_flatMap.2 ⟨.here n, ?_, by simp [candidateMoves]⟩
    exact Scope.mem_localCandidates.2 (.inr (.inl ⟨rfl, n, hn, rfl⟩))
  | @exportedValue path s name value n hs hv hd =>
    rw [moves, hs]
    refine List.mem_flatMap.2 ⟨.here n, ?_, by simp [candidateMoves]⟩
    exact Scope.mem_of_offers (hl _ _ _ s rfl hs)
      (.value hv (Node.mem_valueCandidates.2 (.inl ⟨n, hd, rfl⟩))) (by simp)
  | @exportedType path s name n hs hn =>
    rw [moves, hs]
    refine List.mem_flatMap.2 ⟨.here n, ?_, by simp [candidateMoves]⟩
    exact Scope.mem_of_offers (hl _ _ _ s rfl hs) (.type hn) (by simp)

end SurfaceCoverage
