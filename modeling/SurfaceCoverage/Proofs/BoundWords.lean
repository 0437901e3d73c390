import SurfaceCoverage.Proofs.DocumentOrder
import SurfaceCoverage.Proofs.Faults
/-!
# The words that imports bind

`Node.ImportsAt` says at which place of a script's tree which word is bound: the place of a statement,
of a part of its clause and of a specifier in braces, so that places in the order of the document are
in the order of their lists. What a word stands for is the binding at the last place that binds it,
and it stands for nothing if there is no such place. Hence statements that bind no word in common can
change places.
-/

namespace SurfaceCoverage

namespace Node

/-- A name in a specifier: the value of a string, or a word as it stands. -/
def Spells (n : Node) (t : Text) : Prop :=
  if n.kind = .string then n.stringValue = .ok (some t) else t = n.name

/-- A specifier in braces takes an export under a word: the new one that it gives, or else the
export's own. An export whose name is empty is passed over. -/
inductive Takes (n : Node) (exported : Text) : Text → Prop where
  | renamed {name rename : Node} {word : Text} (kind : n.kind = .importSpecifier)
      (named : n.child? .name = some name) (spelled : name.Spells exported)
      (given : n.child? .rename = some rename) (word_spelled : rename.Spells word)
      (exported_ne : exported ≠ []) (word_ne : word ≠ []) : Takes n exported word
  | plain {name : Node} (kind : n.kind = .importSpecifier) (named : n.child? .name = some name)
      (spelled : name.Spells exported)
      (unnamed : ∀ rename word, n.child? .rename = some rename → rename.Spells word → word = [])
      (exported_ne : exported ≠ []) : Takes n exported exported

/-- A part of an import clause binds a word: itself, the one for all exports together, or one in each
specifier of its braces. -/
inductive PartImports (source : Text) (part : Node) : List Nat → Import → Prop where
  | itself (kind : part.kind = .identifier) :
      PartImports source part [] ⟨part.name, source, defaultExport⟩
  | all {word : Node} (kind : part.kind = .namespaceImport)
      (found : part.namedChildren.find? (·.kind == .identifier) = some word) :
      PartImports source part [] ⟨word.name, source, allExports⟩
  | braces {k : Nat} {n : Node} {exported word : Text} (kind : part.kind = .namedImports)
      (place : part.namedChildren[k]? = some n) (takes : n.Takes exported word) :
      PartImports source part [k] ⟨word, source, exported⟩

/-- An import statement with a constant source binds a word in a part of its clause. -/
inductive StatementImports (statement : Node) : List Nat → Import → Prop where
  | part {literal clause part : Node} {source : Text} {j : Nat} {below : List Nat} {i : Import}
      (kind : statement.kind = .importStatement) (from_literal : statement.child? .source = some literal)
      (constant : literal.stringValue = .ok (some source))
      (found : statement.namedChildren.find? (·.kind == .importClause) = some clause)
      (place : clause.namedChildren[j]? = some part) (imports : part.PartImports source below i) :
      StatementImports statement (j :: below) i

/-- A script binds a word in one of its top-level statements. -/
inductive ImportsAt (root : Node) : List Nat → Import → Prop where
  | statement {statement : Node} {k : Nat} {below : List Nat} {i : Import}
      (place : root.namedChildren[k]? = some statement) (imports : statement.StatementImports below i) :
      ImportsAt root (k :: below) i

/-- A statement binds a word somewhere. -/
def BindsWord (statement : Node) (word : Text) : Prop :=
  ∃ place i, statement.StatementImports place i ∧ i.localName = word

end Node

/-! ## Results in the order of places -/

section
variable {α β : Type} {as : List α}

/-- What a function into results gives for each element of a list. -/
theorem forall₂_of_mapM {f : α → Except Failure β} {P : α → β → Prop} {bs : List β}
    (h : as.mapM f = .ok bs) (hf : ∀ a ∈ as, ∀ b, f a = .ok b → P a b) : List.Forall₂ P as bs := by
  induction as generalizing bs with
  | nil =>
    cases h
    exact .nil
  | cons a as ih =>
    rw [List.mapM_cons] at h
    obtain ⟨b, hb, h⟩ := exists_ok_of_bind h
    obtain ⟨rest, hrest, h⟩ := exists_ok_of_bind h
    cases h
    exact .cons (hf a List.mem_cons_self b hb)
      (ih hrest fun a ha => hf a (List.mem_cons_of_mem _ ha))

/-- The results of a traversal are in order, element by element. -/
theorem inOrder_flatten {f : α → Except Failure (List β)} {R : α → List Nat → β → Prop}
    {results : List (List β)} (k : Nat) (h : as.mapM f = .ok results)
    (hf : ∀ a ∈ as, ∀ bs, f a = .ok bs → InOrder bs (R a)) :
    InOrder results.flatten fun p b => ∃ i q a, p = (k + i) :: q ∧ as[i]? = some a ∧ R a q b :=
  .flatten k (forall₂_of_mapM h hf)

end

/-! ## What is bound, in the order of the document -/

namespace Imports

variable {source : Text} {n : Node} {imports : Imports}

theorem specifierName?_eq_some {node : Option Node} {name : Option Text}
    (h : specifierName? node = .ok name) (t : Text) :
    (∃ m, node = some m ∧ m.Spells t) ↔ name = some t := by
  cases node with
  | none =>
    cases h
    simp
  | some m =>
    simp only [Option.some.injEq, exists_eq_left', Node.Spells]
    by_cases hk : m.kind = .string
    · rw [specifierName?, if_pos hk] at h
      rw [if_pos hk, h, Except.ok.injEq]
    · rw [specifierName?, if_neg hk] at h
      cases h
      rw [if_neg hk, Option.some.injEq, eq_comm]

theorem nonEmpty_eq_some {name : Option Text} {t : Text} :
    nonEmpty name = some t ↔ name = some t ∧ t ≠ [] := by
  simp [nonEmpty, Option.filter_eq_some_iff]

/-- What a specifier takes, and under which word, from the names in it. -/
theorem takes_iff {imported renamed : Option Text} (hk : n.kind = .importSpecifier)
    (hi : specifierName? (n.child? .name) = .ok imported)
    (hr : specifierName? (n.child? .rename) = .ok renamed) {exported word : Text} :
    n.Takes exported word ↔ nonEmpty imported = some exported ∧
      (nonEmpty renamed).or (nonEmpty imported) = some word := by
  have hname := specifierName?_eq_some hi
  have hrename := specifierName?_eq_some hr
  constructor
  · intro h
    cases h with
    | renamed _ named spelled given word_spelled exported_ne word_ne =>
      have himported := nonEmpty_eq_some.2 ⟨(hname _).1 ⟨_, named, spelled⟩, exported_ne⟩
      have hrenamed := nonEmpty_eq_some.2 ⟨(hrename _).1 ⟨_, given, word_spelled⟩, word_ne⟩
      exact ⟨himported, by rw [hrenamed, Option.some_or]⟩
    | plain _ named spelled unnamed exported_ne =>
      have himported := nonEmpty_eq_some.2 ⟨(hname _).1 ⟨_, named, spelled⟩, exported_ne⟩
      have hrenamed : nonEmpty renamed = none := by
        refine Option.eq_none_iff_forall_ne_some.2 fun w hw => ?_
        obtain ⟨hw, hne⟩ := nonEmpty_eq_some.1 hw
        obtain ⟨m, hm, hspells⟩ := (hrename w).2 hw
        exact hne (unnamed m w hm hspells)
      exact ⟨himported, by rw [hrenamed, Option.none_or, himported]⟩
  · rintro ⟨himported, hor⟩
    obtain ⟨hexported, hne⟩ := nonEmpty_eq_some.1 himported
    obtain ⟨m, hm, hspells⟩ := (hname exported).2 hexported
    cases hrenamed : nonEmpty renamed with
    | some w =>
      rw [hrenamed, Option.some_or] at hor
      cases hor
      obtain ⟨hword, hwne⟩ := nonEmpty_eq_some.1 hrenamed
      obtain ⟨r, hr, hw⟩ := (hrename word).2 hword
      exact .renamed hk hm hspells hr hw hne hwne
    | none =>
      rw [hrenamed, Option.none_or, himported] at hor
      cases hor
      refine .plain hk hm hspells (fun r w hr hw => Classical.byContradiction fun hwne => ?_) hne
      have := nonEmpty_eq_some.2 ⟨(hrename w).1 ⟨r, hr, hw⟩, hwne⟩
      rw [hrenamed] at this
      cases this

theorem inOrder_ofSpecifier (h : ofSpecifier source n = .ok imports) : InOrder imports fun p i =>
    p = [] ∧ ∃ exported word, n.Takes exported word ∧ i = ⟨word, source, exported⟩ := by
  unfold ofSpecifier at h
  by_cases hk : n.kind = .importSpecifier
  · rw [if_neg (not_not_intro hk)] at h
    obtain ⟨imported, hi, h⟩ := exists_ok_of_bind h
    obtain ⟨renamed, hr, h⟩ := exists_ok_of_bind h
    have htakes {exported word : Text} : n.Takes exported word ↔ nonEmpty imported = some exported ∧
        (nonEmpty renamed).or (nonEmpty imported) = some word := takes_iff hk hi hr
    split at h
    · rename_i exported word hexported hword
      cases h
      refine (inOrder_singleton _).congr fun p i => and_congr_right fun _ => ⟨?_, ?_⟩
      · rintro rfl
        exact ⟨exported, word, htakes.2 ⟨hexported, hword⟩, rfl⟩
      · rintro ⟨e, w, ht, rfl⟩
        obtain ⟨he, hw⟩ := htakes.1 ht
        rw [hexported] at he
        rw [hword] at hw
        cases he
        cases hw
        rfl
    · rename_i hnone
      cases h
      refine inOrder_nil ?_
      rintro p i ⟨-, e, w, ht, -⟩
      obtain ⟨he, hw⟩ := htakes.1 ht
      exact hnone e w he hw
  · rw [if_pos hk] at h
    cases h
    refine inOrder_nil ?_
    rintro p i ⟨-, e, w, ht, -⟩
    cases ht with
    | renamed kind => exact hk kind
    | plain kind => exact hk kind

theorem inOrder_ofPart {part : Node} (h : ofPart source part = .ok imports) :
    InOrder imports (part.PartImports source) := by
  unfold ofPart at h
  split at h
  · rename_i hk
    cases h
    refine (inOrder_singleton _).congr fun p i => ⟨?_, fun h => ?_⟩
    · rintro ⟨rfl, rfl⟩
      exact .itself hk
    · cases h with
      | itself => exact ⟨rfl, rfl⟩
      | all kind | braces kind => rw [hk] at kind; cases kind
  · rename_i hk
    split at h
    · rename_i word hfound
      cases h
      refine (inOrder_singleton _).congr fun p i => ⟨?_, fun h => ?_⟩
      · rintro ⟨rfl, rfl⟩
        exact .all hk hfound
      · cases h with
        | itself kind | braces kind => rw [hk] at kind; cases kind
        | all _ found =>
          rw [hfound] at found
          cases found
          exact ⟨rfl, rfl⟩
    · rename_i hfound
      cases h
      refine inOrder_nil fun p i h => ?_
      cases h with
      | itself kind | braces kind => rw [hk] at kind; cases kind
      | all _ found => rw [hfound] at found; cases found
  · rename_i hk
    obtain ⟨found, hfound, h⟩ := exists_ok_of_bind h
    cases h
    refine (inOrder_flatten 0 hfound fun n _ is his => inOrder_ofSpecifier his).congr
      fun p i => ⟨?_, fun h => ?_⟩
    · rintro ⟨k, _, n, rfl, hplace, rfl, exported, word, htakes, rfl⟩
      rw [Nat.zero_add]
      exact .braces hk hplace htakes
    · cases h with
      | itself kind | all kind => rw [hk] at kind; cases kind
      | @braces k n exported word _ place takes =>
        exact ⟨k, [], n, by rw [Nat.zero_add], place, rfl, exported, word, takes, rfl⟩
  · rename_i hidentifier hall hbraces
    cases h
    refine inOrder_nil fun p i h => ?_
    cases h with
    | itself kind => exact hidentifier kind
    | all kind => exact hall kind
    | braces kind => exact hbraces kind

theorem inOrder_ofStatement {statement : Node} (h : ofStatement statement = .ok imports) :
    InOrder imports statement.StatementImports := by
  unfold ofStatement at h
  by_cases hk : statement.kind = .importStatement
  · rw [if_neg (not_not_intro hk)] at h
    obtain ⟨source, hsource, h⟩ := exists_ok_of_bind h
    have hliteral {literal : Node} (hl : statement.child? .source = some literal) :
        literal.stringValue = .ok source := by
      rw [hl] at hsource
      exact hsource
    cases source with
    | none =>
      cases h
      refine inOrder_nil fun p i h => ?_
      obtain ⟨-, hl, constant, -, -, -⟩ := h
      rw [hliteral hl] at constant
      cases constant
    | some source =>
      obtain ⟨literal, hl⟩ : ∃ literal, statement.child? .source = some literal := by
        cases hl : statement.child? .source with
        | none => rw [hl] at hsource; cases hsource
        | some literal => exact ⟨literal, rfl⟩
      dsimp only at h
      split at h
      · rename_i hfound
        cases h
        refine inOrder_nil fun p i h => ?_
        obtain ⟨-, -, -, found, -, -⟩ := h
        rw [hfound] at found
        cases found
      · rename_i clause hfound
        obtain ⟨parts, hparts, h⟩ := exists_ok_of_bind h
        cases h
        refine (inOrder_flatten 0 hparts fun part _ is his => inOrder_ofPart his).congr
          fun p i => ⟨?_, fun h => ?_⟩
        · rintro ⟨k, q, part, rfl, hplace, himports⟩
          rw [Nat.zero_add]
          exact .part hk hl (hliteral hl) hfound hplace himports
        · obtain ⟨-, hl', constant, found, place, himports⟩ := h
          rw [hliteral hl'] at constant
          rw [hfound] at found
          cases constant
          cases found
          exact ⟨_, _, _, by rw [Nat.zero_add], place, himports⟩
  · rw [if_pos hk] at h
    cases h
    refine inOrder_nil fun p i h => ?_
    obtain ⟨kind, -, -, -, -, -⟩ := h
    exact hk kind

theorem inOrder_ofRoot {root : Node} (h : ofRoot root = .ok imports) :
    InOrder imports root.ImportsAt := by
  obtain ⟨found, hfound, h⟩ := exists_ok_of_bind h
  cases h
  refine (inOrder_flatten 0 hfound fun statement _ is his => inOrder_ofStatement his).congr
    fun p i => ⟨?_, ?_⟩
  · rintro ⟨k, q, statement, rfl, hplace, himports⟩
    rw [Nat.zero_add]
    exact .statement hplace himports
  · rintro ⟨hplace, himports⟩
    exact ⟨_, _, _, by rw [Nat.zero_add], hplace, himports⟩

/-! ## Last bindings -/

theorem get?_append (is js : Imports) (word : Text) :
    get? (is ++ js) word = (js.get? word).or (is.get? word) := by
  unfold get?
  rw [List.reverse_append, List.find?_append]

theorem get?_eq_none_iff {word : Text} :
    imports.get? word = none ↔ ∀ i ∈ imports, i.localName ≠ word := by
  unfold get?
  rw [List.find?_eq_none]
  simp

theorem get?_eq_some_iff {word : Text} {i : Import} : imports.get? word = some i ↔
    i.localName = word ∧ ∃ before after, imports = before ++ i :: after ∧
      ∀ j ∈ after, j.localName ≠ word := by
  unfold get?
  rw [List.find?_eq_some_iff_append, decide_eq_true_iff]
  refine and_congr_right fun _ => ⟨?_, ?_⟩
  · rintro ⟨after, before, happend, hafter⟩
    refine ⟨before.reverse, after.reverse, ?_, fun j hj => ?_⟩
    · rw [← List.reverse_reverse imports, happend, List.reverse_append, List.reverse_cons,
        List.append_assoc, List.singleton_append]
    · simpa using hafter j (List.mem_reverse.1 hj)
  · rintro ⟨before, after, rfl, hafter⟩
    refine ⟨after.reverse, before.reverse, ?_, fun j hj => ?_⟩
    · rw [List.reverse_append, List.reverse_cons, List.append_assoc, List.singleton_append]
    · simpa using hafter j (List.mem_reverse.1 hj)

variable {R : List Nat → Import → Prop} {word : Text}

theorem get?_eq_none_iff_inOrder (h : InOrder imports R) :
    imports.get? word = none ↔ ∀ p i, R p i → i.localName ≠ word := by
  obtain ⟨placed, rfl, -, hmem⟩ := h
  rw [get?_eq_none_iff]
  constructor
  · intro hnone p i hp
    exact hnone i (List.mem_map.2 ⟨(p, i), (hmem p i).2 hp, rfl⟩)
  · intro hnone i hi
    obtain ⟨⟨p, j⟩, hp, rfl⟩ := List.mem_map.1 hi
    exact hnone p j ((hmem p j).1 hp)

/-- A word stands for the binding at the last place that binds it. -/
theorem get?_eq_some_iff_inOrder {i : Import} (h : InOrder imports R) :
    imports.get? word = some i ↔ i.localName = word ∧
      ∃ p, R p i ∧ ∀ q j, R q j → p < q → j.localName ≠ word := by
  obtain ⟨placed, rfl, hsorted, hmem⟩ := h
  rw [get?_eq_some_iff]
  refine and_congr_right fun hword => ⟨?_, ?_⟩
  · rintro ⟨before, after, happend, hafter⟩
    obtain ⟨earlier, rest, rfl, -, hrest⟩ := List.map_eq_append_iff.1 happend
    obtain ⟨⟨p, i'⟩, later, rfl, rfl, rfl⟩ := List.map_eq_cons_iff.1 hrest
    refine ⟨p, (hmem p i').1 (by simp), fun q j hq hlt => ?_⟩
    rw [List.pairwise_append, List.pairwise_cons] at hsorted
    obtain ⟨-, -, hbefore⟩ := hsorted
    rcases List.mem_append.1 ((hmem q j).2 hq) with hq | hq
    · exact (List.lt_asymm hlt (hbefore _ hq _ List.mem_cons_self)).elim
    · rcases List.mem_cons.1 hq with hq | hq
      · cases hq
        exact (List.lt_irrefl _ hlt).elim
      · exact hafter j (List.mem_map.2 ⟨(q, j), hq, rfl⟩)
  · rintro ⟨p, hp, hlast⟩
    obtain ⟨earlier, later, rfl⟩ := List.append_of_mem ((hmem p i).2 hp)
    refine ⟨earlier.map (·.2), later.map (·.2), by simp, fun j hj => ?_⟩
    obtain ⟨⟨q, j⟩, hq, rfl⟩ := List.mem_map.1 hj
    rw [List.pairwise_append, List.pairwise_cons] at hsorted
    exact hlast q j ((hmem q j).1 (by simp [hq])) (hsorted.2.1.1 _ hq)

end Imports

/-! ## Statements in another order -/

/-- Statements in another order: neighbours that bind no word in common changed places. -/
inductive Node.Reordered : List Node → List Node → Prop where
  | refl (statements) : Reordered statements statements
  | cons {statements statements'} (statement) (rest : Reordered statements statements') :
      Reordered (statement :: statements) (statement :: statements')
  | swap {a b : Node} (statements) (disjoint : ∀ word, a.BindsWord word → ¬ b.BindsWord word) :
      Reordered (a :: b :: statements) (b :: a :: statements)
  | trans {first second third} (earlier : Reordered first second) (later : Reordered second third) :
      Reordered first third

/-- Where no two statements bind a word in common, all orders are open to them. -/
theorem Node.Reordered.of_perm {statements statements' : List Node}
    (h : statements.Perm statements') (hdisjoint : statements.Pairwise fun a b =>
      ∀ word, a.BindsWord word → ¬ b.BindsWord word) : Reordered statements statements' := by
  induction h with
  | nil => exact .refl []
  | cons a _ ih => exact .cons a (ih hdisjoint.of_cons)
  | swap a b statements =>
    have hab := List.rel_of_pairwise_cons hdisjoint List.mem_cons_self
    exact .swap statements hab
  | trans h _ ih ih' =>
    have hsymm {a b : Node} (hab : ∀ word, a.BindsWord word → ¬ b.BindsWord word) (word : Text)
        (hb : b.BindsWord word) (ha : a.BindsWord word) : False := hab word ha hb
    exact .trans (ih hdisjoint) (ih' ((h.pairwise_iff hsymm).1 hdisjoint))

namespace Imports

theorem bindsWord_iff {statement : Node} (h : ofStatement statement = .ok imports) :
    statement.BindsWord word ↔ imports.get? word ≠ none := by
  rw [Ne, get?_eq_none_iff_inOrder (inOrder_ofStatement h)]
  simp [Node.BindsWord]

/-- Statements in another order leave every word with its binding. -/
theorem get?_reordered {statements statements' : List Node} {found : List Imports}
    (h : Node.Reordered statements statements')
    (hfound : statements.mapM ofStatement = .ok found) :
    ∃ found', statements'.mapM ofStatement = .ok found' ∧
      ∀ word, get? found'.flatten word = get? found.flatten word := by
  induction h generalizing found with
  | refl => exact ⟨found, hfound, fun _ => rfl⟩
  | cons statement _ ih =>
    rw [List.mapM_cons] at hfound
    obtain ⟨own, hown, hfound⟩ := exists_ok_of_bind hfound
    obtain ⟨rest, hrest, hfound⟩ := exists_ok_of_bind hfound
    cases hfound
    obtain ⟨rest', hrest', hget⟩ := ih hrest
    refine ⟨own :: rest', by rw [List.mapM_cons, hown, hrest']; rfl, fun word => ?_⟩
    rw [List.flatten_cons, List.flatten_cons, get?_append, get?_append, hget]
  | @swap a b statements disjoint =>
    rw [List.mapM_cons, List.mapM_cons] at hfound
    obtain ⟨as, has, hfound⟩ := exists_ok_of_bind hfound
    obtain ⟨tail, hfound', hfound⟩ := exists_ok_of_bind hfound
    cases hfound
    obtain ⟨bs, hbs, hfound⟩ := exists_ok_of_bind hfound'
    obtain ⟨rest, hrest, hfound⟩ := exists_ok_of_bind hfound
    cases hfound
    refine ⟨bs :: as :: rest, ?_, fun word => ?_⟩
    · rw [List.mapM_cons, List.mapM_cons, hbs, has, hrest]
      rfl
    · simp only [List.flatten_cons, get?_append, Option.or_assoc]
      congr 1
      have hdisjoint := disjoint word
      rw [bindsWord_iff has, bindsWord_iff hbs, Classical.not_not] at hdisjoint
      by_cases ha : get? as word = none
      · rw [ha, Option.or_none, Option.none_or]
      · rw [hdisjoint ha, Option.or_none, Option.none_or]
  | trans _ _ ih ih' =>
    obtain ⟨found', hfound', hget⟩ := ih hfound
    obtain ⟨found'', hfound'', hget'⟩ := ih' hfound'
    exact ⟨found'', hfound'', fun word => (hget' word).trans (hget word)⟩

end Imports

/-- Where the literals of its import statements can be read, the imports of a script are read. Then a
word has the binding at the last place that binds it, and none if there is no such place, and import
statements that bind no word in common can change places. -/
theorem last_import_binds {root : Node} (hread : ∀ statement ∈ root.namedChildren,
      statement.kind = .importStatement → statement.Literals fun _ => False) :
    ∃ imports, Imports.ofRoot root = .ok imports ∧
      (∀ word i, imports.get? word = some i ↔ i.localName = word ∧
        ∃ p, root.ImportsAt p i ∧ ∀ q j, root.ImportsAt q j → p < q → j.localName ≠ word) ∧
      (∀ word, imports.get? word = none ↔ ∀ p i, root.ImportsAt p i → i.localName ≠ word) ∧
      ∀ root', Node.Reordered root.namedChildren root'.namedChildren →
        ∃ imports', Imports.ofRoot root' = .ok imports' ∧
          ∀ word, imports'.get? word = imports.get? word := by
  have hstatements : FailsOnly (fun _ => False) (root.namedChildren.mapM Imports.ofStatement) := by
    refine failsOnly_mapM fun statement hmem => ?_
    by_cases hk : statement.kind = .importStatement
    · exact (hread statement hmem hk).ofStatement
    · rw [Imports.ofStatement, if_pos hk]
      exact failsOnly_ok []
  obtain ⟨found, hfound⟩ := exists_ok_of_failsOnly hstatements
  have himports : Imports.ofRoot root = .ok found.flatten := by
    rw [Imports.ofRoot, hfound]
    rfl
  have horder := Imports.inOrder_ofRoot himports
  refine ⟨found.flatten, himports, fun word i => Imports.get?_eq_some_iff_inOrder horder,
    fun word => Imports.get?_eq_none_iff_inOrder horder, fun root' hroot' => ?_⟩
  obtain ⟨found', hfound', hget⟩ := Imports.get?_reordered hroot' hfound
  refine ⟨found'.flatten, ?_, hget⟩
  rw [Imports.ofRoot, hfound']
  rfl

/-- The statement that imports the default export of a module under a word. -/
def importing (word source : String) : Node :=
  .branch .none .importStatement [.branch .none .importClause [.leaf .none .identifier word],
    .branch .source .string [.leaf .none .stringFragment source]]

theorem literals_importing (word source : String) : (importing word source).Literals fun _ => False := by
  intro x hx f hf
  rw [Node.descendants_eq] at hx
  simp only [importing, Node.children, Node.preorderAll, Node.preorder, List.nil_append,
    List.cons_append, List.append_nil, List.mem_cons, List.not_mem_nil, or_false] at hx
  rcases hx with rfl | rfl | rfl | rfl | rfl <;> cases hf

/-- Two imports can change places. -/
theorem last_import_binds_two :
    let first := importing "a" "m"
    let second := importing "b" "n"
    let root := Node.branch .none .program [first, second]
    (∀ statement ∈ root.namedChildren, statement.kind = .importStatement →
      statement.Literals fun _ => False) ∧
    Node.Reordered root.namedChildren [second, first] ∧
    ∃ imports imports', Imports.ofRoot root = .ok imports ∧
      imports.get? "a" = some ⟨"a", "m", defaultExport⟩ ∧
      Imports.ofRoot (.branch .none .program [second, first]) = .ok imports' ∧
      ∀ word, imports'.get? word = imports.get? word := by
  intro first second root
  have hstatements : root.namedChildren = [first, second] := rfl
  have hread : ∀ statement ∈ root.namedChildren, statement.kind = .importStatement →
      statement.Literals fun _ => False := by
    rw [hstatements, List.forall_mem_cons, List.forall_mem_singleton]
    exact ⟨fun _ => literals_importing _ _, fun _ => literals_importing _ _⟩
  have hfirst : Imports.ofStatement first = .ok [⟨"a", "m", defaultExport⟩] := rfl
  have hsecond : Imports.ofStatement second = .ok [⟨"b", "n", defaultExport⟩] := rfl
  have hswap : Node.Reordered root.namedChildren [second, first] := by
    rw [hstatements]
    refine .of_perm (.swap _ _ _) (List.pairwise_pair.2 fun word => ?_)
    rw [Imports.bindsWord_iff hfirst, Imports.bindsWord_iff hsecond]
    simp only [Imports.get?_eq_none_iff, Ne, List.forall_mem_singleton, Classical.not_not]
    rintro rfl
    decide
  obtain ⟨imports, himports, -, -, hreordered⟩ := last_import_binds hread
  obtain ⟨imports', himports', hget⟩ := hreordered (.branch .none .program [second, first]) hswap
  refine ⟨hread, hswap, imports, imports', himports, ?_, himports', hget⟩
  cases himports
  decide

end SurfaceCoverage
