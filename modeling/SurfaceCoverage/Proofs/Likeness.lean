import Mathlib.Data.List.Forall2
import Mathlib.Data.Option.Basic
import SurfaceCoverage.Evidence.Script
import SurfaceCoverage.Proofs.Descendants
/-!
# Nodes that are read alike

Two scripts that differ somewhere deep below have nodes that correspond. A relation of nodes is a
likeness if related nodes have the same kind, words that are related have the same text, and the
parts of related nodes are related again: all parts of most nodes, and the parts that are picked by
the role that they play, values that may be wrapped aside. Whatever is read from a node by going
down such parts is the same for two related nodes.
-/

namespace SurfaceCoverage

/-! ## Lists of parts -/

section
variable {α β : Type} {R : α → β → Prop} {as : List α} {bs : List β}

theorem rel_refl {R : α → α → Prop} [Std.Refl R] (a : Option α) : Option.Rel R a a := by
  cases a with
  | none => exact .none
  | some a => exact .some (Std.Refl.refl a)

theorem exists_of_rel {a : Option α} {b : Option β} (h : Option.Rel R a b) {x : α}
    (ha : a = some x) : ∃ y, b = some y ∧ R x y := by
  cases h with
  | none => cases ha
  | some h => cases ha; exact ⟨_, rfl, h⟩

theorem eq_none_of_rel {a : Option α} {b : Option β} (h : Option.Rel R a b) (ha : a = none) :
    b = none := by
  cases h with
  | none => rfl
  | some h => cases ha

theorem rel_of_mem {a : Option α} {b : Option β} (h : Option.Rel R a b) {x : α} {y : β}
    (hx : x ∈ a) (hy : y ∈ b) : R x y := by
  cases h with
  | none => cases hx
  | some h =>
    cases hx
    cases hy
    exact h

theorem rel_head? (h : List.Forall₂ R as bs) : Option.Rel R as.head? bs.head? := by
  cases h with
  | nil => exact .none
  | cons h _ => exact .some h

theorem rel_find? {p : α → Bool} {q : β → Bool} (h : List.Forall₂ R as bs)
    (hp : ∀ a b, R a b → p a = q b) : Option.Rel R (as.find? p) (bs.find? q) := by
  induction h with
  | nil => exact .none
  | @cons a b as bs hab _ ih =>
    rw [List.find?_cons, List.find?_cons, hp a b hab]
    cases q b
    · exact ih
    · exact .some hab

theorem rel_bind {γ δ : Type} {S : γ → δ → Prop} {a : Option α} {b : Option β}
    {f : α → Option γ} {g : β → Option δ} (h : Option.Rel R a b)
    (hf : ∀ a b, R a b → Option.Rel S (f a) (g b)) : Option.Rel S (a.bind f) (b.bind g) := by
  cases h with
  | none => exact .none
  | some h => exact hf _ _ h

theorem rel_map {γ δ : Type} {S : γ → δ → Prop} {a : Option α} {b : Option β} {f : α → γ}
    {g : β → δ} (h : Option.Rel R a b) (hf : ∀ a b, R a b → S (f a) (g b)) :
    Option.Rel S (a.map f) (b.map g) := by
  cases h with
  | none => exact .none
  | some h => exact .some (hf _ _ h)

theorem rel_filter {p : α → Bool} {q : β → Bool} {a : Option α} {b : Option β}
    (h : Option.Rel R a b) (hp : ∀ a b, R a b → p a = q b) :
    Option.Rel R (a.filter p) (b.filter q) := by
  cases h with
  | none => exact .none
  | @some a b h =>
    rw [Option.filter_some, Option.filter_some, hp a b h]
    cases q b
    · exact .none
    · exact .some h

theorem mapM_congr {γ : Type} {f : α → Except Failure γ} {g : β → Except Failure γ}
    (h : List.Forall₂ R as bs) (hf : ∀ a b, R a b → f a = g b) : as.mapM f = bs.mapM g := by
  induction h with
  | nil => rfl
  | @cons a b as bs hab _ ih => rw [List.mapM_cons, List.mapM_cons, hf a b hab, ih]

theorem foldlM_congr {γ : Type} {f : γ → α → Except Failure γ} {g : γ → β → Except Failure γ}
    (h : List.Forall₂ R as bs) (hfg : ∀ a b, R a b → ∀ c, f c a = g c b) (c : γ) :
    as.foldlM f c = bs.foldlM g c := by
  induction h generalizing c with
  | nil => rfl
  | @cons a b as bs hab _ ih =>
    rw [List.foldlM_cons, List.foldlM_cons, hfg a b hab c]
    exact bind_congr fun c => ih c

section
variable {p : α → Bool} {q : β → Bool}

theorem countP_le_of_forall₂ (h : List.Forall₂ R as bs)
    (hpq : ∀ a b, R a b → p a = true → q b = true) : as.countP p ≤ bs.countP q := by
  induction h with
  | nil => exact Nat.le_refl _
  | @cons a b as bs hab _ ih =>
    rw [List.countP_cons, List.countP_cons]
    by_cases hp : p a = true
    · rw [if_pos hp, if_pos (hpq a b hab hp)]
      omega
    · rw [if_neg hp]
      omega

/-- If as many of the one list are counted as of the other, then the same ones are. -/
theorem forall₂_of_countP_eq (h : List.Forall₂ R as bs)
    (hpq : ∀ a b, R a b → p a = true → q b = true) (heq : bs.countP q = as.countP p) :
    List.Forall₂ (fun a b => R a b ∧ p a = q b) as bs := by
  induction h with
  | nil => exact .nil
  | @cons a b as bs hab h ih =>
    have hle := countP_le_of_forall₂ h hpq
    rw [List.countP_cons, List.countP_cons] at heq
    by_cases hp : p a = true
    · have hq := hpq a b hab hp
      rw [if_pos hp, if_pos hq] at heq
      exact .cons ⟨hab, hp.trans hq.symm⟩ (ih (by omega))
    · by_cases hq : q b = true
      · rw [if_neg hp, if_pos hq] at heq
        omega
      · rw [if_neg hp, if_neg hq] at heq
        refine .cons ⟨hab, ?_⟩ (ih (by omega))
        rw [Bool.not_eq_true] at hp hq
        rw [hp, hq]

end

end

/-! ## Kinds of parts -/

namespace Kind

/-- Kinds of nodes that are read as they are written. Nothing is put in or wrapped below one. -/
def isWord (k : Kind) : Bool :=
  [Kind.token, .identifier, .propertyIdentifier, .privatePropertyIdentifier,
    .shorthandPropertyIdentifier, .shorthandPropertyIdentifierPattern, .stringFragment,
    .escapeSequence, .jsxText].contains k

/-- Whether the part of a node that plays a role is a value that may be wrapped: an argument, the
object of a member, or the value of a pair. -/
def holdsValue (k : Kind) (r : Role) : Bool :=
  match k with
  | .arguments => true
  | .memberExpression | .subscriptExpression => r == .object
  | .pair => r == .value
  | _ => false

/-- Kinds of nodes whose parts do not correspond one by one, or not as they stand. -/
def isLoose (k : Kind) : Bool :=
  [Kind.program, .statementBlock, .switchCase, .switchDefault, .arguments, .memberExpression,
    .subscriptExpression, .pair, .object].contains k

end Kind

namespace Node

/-- A relation of nodes that differ below their blocks, or by wrappers, only. -/
class Likeness (R : Node → Node → Prop) : Prop where
  kind_eq {n n' : Node} : R n n' → n.kind = n'.kind
  text_eq {n n' : Node} : R n n' → n.kind.isWord = true → n.text = n'.text
  children {n n' : Node} : R n n' → n.kind.isLoose = false →
    List.Forall₂ R n.children n'.children
  child? {n n' : Node} {r : Role} : R n n' → r ≠ .none → n.kind.holdsValue r = false →
    Option.Rel R (n.child? r) (n'.child? r)

/-- Of related objects the members are related as well, in their order. -/
class MemberLikeness (R : Node → Node → Prop) : Prop extends Likeness R where
  members {n n' : Node} : R n n' → n.kind = .object →
    List.Forall₂ R n.namedChildren n'.namedChildren

section
variable {R : Node → Node → Prop} [Likeness R] {n n' : Node}

theorem kind_congr (h : R n n') : n.kind = n'.kind := Likeness.kind_eq h

/-- The name of a word is its text. -/
theorem name_congr (h : R n n') {k : Kind} (hk : n.kind = k) (hw : k.isWord = true) :
    n.name = n'.name := by
  unfold name
  rw [Likeness.text_eq h (hk ▸ hw)]

theorem isNamed_congr (h : R n n') : n.isNamed = n'.isNamed := by
  unfold isNamed
  rw [kind_congr h]

theorem namedChildren_congr (h : R n n') (hk : n.kind.isLoose = false) :
    List.Forall₂ R n.namedChildren n'.namedChildren := by
  refine List.rel_filter (fun c c' hc => ?_) (Likeness.children h hk)
  simp only [isNamed_congr hc, kind_congr hc]

theorem exists_child (h : R n n') {r : Role} {c : Node} (hc : n.child? r = some c)
    (hr : r ≠ .none) (hk : n.kind.holdsValue r = false) : ∃ c', n'.child? r = some c' ∧ R c c' :=
  exists_of_rel (Likeness.child? h hr hk) hc

theorem child_eq_none (h : R n n') {r : Role} (hc : n.child? r = none) (hr : r ≠ .none)
    (hk : n.kind.holdsValue r = false) : n'.child? r = none :=
  eq_none_of_rel (Likeness.child? h hr hk) hc

/-! ## Values without wrappers -/

theorem wrapped?_congr (h : R n n') : Option.Rel R n.wrapped? n'.wrapped? := by
  unfold Node.wrapped? isWrapper
  rw [← kind_congr h]
  by_cases hk : n.kind.isLoose = true
  · have hk : n.kind = .program ∨ n.kind = .statementBlock ∨ n.kind = .switchCase ∨
        n.kind = .switchDefault ∨ n.kind = .arguments ∨ n.kind = .memberExpression ∨
        n.kind = .subscriptExpression ∨ n.kind = .pair ∨ n.kind = .object := by
      simpa [Kind.isLoose] using hk
    rcases hk with hk | hk | hk | hk | hk | hk | hk | hk | hk <;> rw [hk] <;> exact .none
  · have hparts := namedChildren_congr h (by simpa using hk)
    split
    · exact rel_find? hparts fun c c' hc => by rw [kind_congr hc]
    · split
      · exact rel_head? hparts
      · exact .none

theorem unwrap_congr (h : R n n') : R n.unwrap n'.unwrap := by
  fun_induction Node.unwrap n generalizing n' with
  | case1 n c hc ih =>
    obtain ⟨c', hc', hcc⟩ := exists_of_rel (wrapped?_congr h) hc
    rw [unwrap_eq n', hc']
    exact ih hcc
  | case2 n hc =>
    rw [unwrap_eq n', eq_none_of_rel (wrapped?_congr h) hc]
    exact h

theorem bracketed?_congr (h : R n n') : Option.Rel R n.bracketed? n'.bracketed? := by
  unfold Node.bracketed?
  rw [← kind_congr h]
  split
  · rename_i hk
    exact rel_head? (namedChildren_congr h (by rcases hk with hk | hk <;> rw [hk] <;> rfl))
  · exact .none

theorem unbracket_congr (h : R n n') : R n.unbracket n'.unbracket := by
  fun_induction Node.unbracket n generalizing n' with
  | case1 n c hc ih =>
    obtain ⟨c', hc', hcc⟩ := exists_of_rel (bracketed?_congr h) hc
    rw [unbracket_eq n', hc']
    exact ih hcc
  | case2 n hc =>
    rw [unbracket_eq n', eq_none_of_rel (bracketed?_congr h) hc]
    exact h

theorem awaited?_congr (h : R n n') : Option.Rel R n.awaited? n'.awaited? := by
  fun_induction Node.awaited? n generalizing n' with
  | case1 n hk c hc ih =>
    have hk' : n'.unwrap.kind = .awaitExpression := kind_congr (unwrap_congr h) ▸ hk
    have hparts := rel_head? (namedChildren_congr (unwrap_congr h) (by rw [hk]; rfl))
    obtain ⟨c', hc', hcc⟩ := exists_of_rel hparts hc
    rw [awaited?_eq n', if_pos hk', hc']
    exact ih hcc
  | case2 n hk hc =>
    have hk' : n'.unwrap.kind = .awaitExpression := kind_congr (unwrap_congr h) ▸ hk
    have hparts := rel_head? (namedChildren_congr (unwrap_congr h) (by rw [hk]; rfl))
    rw [awaited?_eq n', if_pos hk', eq_none_of_rel hparts hc]
    exact .none
  | case3 n hk =>
    rw [awaited?_eq n', if_neg (kind_congr (unwrap_congr h) ▸ hk)]
    exact .some (unwrap_congr h)

/-! ## Literals -/

theorem joinFragments_congr {ns ns' : List Node} (h : List.Forall₂ R ns ns') :
    joinFragments ns = joinFragments ns' := by
  induction h with
  | nil => rfl
  | @cons n n' ns ns' hn _ ih =>
    unfold joinFragments
    rw [← kind_congr hn, ih]
    split
    · rfl
    · rename_i hk
      rw [name_congr hn hk rfl]
    · rename_i hk
      rw [Likeness.text_eq hn (by rw [hk]; rfl)]
    · rfl

theorem isLiteral_congr (h : R n n') : n.isLiteral = n'.isLiteral := by
  unfold isLiteral
  by_cases hw : n.kind = .token
  · rw [Likeness.text_eq h (by rw [hw]; rfl), kind_congr h]
  · rw [← kind_congr h, beq_eq_false_iff_ne.2 hw]
    rfl

theorem kind_of_isLiteral (h : n.isLiteral = true) :
    n.kind = .string ∨ n.kind = .templateString ∨ n.kind = .token := by
  simp only [isLiteral, Bool.or_eq_true, Bool.and_eq_true, beq_iff_eq] at h
  tauto

theorem stringValue_congr (h : R n n') : n.stringValue = n'.stringValue := by
  unfold stringValue
  rw [← isLiteral_congr h]
  split
  · rename_i hl
    refine joinFragments_congr (Likeness.children h ?_)
    rcases kind_of_isLiteral hl with hk | hk | hk <;> rw [hk] <;> rfl
  · rfl

/-! ## Names -/

theorem memberKey?_congr (h : R n n') : Option.Rel R n.memberKey? n'.memberKey? := by
  unfold Node.memberKey?
  rw [← kind_congr h]
  split
  all_goals first
    | exact .none
    | rename_i hk
      exact Likeness.child? h nofun (by rw [hk]; rfl)

theorem memberName?_congr (h : R n n') : n.memberName? = n'.memberName? := by
  unfold memberName?
  rw [← kind_congr h]
  split
  · rename_i hs
    rcases hs with hs | hs <;> rw [name_congr h hs rfl]
  · rcases hk : n.memberKey? with _ | key
    · rw [eq_none_of_rel (memberKey?_congr h) hk]
    · obtain ⟨key', hk', hkey⟩ := exists_of_rel (memberKey?_congr h) hk
      simp only [hk', ← kind_congr hkey]
      split
      · rename_i hw
        rw [name_congr hkey hw rfl]
      · rename_i hw
        rw [name_congr hkey hw rfl]
      · rename_i hw
        rw [name_congr hkey hw rfl]
      · exact stringValue_congr hkey
      · rfl

theorem propertyName?_congr (h : R n n') : n.propertyName? = n'.propertyName? := by
  unfold propertyName?
  rw [← kind_congr h]
  split
  · rename_i hk
    rcases hp : n.child? .property with _ | p
    · rw [child_eq_none h hp nofun (by rw [hk]; rfl)]
    · obtain ⟨p', hp', hpp⟩ := exists_child h hp nofun (by rw [hk]; rfl)
      simp only [hp', ← kind_congr hpp]
      split
      · rename_i hw
        rcases hw with hw | hw <;> rw [name_congr hpp hw rfl]
      · rfl
  · rename_i hk
    rcases hi : n.child? .index with _ | i
    · rw [child_eq_none h hi nofun (by rw [hk]; rfl)]
    · obtain ⟨i', hi', hii⟩ := exists_child h hi nofun (by rw [hk]; rfl)
      rw [hi']
      exact stringValue_congr hii
  · rfl

theorem calleeName?_congr (h : R n n') (hk : n.kind = .callExpression) :
    n.calleeName? = n'.calleeName? := by
  unfold calleeName?
  rcases hf : n.child? .function with _ | f
  · rw [child_eq_none h hf nofun (by rw [hk]; rfl)]
  · obtain ⟨f', hf', hff⟩ := exists_child h hf nofun (by rw [hk]; rfl)
    simp only [hf', ← kind_congr hff]
    split
    · rename_i hw
      rw [name_congr hff hw rfl]
    · rfl

/-! ## Declarators and patterns -/

theorem isMounted_congr {mounts : List Text} (h : R n n') :
    n.isMounted mounts = n'.isMounted mounts := by
  unfold isMounted
  rcases ha : n.awaited? with _ | a
  · rw [eq_none_of_rel (awaited?_congr h) ha]
  · obtain ⟨a', ha', haa⟩ := exists_of_rel (awaited?_congr h) ha
    rw [ha', Option.any_some, Option.any_some, ← kind_congr haa]
    by_cases hk : a.kind = .callExpression
    · rw [calleeName?_congr haa hk]
    · rw [beq_eq_false_iff_ne.2 hk, Bool.false_and, Bool.false_and]

theorem isMountWrapper_congr {mounts wrappers : List Text} (h : R n n') :
    n.isMountWrapper mounts wrappers = n'.isMountWrapper mounts wrappers := by
  unfold isMountWrapper
  rw [isMounted_congr h]
  rcases ha : n.awaited? with _ | a
  · rw [eq_none_of_rel (awaited?_congr h) ha]
  · obtain ⟨a', ha', haa⟩ := exists_of_rel (awaited?_congr h) ha
    rw [ha', Option.any_some, Option.any_some, ← kind_congr haa]
    by_cases hk : a.kind = .identifier
    · rw [name_congr haa hk rfl]
    · rw [beq_eq_false_iff_ne.2 hk, Bool.false_and, Bool.false_and]

/-- Whether a value is an instance depends on the value without its wrappers. -/
theorem isInstance_congr {words : List Text} (h : R n.unwrap n'.unwrap) :
    n.isInstance words = n'.isInstance words := by
  unfold isInstance
  simp only [← kind_congr h]
  split
  · rename_i hk
    rw [name_congr h hk rfl]
  · rw [propertyName?_congr h]
  · rfl

theorem instancePatternWords_congr {ms ms' : List Node} (h : List.Forall₂ R ms ms') :
    instancePatternWords ms = instancePatternWords ms' := by
  induction h with
  | nil => rfl
  | @cons m m' ms ms' hm _ ih =>
    unfold instancePatternWords
    rw [← kind_congr hm, ← memberName?_congr hm, ih]
    split
    · rename_i hk
      rw [name_congr hm hk rfl]
    · rename_i hk
      rcases hv : m.child? .value with _ | v
      · rw [child_eq_none hm hv nofun (by rw [hk]; rfl)]
      · obtain ⟨v', hv', hvv⟩ := exists_child hm hv nofun (by rw [hk]; rfl)
        rw [hv']
        by_cases hk : v.kind = .identifier
        · simp only [← kind_congr hvv, name_congr hvv hk rfl]
        · simp only [← kind_congr hvv, hk, if_false]
    · rfl

theorem patternName?_congr (h : R n n') : n.patternName? = n'.patternName? := by
  unfold patternName?
  rw [← memberName?_congr h, ← kind_congr h]
  refine bind_congr fun name => ?_
  cases name with
  | some name => rfl
  | none =>
    by_cases hk : n.kind = .objectAssignmentPattern
    · simp only [hk, if_true]
      rcases hl : n.child? .left with _ | l
      · rw [child_eq_none h hl nofun (by rw [hk]; rfl)]
      · obtain ⟨l', hl', hll⟩ := exists_child h hl nofun (by rw [hk]; rfl)
        simp only [hl', ← memberName?_congr hll]
    · simp only [hk, if_false]

theorem declaratorWords_congr {mounts : List Text} (h : R n n') (hk : n.kind = .variableDeclarator)
    (known : InstanceWords) : declaratorWords mounts known n = declaratorWords mounts known n' := by
  unfold declaratorWords
  rcases ht : n.child? .name with _ | target
  · rw [child_eq_none h ht nofun (by rw [hk]; rfl)]
  obtain ⟨target', ht', htt⟩ := exists_child h ht nofun (by rw [hk]; rfl)
  rcases hv : n.child? .value with _ | value
  · rw [ht', child_eq_none h hv nofun (by rw [hk]; rfl)]
  obtain ⟨value', hv', hvv⟩ := exists_child h hv nofun (by rw [hk]; rfl)
  simp only [ht', hv', ← kind_congr htt]
  split
  · rename_i hword
    rw [name_congr htt hword rfl, isInstance_congr (unwrap_congr hvv), isMounted_congr hvv]
  · rename_i hpattern
    rw [isMountWrapper_congr hvv,
      instancePatternWords_congr (namedChildren_congr htt (by rw [hpattern]; rfl))]
  · rfl

theorem destructuringSightings_congr {words : List Text} (h : R n n')
    (hk : n.kind = .variableDeclarator) :
    n.destructuringSightings words = n'.destructuringSightings words := by
  unfold destructuringSightings
  rcases ht : n.child? .name with _ | target
  · rw [child_eq_none h ht nofun (by rw [hk]; rfl)]
  obtain ⟨target', ht', htt⟩ := exists_child h ht nofun (by rw [hk]; rfl)
  rcases hv : n.child? .value with _ | value
  · rw [ht', child_eq_none h hv nofun (by rw [hk]; rfl)]
  obtain ⟨value', hv', hvv⟩ := exists_child h hv nofun (by rw [hk]; rfl)
  simp only [ht', hv', ← kind_congr htt, isInstance_congr (unwrap_congr hvv)]
  by_cases hp : target.kind = .objectPattern
  · have hparts := namedChildren_congr htt (by rw [hp]; rfl)
    rw [mapM_congr hparts fun _ _ hm => patternName?_congr hm]
  · rw [if_neg hp, if_neg hp]

end

section
variable {R : Node → Node → Prop} [MemberLikeness R] {n n' : Node}

theorem memberNames_congr (h : R n n') (hk : n.kind = .object) :
    n.memberNames = n'.memberNames := by
  unfold memberNames
  rw [mapM_congr (MemberLikeness.members h hk) fun _ _ hm => memberName?_congr hm]

/-! ## Elements -/

theorem embeddedObject?_congr {a b : Option Node} (h : Option.Rel R a b) :
    Option.Rel R (embeddedObject? a) (embeddedObject? b) := by
  unfold embeddedObject?
  cases h with
  | none => exact .none
  | @some v v' hv =>
    simp only [← kind_congr hv]
    split
    · rename_i hk
      have hinner := rel_head? (namedChildren_congr hv (by rw [hk]; rfl))
      exact rel_filter (rel_map hinner fun _ _ hc => unwrap_congr hc) fun _ _ hc => by
        rw [kind_congr hc]
    · exact .none

theorem kind_of_embeddedObject? {a : Option Node} {o : Node} (h : embeddedObject? a = some o) :
    o.kind = .object := by
  unfold embeddedObject? at h
  split at h
  · split at h
    · simpa using (Option.filter_eq_some_iff.1 h).2
    · cases h
  · cases h

/-- Attributes with the same name are read alike. -/
theorem attributeSightings_congr (h : R n n')
    (hhead : n.kind = .jsxAttribute → n.namedChildren.head? = n'.namedChildren.head?) :
    n.attributeSightings = n'.attributeSightings := by
  unfold attributeSightings
  rw [← kind_congr h]
  by_cases hk : n.kind = .jsxAttribute
  · have hhead := hhead hk
    have hparts := namedChildren_congr h (by rw [hk]; rfl)
    generalize n.namedChildren = as at hparts hhead
    generalize n'.namedChildren = bs at hparts hhead
    cases hparts with
    | nil => rfl
    | @cons key key' values values' _ hvalues =>
      obtain rfl : key = key' := by simpa using hhead
      have hobject := embeddedObject?_congr (rel_head? hvalues)
      rcases ho : embeddedObject? values.head? with _ | o
      · simp only [ho, eq_none_of_rel hobject ho]
      · obtain ⟨o', ho', hoo⟩ := exists_of_rel hobject ho
        simp only [ho, ho', memberNames_congr hoo (kind_of_embeddedObject? ho)]
  · rw [if_pos hk, if_pos hk]

theorem childSlots_congr (h : R n n') : n.childSlots = n'.childSlots := by
  unfold childSlots
  rw [← kind_congr h]
  split
  · rename_i hk
    rw [name_congr h hk rfl]
  · rfl
  · rfl
  · rename_i hk
    have hcs := namedChildren_congr h (by rw [hk]; rfl)
    generalize n.namedChildren = as at hcs
    generalize n'.namedChildren = bs at hcs
    cases hcs with
    | nil => rfl
    | @cons a b _ _ ha _ =>
      simp only [← kind_congr (unwrap_congr ha)]
      split
      · rename_i hobject
        exact memberNames_congr (unwrap_congr ha) hobject
      · rfl
  · rfl

end

/-! ## Calls -/

/-- Of related nodes the values that may be wrapped are related as well, without their wrappers. -/
class ValueLikeness (R : Node → Node → Prop) : Prop extends Likeness R where
  value {n n' : Node} : R n n' →
    Option.Rel R ((n.child? .value).map unwrap) ((n'.child? .value).map unwrap)
  arguments {n n' : Node} : R n n' → n.kind = .callExpression →
    List.Forall₂ (fun a a' => R a.unwrap a'.unwrap) n.callArguments n'.callArguments

section
variable {R : Node → Node → Prop} [ValueLikeness R] {n n' : Node}

theorem mountOptions?_congr (h : R n n') (hk : n.kind = .callExpression) :
    Option.Rel R n.mountOptions? n'.mountOptions? := by
  have hargs : List.Forall₂ R (n.callArguments.map unwrap) (n'.callArguments.map unwrap) :=
    List.forall₂_map_left_iff.2 (List.forall₂_map_right_iff.2 (ValueLikeness.arguments h hk))
  unfold Node.mountOptions?
  generalize n.callArguments.map unwrap = as at hargs
  generalize n'.callArguments.map unwrap = bs at hargs
  cases hargs with
  | nil => exact .none
  | @cons a b as bs hab hrest =>
    simp only [← kind_congr hab]
    split
    · exact .some hab
    · exact rel_filter (rel_head? hrest) fun _ _ hc => by rw [kind_congr hc]

theorem mountOption_congr [MemberLikeness R] (h : R n n') : n.mountOption = n'.mountOption := by
  unfold mountOption
  rw [← memberName?_congr h, ← kind_congr h]
  rcases hv : (n.child? .value).map unwrap with _ | v
  · rw [eq_none_of_rel (ValueLikeness.value h) hv]
  · obtain ⟨v', hv', hvv⟩ := exists_of_rel (ValueLikeness.value h) hv
    rw [hv']
    by_cases hk : v.kind = .object
    · have hnames := memberNames_congr hvv hk
      simp only [← kind_congr hvv, ← hnames, ← stringValue_congr hvv]
    · -- the value is no object, so none of its names are read
      simp only [← kind_congr hvv, hk, ← stringValue_congr hvv, and_false, if_false]

theorem kind_of_mountOptions? {o : Node} (h : n.mountOptions? = some o) : o.kind = .object := by
  unfold Node.mountOptions? at h
  split at h
  · cases h
  · split at h
    · cases h
      assumption
    · simpa using (Option.filter_eq_some_iff.1 h).2

theorem mountSightings_congr [MemberLikeness R] (h : R n n') (hk : n.kind = .callExpression) :
    n.mountSightings = n'.mountSightings := by
  unfold mountSightings
  rcases ho : n.mountOptions? with _ | o
  · rw [eq_none_of_rel (mountOptions?_congr h hk) ho]
  · obtain ⟨o', ho', hoo⟩ := exists_of_rel (mountOptions?_congr h hk) ho
    have hmembers := MemberLikeness.members hoo (kind_of_mountOptions? ho)
    simp only [ho']
    rw [mapM_congr hmembers fun _ _ hm => mountOption_congr hm]

theorem callsEmitted_congr (h : R n n') : n.callsEmitted = n'.callsEmitted := by
  unfold callsEmitted
  rw [← kind_congr h]
  split
  · rename_i hk
    rcases hf : n.child? .function with _ | f
    · rw [child_eq_none h hf nofun (by rw [hk]; rfl)]
    · obtain ⟨f', hf', hff⟩ := exists_child h hf nofun (by rw [hk]; rfl)
      simp only [hf', propertyName?_congr hff]
  · rfl

/-- Chains that start from related objects expect the same. -/
theorem expectsEmitted_congr {a b : Option Node}
    (h : Option.Rel R (a.bind chainStart?) (b.bind chainStart?)) :
    expectsEmitted a = expectsEmitted b := by
  unfold expectsEmitted
  rcases hs : a.bind chainStart? with _ | s
  · rw [eq_none_of_rel h hs]
  · obtain ⟨s', hs', hss⟩ := exists_of_rel h hs
    simp only [hs', ← kind_congr hss]
    by_cases hk : s.kind = .callExpression
    · simp only [hk, ← calleeName?_congr hss hk]
      have hargs := ValueLikeness.arguments hss hk
      generalize s.callArguments = as at hargs
      generalize s'.callArguments = bs at hargs
      cases hargs with
      | nil => rfl
      | cons ha _ => simp only [callsEmitted_congr ha]
    · simp only [hk, false_and, if_false]

/-- What a call of `toHaveProperty` on an object mentions. -/
def propertyExpectation (property : Node) (object : Option Node) : Except Failure Evidence := do
  match ← property.stringValue with
  | some event => return if ← expectsEmitted object then [⟨.events, event⟩] else []
  | none => return []

/-- What a call of `emitted` mentions. -/
def eventMention (event : Node) : Except Failure Evidence := do
  return sightings .events (← event.stringValue).toList

section
variable [MemberLikeness R] {S : Except Failure Evidence → Except Failure Evidence → Prop}
  (hS : ∀ e, S e e)
include hS

/-- Calls of related methods mention what the names of events in them do. -/
theorem methodSightings_rel {method method' : Node} (h : R n n') (hm : R method method')
    (hk : n.kind = .callExpression)
    (hemitted : method.propertyName? = .ok (some "emitted") → ∀ a ∈ n.callArguments.head?,
      ∀ a' ∈ n'.callArguments.head?, S a.eventMention a'.eventMention)
    (hproperty : method.propertyName? = .ok (some "toHaveProperty") →
      ∀ a ∈ n.callArguments.head?, ∀ a' ∈ n'.callArguments.head?,
      S (a.propertyExpectation (method.child? .object))
        (a'.propertyExpectation (method'.child? .object))) :
    S (n.methodSightings method) (n'.methodSightings method') := by
  unfold methodSightings
  rw [← propertyName?_congr hm]
  have hargs := ValueLikeness.arguments h hk
  generalize n.callArguments = as at hargs hemitted hproperty
  generalize n'.callArguments = bs at hargs hemitted hproperty
  rcases hp : method.propertyName? with f | name
  · exact hS (.error f)
  cases name with
  | none => exact hS (.ok [])
  | some name =>
    cases hargs with
    | nil => exact hS (.ok [])
    | @cons a b _ _ ha _ =>
      change S (ite _ _ _) (ite _ _ _)
      by_cases hset : name = "setProps"
      · rw [if_pos hset, if_pos hset, ← kind_congr ha]
        by_cases hk : a.unwrap.kind = .object
        · rw [memberNames_congr ha hk]
          exact hS _
        · rw [if_neg hk, if_neg hk]
          exact hS _
      rw [if_neg hset, if_neg hset]
      by_cases hname : name = "emitted"
      · rw [if_pos hname, if_pos hname]
        exact hemitted (hname ▸ hp) a rfl b rfl
      rw [if_neg hname, if_neg hname]
      by_cases hname' : name = "toHaveProperty"
      · rw [if_pos hname', if_pos hname']
        exact hproperty (hname' ▸ hp) a rfl b rfl
      · rw [if_neg hname', if_neg hname']
        exact hS _

theorem callSightings_rel {mounts : List Text} (h : R n n') (hk : n.kind = .callExpression)
    (hmethod : ∀ method method', n.child? .function = some method →
      n'.child? .function = some method' → R method method' → method.kind = .memberExpression →
      S (n.methodSightings method) (n'.methodSightings method')) :
    S (n.callSightings mounts) (n'.callSightings mounts) := by
  unfold callSightings
  rw [← calleeName?_congr h hk, ← mountSightings_congr h hk]
  split
  · exact hS _
  · rcases hf : n.child? .function with _ | f
    · rw [child_eq_none h hf nofun (by rw [hk]; rfl)]
      exact hS _
    · obtain ⟨f', hf', hff⟩ := exists_child h hf nofun (by rw [hk]; rfl)
      simp only [hf', ← kind_congr hff]
      by_cases hm : f.kind = .memberExpression
      · rw [if_pos hm, if_pos hm]
        exact hmethod f f' hf hf' hff hm
      · rw [if_neg hm, if_neg hm]
        exact hS _

end

theorem isEmittedCollection_congr (h : R n.unbracket n'.unbracket) :
    n.isEmittedCollection = n'.isEmittedCollection := by
  unfold isEmittedCollection
  simp only [← kind_congr h]
  by_cases hk : n.unbracket.kind = .callExpression
  · have hempty : n.unbracket.callArguments.isEmpty = n'.unbracket.callArguments.isEmpty := by
      rw [Bool.eq_iff_iff, List.isEmpty_iff_length_eq_zero, List.isEmpty_iff_length_eq_zero,
        (ValueLikeness.arguments h hk).length_eq]
    rcases hf : n.unbracket.child? .function with _ | f
    · rw [child_eq_none h hf nofun (by rw [hk]; rfl), hempty]
    · obtain ⟨f', hf', hff⟩ := exists_child h hf nofun (by rw [hk]; rfl)
      simp only [hk, hf', hempty, kind_congr hff, propertyName?_congr hff]
  · split
    · contradiction
    · split
      · contradiction
      · rfl

end

end Node
end SurfaceCoverage
