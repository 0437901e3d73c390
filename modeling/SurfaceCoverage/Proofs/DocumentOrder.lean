import Mathlib.Data.List.Forall2
import Mathlib.Logic.Function.Iterate
import SurfaceCoverage.Proofs.Offers
/-!
# The order of the document

A place in a tree is the list of the child numbers that lead there, so that nodes which look the same
are told apart. A place precedes those below it, and what is at or below a child precedes what is at
or below a later child. A traversal visits the node at each place once, in this order: the pre-order
of the trees on its stack, from the top down, is what it has still to visit. Hence a search for the
first hit of a traversal finds the node at the first place where there is one.
-/

namespace SurfaceCoverage

/-- The order of the document: a place comes before the places below it, and what is at or below a
child comes before what is at or below a later child. -/
inductive Precedes : List Nat → List Nat → Prop where
  | above (place : List Nat) (i : Nat) (below : List Nat) : Precedes place (place ++ i :: below)
  | beside (place : List Nat) {i j : Nat} (h : i < j) (below below' : List Nat) :
      Precedes (place ++ i :: below) (place ++ j :: below')

theorem Precedes.cons {p q : List Nat} (i : Nat) (h : Precedes p q) : Precedes (i :: p) (i :: q) := by
  cases h with
  | above _ j below => exact .above (i :: p) j below
  | beside place h below below' => exact .beside (i :: place) h below below'

/-- The order of the document is the lexicographic one. -/
theorem precedes_iff_lt {p q : List Nat} : Precedes p q ↔ p < q := by
  constructor
  · intro h
    cases h with
    | above _ i below =>
      calc p = p ++ [] := (List.append_nil p).symm
        _ < p ++ i :: below := List.append_left_lt (List.nil_lt_cons i below)
    | beside place h below below' =>
      exact List.append_left_lt (List.cons_lt_cons_iff.2 (.inl h))
  · intro h
    induction p generalizing q with
    | nil =>
      cases q with
      | nil => exact absurd h (List.lt_irrefl _)
      | cons j q => exact .above [] j q
    | cons i p ih =>
      cases q with
      | nil => exact absurd h (List.not_lt_nil _)
      | cons j q =>
        rcases List.cons_lt_cons_iff.1 h with hij | ⟨rfl, hpq⟩
        · exact .beside [] hij p q
        · exact (ih hpq).cons i

/-! ## Lists in the order of places -/

/-- A list has the elements that a relation gives to places, in the order of the places. -/
def InOrder {β : Type} (bs : List β) (R : List Nat → β → Prop) : Prop :=
  ∃ placed : List (List Nat × β), placed.map (·.2) = bs ∧ placed.Pairwise (·.1 < ·.1) ∧
    ∀ p b, (p, b) ∈ placed ↔ R p b

section
variable {α β γ : Type} {R S : List Nat → β → Prop} {bs : List β}

theorem InOrder.congr (h : InOrder bs R) (hRS : ∀ p b, R p b ↔ S p b) : InOrder bs S := by
  obtain ⟨placed, hmap, hsorted, hmem⟩ := h
  exact ⟨placed, hmap, hsorted, fun p b => (hmem p b).trans (hRS p b)⟩

theorem inOrder_nil (h : ∀ p b, ¬ R p b) : InOrder [] R :=
  ⟨[], rfl, .nil, fun p b => iff_of_false List.not_mem_nil (h p b)⟩

theorem inOrder_singleton (b : β) : InOrder [b] fun p x => p = [] ∧ x = b :=
  ⟨[([], b)], rfl, List.pairwise_singleton _ _, fun p x => by simp⟩

/-- One list in order behind another. -/
theorem InOrder.append {cs : List β} (hb : InOrder bs R) (hc : InOrder cs S)
    (hbefore : ∀ p b q c, R p b → S q c → p < q) : InOrder (bs ++ cs) fun p b => R p b ∨ S p b := by
  obtain ⟨placed, rfl, hsorted, hmem⟩ := hb
  obtain ⟨placed', rfl, hsorted', hmem'⟩ := hc
  refine ⟨placed ++ placed', List.map_append, List.pairwise_append.2 ⟨hsorted, hsorted', ?_⟩, ?_⟩
  · rintro ⟨p, b⟩ hp ⟨q, c⟩ hq
    exact hbefore p b q c ((hmem p b).1 hp) ((hmem' q c).1 hq)
  · intro p b
    rw [List.mem_append, hmem, hmem']

/-- A list in order, all of it at one place of a larger whole. -/
theorem InOrder.below (h : InOrder bs R) (k : Nat) :
    InOrder bs fun p b => ∃ q, p = k :: q ∧ R q b := by
  obtain ⟨placed, rfl, hsorted, hmem⟩ := h
  refine ⟨placed.map fun x => (k :: x.1, x.2), by simp, ?_, ?_⟩
  · rw [List.pairwise_map]
    exact hsorted.imp fun {x y} hxy => List.cons_lt_cons_iff.2 (.inr ⟨rfl, hxy⟩)
  · intro p b
    constructor
    · intro hp
      obtain ⟨⟨q, c⟩, hq, heq⟩ := List.mem_map.1 hp
      cases heq
      exact ⟨q, rfl, (hmem q c).1 hq⟩
    · rintro ⟨q, rfl, hq⟩
      exact List.mem_map.2 ⟨(q, b), (hmem q b).2 hq, rfl⟩

/-- What is in order for each element of a list is in order for the whole list, element by element. -/
theorem InOrder.flatten {R : α → List Nat → β → Prop} {as : List α} {results : List (List β)}
    (k : Nat) (h : List.Forall₂ (fun a bs => InOrder bs (R a)) as results) :
    InOrder results.flatten fun p b => ∃ i q a, p = (k + i) :: q ∧ as[i]? = some a ∧ R a q b := by
  induction h generalizing k with
  | nil =>
    refine inOrder_nil ?_
    rintro p b ⟨i, q, a, -, ha, -⟩
    cases ha
  | @cons a bs as results hfirst _ ih =>
    refine ((hfirst.below k).append (ih (k + 1)) ?_).congr fun p b => ⟨?_, ?_⟩
    · rintro _ _ _ _ ⟨q, rfl, -⟩ ⟨i, q', a', rfl, -, -⟩
      exact List.cons_lt_cons_iff.2 (.inl (by omega))
    · rintro (⟨q, rfl, hq⟩ | ⟨i, q, a', rfl, ha, hq⟩)
      · exact ⟨0, q, a, rfl, rfl, hq⟩
      · exact ⟨i + 1, q, a', by rw [Nat.add_right_comm, Nat.add_assoc], ha, hq⟩
    · rintro ⟨_ | i, q, a', rfl, ha, hq⟩
      · cases ha
        exact .inl ⟨q, rfl, hq⟩
      · exact .inr ⟨i, q, a', by rw [Nat.add_right_comm, Nat.add_assoc], ha, hq⟩

theorem InOrder.filter (h : InOrder bs R) (P : β → Bool) :
    InOrder (bs.filter P) fun p b => R p b ∧ P b = true := by
  obtain ⟨placed, rfl, hsorted, hmem⟩ := h
  refine ⟨placed.filter fun x => P x.2, ?_, hsorted.filter _, fun p b => ?_⟩
  · rw [List.filter_map]
    rfl
  · rw [List.mem_filter, hmem]

theorem InOrder.mem_iff (h : InOrder bs R) {b : β} : b ∈ bs ↔ ∃ p, R p b := by
  obtain ⟨placed, rfl, -, hmem⟩ := h
  simp only [List.mem_map, Prod.exists, exists_eq_right, hmem]

/-- A search for the first hit finds the one at the first place where there is one. -/
theorem InOrder.findSome?_eq_some_iff {f : β → Option γ} {c : γ} (h : InOrder bs R) :
    bs.findSome? f = some c ↔ ∃ p b, R p b ∧ f b = some c ∧
      ∀ q b', R q b' → (f b').isSome = true → q = p ∨ p < q := by
  obtain ⟨placed, rfl, hsorted, hmem⟩ := h
  rw [List.findSome?_map, List.findSome?_eq_some_iff]
  constructor
  · rintro ⟨earlier, ⟨p, b⟩, later, rfl, hb, hearlier⟩
    refine ⟨p, b, (hmem p b).1 (by simp), hb, fun q b' hq hf => ?_⟩
    rw [List.pairwise_append, List.pairwise_cons] at hsorted
    rcases List.mem_append.1 ((hmem q b').2 hq) with hq | hq
    · rw [show f b' = none from hearlier _ hq] at hf
      cases hf
    · rcases List.mem_cons.1 hq with hq | hq
      · cases hq
        exact .inl rfl
      · exact .inr (hsorted.2.1.1 _ hq)
  · rintro ⟨p, b, hp, hb, hfirst⟩
    obtain ⟨earlier, later, rfl⟩ := List.append_of_mem ((hmem p b).2 hp)
    refine ⟨earlier, (p, b), later, rfl, hb, fun ⟨q, b'⟩ hq => ?_⟩
    -- a hit in front of the first one would be at an earlier place
    have hlt : q < p := (List.pairwise_append.1 hsorted).2.2 _ hq _ List.mem_cons_self
    refine Option.not_isSome_iff_eq_none.1 fun hf => ?_
    rcases hfirst q b' ((hmem q b').1 (List.mem_append_left _ hq)) hf with rfl | hgt
    · exact List.lt_irrefl _ hlt
    · exact List.lt_asymm hlt hgt

end

namespace Node

/-! ## Places of a tree -/

/-- The node at a place of a tree. -/
def nodeAt? (root : Node) : List Nat → Option Node
  | [] => some root
  | i :: place => root.children[i]?.bind fun c => c.nodeAt? place

/-- A list has a node for each place where a condition holds, in the order of the document. -/
def InDocumentOrder (root : Node) (P : Node → Prop) (ns : List Node) : Prop :=
  ∃ places : List (List Nat), places.map root.nodeAt? = ns.map some ∧ places.Nodup ∧
    (∀ p, p ∈ places ↔ ∃ n, root.nodeAt? p = some n ∧ P n) ∧ places.Pairwise Precedes

/-- The first place where a condition holds, with its node: the others come behind it. -/
def IsFirst (root : Node) (P : Node → Prop) (p : List Nat) (n : Node) : Prop :=
  root.nodeAt? p = some n ∧ P n ∧ ∀ q m, root.nodeAt? q = some m → P m → q = p ∨ Precedes p q

theorem inDocumentOrder_of_inOrder {root : Node} {P : Node → Prop} {ns : List Node}
    (h : InOrder ns fun p n => root.nodeAt? p = some n ∧ P n) :
    root.InDocumentOrder P ns := by
  obtain ⟨placed, rfl, hsorted, hmem⟩ := h
  refine ⟨placed.map (·.1), ?_, ?_, fun p => ?_, ?_⟩
  · rw [List.map_map, List.map_map]
    exact List.map_congr_left fun x hx => ((hmem x.1 x.2).1 hx).1
  · rw [List.Nodup, List.pairwise_map]
    exact hsorted.imp fun {x y} hlt (heq : x.1 = y.1) => List.lt_irrefl y.1 (heq ▸ hlt)
  · simp only [List.mem_map, Prod.exists, exists_and_right, exists_eq_right, hmem]
  · rw [List.pairwise_map]
    exact hsorted.imp precedes_iff_lt.2

/-! ## The traversal -/

/-- A turn of a traversal takes the node on the top of the stack, its end, and puts the node's
children there, the first child on the top. -/
def turn (stack : List Node) : List Node :=
  match stack.getLast? with
  | none => []
  | some n => stack.dropLast ++ n.children.reverse

/-- A turn takes the first node of the pre-order of what is pending, and leaves the others pending. -/
theorem preorderAll_concat (stack : List Node) (n : Node) :
    preorderAll (stack ++ [n]).reverse = n :: preorderAll (turn (stack ++ [n])).reverse := by
  have hturn : (turn (stack ++ [n])).reverse = n.children ++ stack.reverse := by
    simp [turn]
  rw [hturn, preorderAll_append, List.reverse_concat, preorderAll, preorder_eq, List.cons_append]

/-- After some turns the top of the stack is the node with their number in the pre-order. -/
theorem getLast?_turns (k : Nat) (stack : List Node) :
    (turn^[k] stack).getLast? = (preorderAll stack.reverse)[k]? := by
  -- for any stack, since behind the first turn the pending trees are several
  induction k generalizing stack with
  | zero =>
    rcases List.eq_nil_or_concat' stack with rfl | ⟨rest, n, rfl⟩
    · rfl
    · rw [Function.iterate_zero_apply, preorderAll_concat, List.getLast?_concat]
      rfl
  | succ k ih =>
    rw [Function.iterate_succ_apply, ih]
    rcases List.eq_nil_or_concat' stack with rfl | ⟨rest, n, rfl⟩
    · rfl
    · rw [preorderAll_concat, List.getElem?_cons_succ]

theorem preorderAll_eq_flatten (ns : List Node) : preorderAll ns = (ns.map preorder).flatten := by
  induction ns with
  | nil => rfl
  | cons n ns ih => rw [preorderAll, ih, List.map_cons, List.flatten_cons]

/-- The pre-order has the node at each place, in the order of the places. -/
theorem inOrder_preorder (n : Node) : InOrder n.preorder fun p m => n.nodeAt? p = some m := by
  -- by recursion on the tree, which ends since children are smaller
  have hchildren : List.Forall₂ (fun c bs => InOrder bs fun p m => c.nodeAt? p = some m) n.children
      (n.children.map preorder) :=
    List.forall₂_map_right_iff.2 (List.forall₂_same.2 fun c hc => inOrder_preorder c)
  rw [preorder_eq, preorderAll_eq_flatten]
  refine ((inOrder_singleton n).append (.flatten 0 hchildren) ?_).congr fun p m => ?_
  · rintro _ _ _ _ ⟨rfl, rfl⟩ ⟨i, q, c, rfl, -, -⟩
    exact List.nil_lt_cons _ _
  · cases p with
    | nil => simp [nodeAt?, eq_comm]
    | cons i p => simp [nodeAt?, Option.bind_eq_some_iff]
termination_by n.size
decreasing_by exact size_lt_of_mem_children hc

theorem inOrder_descendants (n : Node) : InOrder n.descendants fun p m => n.nodeAt? p = some m :=
  preorder_eq_descendants n ▸ inOrder_preorder n

theorem inOrder_findAll (n : Node) (k : Kind) :
    InOrder (n.findAll k) fun p m => n.nodeAt? p = some m ∧ m.kind = k :=
  (n.inOrder_descendants.filter _).congr fun p m => by rw [beq_iff_eq]

/-! ## Local declarations -/

/-- A declarator of a variable gives a name its initial value. -/
def Initializes (d : Node) (name : Text) (value : Node) : Prop :=
  d.kind = .variableDeclarator ∧
    (∃ word, d.child? .name = some word ∧ word.kind = .identifier ∧ word.name = name) ∧
    d.child? .value = some value

/-- An interface or a type alias has a name. -/
def DeclaresType (n : Node) (name : Text) : Prop :=
  (n.kind = .interfaceDeclaration ∨ n.kind = .typeAliasDeclaration) ∧
    ∃ word, n.child? .name = some word ∧ word.name = name

theorem initializes_iff {d value : Node} {name : Text} :
    d.Initializes name value ↔ d.kind = .variableDeclarator ∧ initialValue? name d = some value := by
  rw [Initializes, initialValue?_eq_some]
  exact and_congr_right fun _ => ⟨fun ⟨⟨word, hw, hk, hn⟩, hv⟩ => ⟨word, hw, hk, hn, hv⟩,
    fun ⟨word, hw, hk, hn, hv⟩ => ⟨⟨word, hw, hk, hn⟩, hv⟩⟩

theorem declaresType_iff {n : Node} {name : Text} :
    n.declaresType name = true ↔ n.DeclaresType name := by
  simp [declaresType, DeclaresType, isTypeDeclaration, Option.any_eq_true]

theorem localInitializer?_eq_some_iff {root value : Node} {name : Text} :
    root.localInitializer? name = some value ↔
      ∃ p d, root.IsFirst (fun d => ∃ v, d.Initializes name v) p d ∧ d.Initializes name value := by
  rw [localInitializer?, (root.inOrder_findAll _).findSome?_eq_some_iff]
  simp only [IsFirst, precedes_iff_lt, initializes_iff, Option.isSome_iff_exists]
  constructor
  · rintro ⟨p, d, ⟨hp, hk⟩, hv, hfirst⟩
    refine ⟨p, d, ⟨hp, ⟨value, hk, hv⟩, fun q m hq hm => ?_⟩, hk, hv⟩
    obtain ⟨v, hm, hv⟩ := hm
    exact hfirst q m ⟨hq, hm⟩ ⟨v, hv⟩
  · rintro ⟨p, d, ⟨hp, -, hfirst⟩, hk, hv⟩
    exact ⟨p, d, ⟨hp, hk⟩, hv, fun q m ⟨hq, hm⟩ ⟨v, hv⟩ => hfirst q m hq ⟨v, hm, hv⟩⟩

theorem localInitializer?_eq_none_iff {root : Node} {name : Text} :
    root.localInitializer? name = none ↔
      ∀ p d v, root.nodeAt? p = some d → ¬ d.Initializes name v := by
  rw [localInitializer?, List.findSome?_eq_none_iff]
  simp only [(root.inOrder_findAll _).mem_iff, initializes_iff, Option.eq_none_iff_forall_ne_some]
  constructor
  · rintro h p d v hp ⟨hk, hv⟩
    exact h d ⟨p, hp, hk⟩ v hv
  · rintro h d ⟨p, hp, hk⟩ v hv
    exact h p d v hp ⟨hk, hv⟩

theorem localType?_eq_some_iff {root n : Node} {name : Text} :
    root.localType? name = some n ↔ ∃ p, root.IsFirst (·.DeclaresType name) p n := by
  rw [localType?, List.find?_eq_findSome?_guard, root.inOrder_descendants.findSome?_eq_some_iff]
  simp only [IsFirst, precedes_iff_lt, Option.guard_eq_some_iff, Option.isSome_guard, declaresType_iff]
  constructor
  · rintro ⟨p, _, hp, ⟨rfl, hn⟩, hfirst⟩
    exact ⟨p, hp, hn, hfirst⟩
  · rintro ⟨p, hp, hn, hfirst⟩
    exact ⟨p, n, hp, ⟨rfl, hn⟩, hfirst⟩

theorem localType?_eq_none_iff {root : Node} {name : Text} :
    root.localType? name = none ↔ ∀ p n, root.nodeAt? p = some n → ¬ n.DeclaresType name := by
  rw [localType?, List.find?_eq_none]
  simp only [root.inOrder_descendants.mem_iff, declaresType_iff]
  exact ⟨fun h p n hp => h n ⟨p, hp⟩, fun h n ⟨p, hp⟩ => h p n hp⟩

/-- A traversal of a tree takes the nodes of its pre-order from the stack, one in each turn: the node
at each place once, a node before those below it, and what is below a child before what is below a
later one. The nodes of one kind come in that order too, and the initial value and the type that a
name stands for in a script are those of the first node that gives it one. -/
theorem visited_in_document_order (root : Node) :
    root.descendants = root.preorder ∧
    (∀ k, (turn^[k] [root]).getLast? = root.descendants[k]?) ∧
    root.InDocumentOrder (fun _ => True) root.descendants ∧
    (∀ k, root.InDocumentOrder (·.kind = k) (root.findAll k)) ∧
    (∀ name value, root.localInitializer? name = some value ↔
      ∃ p d, root.IsFirst (fun d => ∃ v, d.Initializes name v) p d ∧ d.Initializes name value) ∧
    (∀ name, root.localInitializer? name = none ↔
      ∀ p d v, root.nodeAt? p = some d → ¬ d.Initializes name v) ∧
    (∀ name n, root.localType? name = some n ↔ ∃ p, root.IsFirst (·.DeclaresType name) p n) ∧
    (∀ name, root.localType? name = none ↔
      ∀ p n, root.nodeAt? p = some n → ¬ n.DeclaresType name) := by
  refine ⟨(preorder_eq_descendants root).symm, fun k => ?_, ?_,
    fun k => inDocumentOrder_of_inOrder (root.inOrder_findAll k),
    fun _ _ => localInitializer?_eq_some_iff, fun _ => localInitializer?_eq_none_iff,
    fun _ _ => localType?_eq_some_iff, fun _ => localType?_eq_none_iff⟩
  · rw [getLast?_turns, descendants, visit_eq, List.reverse_singleton]
  · refine inDocumentOrder_of_inOrder (root.inOrder_descendants.congr fun p n => ?_)
    rw [and_true]

end Node
end SurfaceCoverage
