import SurfaceCoverage.Lookup.Scope
import SurfaceCoverage.Proofs.Likeness
/-!
# Scripts with statements put in

Statements may be put in at once at many places of a script: at its top, in blocks and in the cases
of switches, however deep. `Grafts P` relates a node to what it becomes when all that is put in has
a property `P`. Nothing else about a node changes, so whatever is read from it without looking into
lists of statements stays as it was. The nodes of the larger script are those of the smaller one, in
their order, with the nodes of the new statements among them.
-/

namespace SurfaceCoverage

/-! ## Lists with further elements -/

/-- A list with further elements put in anywhere, all with a property; its own elements may have
changed as well. -/
inductive Sprinkled {α : Type} (R : α → α → Prop) (Q : α → Prop) : List α → List α → Prop
  | nil : Sprinkled R Q [] []
  | kept {a b : α} {as bs : List α} (part : R a b) (rest : Sprinkled R Q as bs) :
      Sprinkled R Q (a :: as) (b :: bs)
  | added {b : α} {as bs : List α} (extra : Q b) (rest : Sprinkled R Q as bs) :
      Sprinkled R Q as (b :: bs)

namespace Sprinkled

variable {α β : Type} {R R' : α → α → Prop} {Q Q' : α → Prop} {as bs cs ds : List α}

theorem refl [Std.Refl R] (as : List α) : Sprinkled R Q as as := by
  induction as with
  | nil => exact .nil
  | cons a as ih => exact .kept (Std.Refl.refl a) ih

theorem of_forall₂ (h : List.Forall₂ R as bs) : Sprinkled R Q as bs := by
  induction h with
  | nil => exact .nil
  | cons hab _ ih => exact .kept hab ih

theorem of_forall (h : ∀ b ∈ bs, Q b) : Sprinkled R Q [] bs := by
  induction bs with
  | nil => exact .nil
  | cons b bs ih =>
    exact .added (h b List.mem_cons_self) (ih fun b hb => h b (List.mem_cons_of_mem _ hb))

theorem imp (h : Sprinkled R Q as bs) (hR : ∀ a b, R a b → R' a b) (hQ : ∀ b, Q b → Q' b) :
    Sprinkled R' Q' as bs := by
  induction h with
  | nil => exact .nil
  | kept hab _ ih => exact .kept (hR _ _ hab) ih
  | added hb _ ih => exact .added (hQ _ hb) ih

theorem append (h : Sprinkled R Q as bs) (h' : Sprinkled R Q cs ds) :
    Sprinkled R Q (as ++ cs) (bs ++ ds) := by
  induction h with
  | nil => exact h'
  | kept hab _ ih => exact .kept hab ih
  | added hb _ ih => exact .added hb ih

/-- Where nothing may be put in, the lists correspond one by one. -/
theorem forall₂ (h : Sprinkled R Q as bs) (hQ : ∀ b, ¬ Q b) : List.Forall₂ R as bs := by
  induction h with
  | nil => exact .nil
  | kept hab _ ih => exact .cons hab ih
  | added hb => exact absurd hb (hQ _)

section
variable {p : α → Bool} (hp : ∀ a b, R a b → p a = p b)
include hp

theorem filter (h : Sprinkled R Q as bs) :
    Sprinkled (fun a b => R a b ∧ p a = true) (fun b => Q b ∧ p b = true)
      (as.filter p) (bs.filter p) := by
  induction h with
  | nil => exact .nil
  | @kept a b as bs hab _ ih =>
    rw [List.filter_cons, List.filter_cons, ← hp a b hab]
    split
    · exact .kept ⟨hab, ‹_›⟩ ih
    · exact ih
  | @added b as bs hb _ ih =>
    rw [List.filter_cons]
    split
    · exact .added ⟨hb, ‹_›⟩ ih
    · exact ih

/-- What is put in does not count where it is passed over. -/
theorem forall₂_filter (h : Sprinkled R Q as bs) (hQ : ∀ b, Q b → p b = false) :
    List.Forall₂ R (as.filter p) (bs.filter p) := by
  induction h with
  | nil => exact .nil
  | @kept a b as bs hab _ ih =>
    rw [List.filter_cons, List.filter_cons, hp a b hab]
    split
    · exact .cons hab ih
    · exact ih
  | @added b as bs hb _ ih =>
    rw [List.filter_cons, hQ b hb]
    exact ih

theorem rel_find? (h : Sprinkled R Q as bs) (hQ : ∀ b, Q b → p b = false) :
    Option.Rel R (as.find? p) (bs.find? p) := by
  rw [← List.head?_filter, ← List.head?_filter]
  exact rel_head? (h.forall₂_filter hp hQ)

end

theorem rel_findSome? {S : β → β → Prop} {f : α → Option β} (h : Sprinkled R Q as bs)
    (hf : ∀ a b, R a b → Option.Rel S (f a) (f b)) (hQ : ∀ b, Q b → f b = none) :
    Option.Rel S (as.findSome? f) (bs.findSome? f) := by
  induction h with
  | nil => exact .none
  | @kept a b as bs hab _ ih =>
    rw [List.findSome?_cons, List.findSome?_cons]
    rcases ha : f a with _ | x
    · rw [eq_none_of_rel (hf a b hab) ha]
      exact ih
    · obtain ⟨y, hb, hxy⟩ := exists_of_rel (hf a b hab) ha
      rw [hb]
      exact .some hxy
  | @added b as bs hb _ ih =>
    rw [List.findSome?_cons, hQ b hb]
    exact ih

theorem forall₂_flatMap {S : β → β → Prop} {f : α → List β} (h : Sprinkled R Q as bs)
    (hf : ∀ a b, R a b → List.Forall₂ S (f a) (f b)) (hQ : ∀ b, Q b → f b = []) :
    List.Forall₂ S (as.flatMap f) (bs.flatMap f) := by
  induction h with
  | nil => exact .nil
  | @kept a b as bs hab _ ih =>
    rw [List.flatMap_cons, List.flatMap_cons]
    exact List.rel_append (hf a b hab) ih
  | @added b as bs hb _ ih =>
    rw [List.flatMap_cons, hQ b hb]
    exact ih

end Sprinkled

/-! ## Places for statements -/

/-- Kinds of nodes that hold no statements, however deep: words, imports, and the specifiers of
exports. -/
def Kind.isSolid (k : Kind) : Bool :=
  k.isWord || [Kind.typeIdentifier, .importStatement, .exportSpecifier].contains k

/-- Kinds of nodes that list statements: the top of a script, blocks and the cases of a switch. -/
def Kind.listsStatements (k : Kind) : Bool :=
  [Kind.program, .statementBlock, .switchCase, .switchDefault].contains k

namespace Node

/-- Lists of statements. A block is a statement or the body of one. -/
def isStatementList (n : Node) : Bool :=
  n.kind.listsStatements && (n.role == .none || n.role == .body)

/-- Whether a node plays a part in its parent: by its role, or as an annotation. -/
def isPart (n : Node) : Bool := n.role != .none || n.kind == .typeAscription

/-- A node after statements, or what stands between them, were put into lists of statements below
it, at any number of places. The name of a type stays as it is. -/
inductive Grafts (P : Node → Prop) : Node → Node → Prop
  | same (n : Node) : Grafts P n n
  | within {r : Role} {k : Kind} {cs cs' : List Node} (phrase : k.isSolid = false)
      (named : (branch r k cs).isTypeDeclaration = true →
        (branch r k cs').child? .name = (branch r k cs).child? .name)
      (parts : List.Forall₂ (Grafts P) cs cs') : Grafts P (branch r k cs) (branch r k cs')
  | among {r : Role} {k : Kind} {cs cs' : List Node}
      (list : (branch r k cs).isStatementList = true)
      (parts : Sprinkled (Grafts P) (fun s => s.isPart = false ∧ P s) cs cs') :
      Grafts P (branch r k cs) (branch r k cs')

instance {P : Node → Prop} : Std.Refl (Grafts P) := ⟨.same⟩

variable {P : Node → Prop} {n n' : Node}

theorem kind_of_isStatementList (h : n.isStatementList = true) : n.kind = .program ∨
    n.kind = .statementBlock ∨ n.kind = .switchCase ∨ n.kind = .switchDefault := by
  simpa [isStatementList, Kind.listsStatements] using (Bool.and_eq_true_iff.1 h).1

theorem isStatementList_eq_false (h : n.kind.listsStatements = false) :
    n.isStatementList = false := by
  rw [isStatementList, h, Bool.false_and]

theorem isStatementList_of_child? {c : Node} {r : Role} (h : n.child? r = some c) (hr : r ≠ .none)
    (hb : r ≠ .body) : c.isStatementList = false := by
  have hrole : c.role = r := by simpa using List.find?_some h
  simp [isStatementList, hrole, hr, hb]

namespace Grafts

theorem role_eq (h : n.Grafts P n') : n.role = n'.role := by cases h <;> rfl

theorem kind_eq (h : n.Grafts P n') : n.kind = n'.kind := by cases h <;> rfl

theorem eq_of_isSolid (h : n.Grafts P n') (hk : n.kind.isSolid = true) : n = n' := by
  cases h with
  | same => rfl
  | within phrase => rw [kind, phrase] at hk; cases hk
  | among list =>
    rcases kind_of_isStatementList list with h | h | h | h <;> rw [h] at hk <;> cases hk

/-! ## Its parts -/

/-- The children of a node, with statements put in if it is a list of them. -/
theorem children (h : n.Grafts P n') : Sprinkled (Grafts P)
    (fun s => n.isStatementList = true ∧ s.isPart = false ∧ P s) n.children n'.children := by
  cases h with
  | same => exact .refl _
  | within _ _ parts => exact .of_forall₂ parts
  | among list parts => exact parts.imp (fun _ _ hc => hc) fun s hs => ⟨list, hs⟩

theorem namedChildren (h : n.Grafts P n') : Sprinkled (Grafts P)
    (fun s => n.isStatementList = true ∧ s.isPart = false ∧ P s) n.namedChildren n'.namedChildren :=
  (h.children.filter fun c c' hc => by rw [isNamed, isNamed, hc.kind_eq]).imp
    (fun _ _ hc => hc.1) fun _ hs => hs.1

theorem forall₂_children (h : n.Grafts P n') (hn : n.isStatementList = false) :
    List.Forall₂ (Grafts P) n.children n'.children :=
  h.children.forall₂ fun s hs => by rw [hn] at hs; cases hs.1

theorem forall₂_namedChildren (h : n.Grafts P n') (hn : n.isStatementList = false) :
    List.Forall₂ (Grafts P) n.namedChildren n'.namedChildren :=
  h.namedChildren.forall₂ fun s hs => by rw [hn] at hs; cases hs.1

/-- Statements play no part, so the parts of a node are those it had. -/
theorem child? (h : n.Grafts P n') {r : Role} (hr : r ≠ .none) :
    Option.Rel (Grafts P) (n.child? r) (n'.child? r) := by
  refine h.children.rel_find? (fun c c' hc => by rw [hc.role_eq]) fun s hs => ?_
  have hrole : s.role = .none := by
    have hpart := hs.2.1
    simp only [isPart, Bool.or_eq_false_iff, bne_eq_false_iff_eq] at hpart
    exact hpart.1
  rw [hrole]
  exact beq_eq_false_iff_ne.2 hr.symm

theorem exists_child (h : n.Grafts P n') {r : Role} {c : Node} (hc : n.child? r = some c)
    (hr : r ≠ .none) : ∃ c', n'.child? r = some c' ∧ c.Grafts P c' :=
  exists_of_rel (h.child? hr) hc

theorem child_eq_none (h : n.Grafts P n') {r : Role} (hc : n.child? r = none) (hr : r ≠ .none) :
    n'.child? r = none :=
  eq_none_of_rel (h.child? hr) hc

theorem typeName_eq (h : n.Grafts P n') (hn : n.isTypeDeclaration = true) :
    n'.child? .name = n.child? .name := by
  cases h with
  | same => rfl
  | within _ named => exact named hn
  | among list =>
    have hk := kind_of_isStatementList list
    simp only [isTypeDeclaration, Bool.or_eq_true, beq_iff_eq] at hn
    rcases hn with hn | hn <;> rw [hn] at hk <;> simp at hk

end Grafts

instance : Likeness (Grafts P) where
  kind_eq := Grafts.kind_eq
  text_eq h hw := by rw [h.eq_of_isSolid (by rw [Kind.isSolid, hw]; rfl)]
  children {n n'} h hk := by
    refine h.forall₂_children (Bool.eq_false_iff.2 fun hl => ?_)
    rcases kind_of_isStatementList hl with he | he | he | he <;> rw [he] at hk <;> cases hk
  child? h hr _ := h.child? hr

instance : MemberLikeness (Grafts P) where
  members h hk := h.forall₂_namedChildren (isStatementList_eq_false (by rw [hk]; rfl))

/-! ## The nodes below -/

/-- The nodes of trees with a property. -/
def Within (P : Node → Prop) (d : Node) : Prop := ∃ s, P s ∧ d ∈ s.descendants

mutual

/-- The nodes of the smaller tree stand in their order among those of the larger one, and the others
are nodes of what was put in. -/
theorem Grafts.descendants {P : Node → Prop} {n n' : Node} : n.Grafts P n' →
    Sprinkled (Grafts P) (Within P) n.descendants n'.descendants
  | .same _ => .refl _
  | .within phrase named parts => by
    rw [descendants_eq, descendants_eq]
    exact .kept (.within phrase named parts) (Grafts.preorderAll_of_forall₂ parts)
  | .among list parts => by
    rw [descendants_eq, descendants_eq]
    exact .kept (.among list parts) (Grafts.preorderAll_of_sprinkled parts)

theorem Grafts.preorderAll_of_forall₂ {P : Node → Prop} {cs cs' : List Node} :
    List.Forall₂ (Grafts P) cs cs' →
    Sprinkled (Grafts P) (Within P) (preorderAll cs) (preorderAll cs')
  | .nil => .nil
  | .cons part rest => by
    rw [preorderAll, preorderAll, preorder_eq_descendants, preorder_eq_descendants]
    exact part.descendants.append (Grafts.preorderAll_of_forall₂ rest)

theorem Grafts.preorderAll_of_sprinkled {P : Node → Prop} {cs cs' : List Node} :
    Sprinkled (Grafts P) (fun s => s.isPart = false ∧ P s) cs cs' →
    Sprinkled (Grafts P) (Within P) (preorderAll cs) (preorderAll cs')
  | .nil => .nil
  | .kept part rest => by
    rw [preorderAll, preorderAll, preorder_eq_descendants, preorder_eq_descendants]
    exact part.descendants.append (Grafts.preorderAll_of_sprinkled rest)
  | .added extra rest => by
    rw [preorderAll, preorder_eq_descendants]
    exact (Sprinkled.of_forall fun d hd => ⟨_, extra.2, hd⟩).append
      (Grafts.preorderAll_of_sprinkled rest)

end

/-! ## A check -/

mutual

/-- Whether a node comes from another one by putting in what passes a check. -/
def graftsBy (p : Node → Bool) : Node → Node → Bool
  | n, leaf r k t => n == leaf r k t
  | leaf .., branch .. => false
  | branch r k cs, branch r' k' cs' =>
    r == r' && k == k' &&
      if (branch r k cs).isStatementList then amongBy p cs cs'
      else cs == cs' || !k.isSolid && (!(branch r k cs).isTypeDeclaration ||
        (branch r k cs').child? .name == (branch r k cs).child? .name) && eachBy p cs cs'

/-- Whether nodes come from others one by one. -/
def eachBy (p : Node → Bool) : List Node → List Node → Bool
  | [], [] => true
  | n :: ns, n' :: ns' => graftsBy p n n' && eachBy p ns ns'
  | _, _ => false

/-- Whether statements come from others, with further ones among them. -/
def amongBy (p : Node → Bool) : List Node → List Node → Bool
  | [], [] => true
  | [], n' :: ns' => !n'.isPart && p n' && amongBy p [] ns'
  | n :: ns, n' :: ns' =>
    graftsBy p n n' && amongBy p ns ns' || !n'.isPart && p n' && amongBy p (n :: ns) ns'
  | _ :: _, [] => false

end

mutual

theorem grafts_of_graftsBy {p : Node → Bool} {P : Node → Prop} (hp : ∀ s, p s = true → P s)
    {n n' : Node} (h : graftsBy p n n' = true) : n.Grafts P n' := by
  match n, n' with
  | n, leaf r k t =>
    rw [graftsBy] at h
    rw [eq_of_beq h]
    exact .same _
  | leaf .., branch .. => cases h
  | branch r k cs, branch r' k' cs' =>
    rw [graftsBy, Bool.and_eq_true, Bool.and_eq_true] at h
    obtain ⟨⟨hr, hk⟩, h⟩ := h
    cases eq_of_beq hr
    cases eq_of_beq hk
    split at h
    · exact .among ‹_› (sprinkled_of_amongBy hp h)
    · simp only [Bool.or_eq_true, Bool.and_eq_true, Bool.not_eq_true'] at h
      rcases h with h | ⟨⟨hk, hname⟩, h⟩
      · rw [eq_of_beq h]
        exact .same _
      · refine .within hk (fun ht => ?_) (forall₂_of_eachBy hp h)
        rcases hname with hname | hname
        · rw [ht] at hname
          cases hname
        · exact eq_of_beq hname

theorem forall₂_of_eachBy {p : Node → Bool} {P : Node → Prop} (hp : ∀ s, p s = true → P s)
    {ns ns' : List Node} (h : eachBy p ns ns' = true) : List.Forall₂ (Grafts P) ns ns' := by
  match ns, ns' with
  | [], [] => exact .nil
  | n :: ns, n' :: ns' =>
    rw [eachBy, Bool.and_eq_true] at h
    exact .cons (grafts_of_graftsBy hp h.1) (forall₂_of_eachBy hp h.2)
  | [], _ :: _ => cases h
  | _ :: _, [] => cases h

theorem sprinkled_of_amongBy {p : Node → Bool} {P : Node → Prop} (hp : ∀ s, p s = true → P s)
    {ns ns' : List Node} (h : amongBy p ns ns' = true) :
    Sprinkled (Grafts P) (fun s => s.isPart = false ∧ P s) ns ns' := by
  match ns, ns' with
  | [], [] => exact .nil
  | [], n' :: ns' =>
    simp only [amongBy, Bool.and_eq_true, Bool.not_eq_true'] at h
    exact .added ⟨h.1.1, hp n' h.1.2⟩ (sprinkled_of_amongBy hp h.2)
  | n :: ns, n' :: ns' =>
    simp only [amongBy, Bool.or_eq_true, Bool.and_eq_true, Bool.not_eq_true'] at h
    rcases h with h | h
    · exact .kept (grafts_of_graftsBy hp h.1) (sprinkled_of_amongBy hp h.2)
    · exact .added ⟨h.1.1, hp n' h.1.2⟩ (sprinkled_of_amongBy hp h.2)
  | _ :: _, [] => cases h

end

end Node
end SurfaceCoverage
