import Mathlib.Logic.Relation
import SurfaceCoverage.Proofs.Likeness
/-!
# Scripts with more wrappers

A value is wrapped in parentheses, by a non-null mark, or by a cast to `any`. Below a node of a
script a value is wrapped if it is an argument, the object of a member, or the value of a pair. The
nodes of the larger script, its new wrappers and their tokens aside, are those of the smaller one
in the same order, and each is like the node that it comes from: values that may be wrapped are
the same under their wrappers, and all other parts are where they were.
-/

namespace SurfaceCoverage

/-- Kinds of nodes that evidence is taken from. -/
def Kind.mentions (k : Kind) : Bool :=
  [Kind.callExpression, .memberExpression, .subscriptExpression, .variableDeclarator, .jsxElement,
    .jsxSelfClosingElement].contains k

/-! ## Wrappers -/

/-- What a value can be wrapped in. -/
inductive Wrapper where
  | parentheses
  | nonNull
  | asAny
  | satisfiesAny

namespace Wrapper

def kind : Wrapper → Kind
  | parentheses => .parenthesizedExpression
  | nonNull => .nonNullExpression
  | asAny => .asExpression
  | satisfiesAny => .satisfiesExpression

/-- The keyword of a cast and the type `any` behind it. -/
def anyCast (keyword : String) : List Node :=
  [.leaf .none .blank " ", .leaf .none .token keyword, .leaf .none .blank " ",
    .branch .none .predefinedType [.leaf .none .token "any"]]

/-- What stands in front of the value. -/
def before : Wrapper → List Node
  | parentheses => [.leaf .none .token "("]
  | _ => []

/-- What stands behind the value. -/
def after : Wrapper → List Node
  | parentheses => [.leaf .none .token ")"]
  | nonNull => [.leaf .none .token "!"]
  | asAny => anyCast "as"
  | satisfiesAny => anyCast "satisfies"

/-- A value in a wrapper. The wrapper plays the part that the value played. -/
def wrap (w : Wrapper) (n : Node) : Node :=
  .branch n.role w.kind (w.before ++ n.withRole .none :: w.after)

end Wrapper

namespace Node

/-- Whether a node is no token, blank or comment. -/
def isValue (n : Node) : Bool := n.isNamed && n.kind != .comment

/-- A node after a value below it was wrapped. Neither the name of a tag nor that of an attribute
has a value in it. -/
inductive Wraps : Node → Node → Prop where
  | value {r : Role} {k : Kind} {before after : List Node} {n : Node} (w : Wrapper)
      (place : k.holdsValue n.role = true) (value : n.isValue = true) (tag : r ≠ .openTag) :
      Wraps (branch r k (before ++ n :: after)) (branch r k (before ++ w.wrap n :: after))
  | under {r : Role} {k : Kind} {before after : List Node} {n n' : Node} (wraps : Wraps n n')
      (phrase : k.isWord = false)
      (tag : r = .openTag ∨ k = .jsxSelfClosingElement → n.role ≠ .name)
      (key : k = .jsxAttribute → (branch r k before).namedChildren ≠ []) :
      Wraps (branch r k (before ++ n :: after)) (branch r k (before ++ n' :: after))

/-- A node with the value at the end of a path wrapped. The path gives the places of children. -/
def wrapAt (w : Wrapper) : List Nat → Node → Node
  | [], n => w.wrap n
  | _ :: _, leaf r k t => leaf r k t
  | i :: path, branch r k cs => branch r k (cs.modify i (wrapAt w path))

/-- Whether the value at the end of a path may be wrapped. -/
def admits : List Nat → Node → Bool
  | i :: path, branch r k cs =>
    cs[i]?.any fun c =>
      if path.isEmpty then k.holdsValue c.role && c.isValue && r != .openTag
      else !k.isWord && !((r == .openTag || k == .jsxSelfClosingElement) && c.role == .name) &&
        !(k == .jsxAttribute && (branch r k (cs.take i)).namedChildren.isEmpty) && admits path c
  | _, _ => false

/-- To wrap the value at the end of a path that admits it is to wrap a value. -/
theorem wraps_wrapAt (w : Wrapper) {path : List Nat} {n : Node} (h : admits path n = true) :
    n.Wraps (wrapAt w path n) := by
  induction path generalizing n with
  | nil => cases h
  | cons i path ih =>
    cases n with
    | leaf => cases h
    | branch r k cs =>
      obtain ⟨c, hc, h⟩ := (Option.any_eq_true _ _).1 h
      obtain ⟨hi, rfl⟩ := List.getElem?_eq_some_iff.1 hc
      have hcs : branch r k cs = branch r k (cs.take i ++ cs[i] :: cs.drop (i + 1)) := by
        rw [List.getElem_cons_drop, List.take_append_drop]
      rw [wrapAt, List.modify_eq_take_cons_drop hi, hcs]
      by_cases hpath : path = []
      · subst hpath
        simp only [List.isEmpty_nil, if_true, Bool.and_eq_true, bne_iff_ne] at h
        exact .value w h.1.1 h.1.2 h.2
      · have hend : path.isEmpty = false := by simpa using hpath
        simp only [hend, Bool.false_eq_true, if_false, Bool.and_eq_true, Bool.not_eq_true',
          Bool.and_eq_false_iff, Bool.or_eq_false_iff, beq_eq_false_iff_ne] at h
        obtain ⟨⟨⟨hword, htag⟩, hkey⟩, h⟩ := h
        refine .under (ih h) hword (fun ht hname => ?_) fun hk hnil => ?_
        · rcases htag with ⟨hr, hk⟩ | hname'
          · exact ht.elim hr hk
          · exact hname' hname
        · rcases hkey with hk' | hnamed
          · exact hk' hk
          · rw [hnil] at hnamed
            cases hnamed

/-- Values at the ends of paths, wrapped one after the other. -/
def wrapEach : List (Wrapper × List Nat) → Node → Node
  | [], n => n
  | (w, path) :: steps, n => wrapEach steps (wrapAt w path n)

def admitsEach : List (Wrapper × List Nat) → Node → Bool
  | [], _ => true
  | (w, path) :: steps, n => admits path n && admitsEach steps (wrapAt w path n)

theorem wraps_wrapEach (steps : List (Wrapper × List Nat)) {n n' : Node}
    (h : admitsEach steps n = true ∧ wrapEach steps n = n') : Relation.ReflTransGen Wraps n n' := by
  induction steps generalizing n with
  | nil =>
    obtain ⟨-, rfl⟩ := h
    exact .refl
  | cons step steps ih =>
    obtain ⟨w, path⟩ := step
    rw [admitsEach, Bool.and_eq_true] at h
    exact (ih ⟨h.1.2, h.2⟩).head (wraps_wrapAt w h.1.1)

/-- Two nodes, whatever parts they play, of which the second is the first or has a value below it
wrapped. -/
inductive Alike : Node → Node → Prop where
  | part (n : Node) (r : Role) : Alike n (n.withRole r)
  | wraps {n n' : Node} (h : n.Wraps n') : Alike n n'

/-- Children of nodes of a kind, of which the second is like the first or wraps it. -/
inductive Held (k : Kind) : Node → Node → Prop where
  | alike {c c' : Node} (h : c.Alike c') (role : c.role = c'.role) : Held k c c'
  | wrapped {c : Node} (w : Wrapper) (place : k.holdsValue c.role = true)
      (value : c.isValue = true) : Held k c (w.wrap c)

/-! ## The node itself -/

section
variable {n n' c c' : Node} {k : Kind} {r : Role} {w : Wrapper}

@[simp] theorem kind_withRole (n : Node) (r : Role) : (n.withRole r).kind = n.kind := by
  cases n <;> rfl

@[simp] theorem children_withRole (n : Node) (r : Role) : (n.withRole r).children = n.children := by
  cases n <;> rfl

@[simp] theorem text_withRole (n : Node) (r : Role) : (n.withRole r).text = n.text := by
  cases n <;> simp [withRole, text]

@[simp] theorem withRole_role (n : Node) : n.withRole n.role = n := by
  cases n <;> rfl

instance : Std.Refl Alike := ⟨fun n => by simpa using Alike.part n n.role⟩

instance : Std.Refl (Held k) := ⟨fun n => .alike (Std.Refl.refl n) rfl⟩

theorem Wraps.role_eq (h : n.Wraps n') : n.role = n'.role := by cases h <;> rfl

theorem Wraps.kind_eq (h : n.Wraps n') : n.kind = n'.kind := by cases h <;> rfl

theorem Alike.kind_eq (h : n.Alike n') : n.kind = n'.kind := by
  cases h with
  | part => rw [kind_withRole]
  | wraps h => exact h.kind_eq

theorem isWord_of_holdsValue (h : k.holdsValue r = true) : k.isWord = false := by
  unfold Kind.holdsValue at h
  split at h
  · rfl
  · rfl
  · rfl
  · rfl
  · cases h

theorem holdsValue_of_not_isLoose (h : k.isLoose = false) (r : Role) : k.holdsValue r = false := by
  unfold Kind.holdsValue
  split
  · cases h
  · cases h
  · cases h
  · cases h
  · rfl

/-- Nothing is wrapped below a word. -/
theorem Alike.text_eq (h : n.Alike n') (hw : n.kind.isWord = true) : n.text = n'.text := by
  cases h with
  | part => rw [text_withRole]
  | wraps h =>
    cases h with
    | value _ place => cases (isWord_of_holdsValue place).symm.trans hw
    | under _ phrase => cases phrase.symm.trans hw

/-! ## Its parts -/

theorem isWrapper_wrap (w : Wrapper) (n : Node) : (w.wrap n).isWrapper = true := by
  cases w <;> rfl

theorem isValue_wrap (w : Wrapper) (n : Node) : (w.wrap n).isValue = true := by
  cases w <;> rfl

theorem namedChildren_wrap (h : n.isValue = true) :
    ∃ types, (w.wrap n).namedChildren = n.withRole .none :: types := by
  have hvalue : ((n.withRole .none).isNamed && (n.withRole .none).kind != .comment) = true := by
    simpa [isValue, isNamed] using h
  cases w <;> exact ⟨_, by
    simp only [Wrapper.wrap, Wrapper.before, namedChildren, children, List.cons_append,
      List.nil_append, List.filter_cons, hvalue]
    rfl⟩

theorem Held.role_eq (h : Held k c c') : c.role = c'.role := by
  cases h with
  | alike _ role => exact role
  | wrapped => rfl

theorem Held.isValue_eq (h : Held k c c') : c.isValue = c'.isValue := by
  cases h with
  | alike h => rw [isValue, isValue, isNamed, isNamed, h.kind_eq]
  | wrapped w _ value => rw [value, isValue_wrap]

/-- A child in a place where no value may be wrapped is not wrapped. -/
theorem Held.alike_of (h : Held k c c') (hk : k.holdsValue c.role = false) : c.Alike c' := by
  cases h with
  | alike h => exact h
  | wrapped _ place => cases hk.symm.trans place

theorem Alike.held_children (h : n.Alike n') :
    List.Forall₂ (Held n.kind) n.children n'.children := by
  cases h with
  | part =>
    rw [children_withRole]
    exact List.forall₂_refl _
  | wraps h =>
    cases h with
    | value w place value =>
      exact List.rel_append (List.forall₂_refl _)
        (.cons (.wrapped w place value) (List.forall₂_refl _))
    | under h =>
      exact List.rel_append (List.forall₂_refl _)
        (.cons (.alike (.wraps h) h.role_eq) (List.forall₂_refl _))

theorem Alike.held_namedChildren (h : n.Alike n') :
    List.Forall₂ (Held n.kind) n.namedChildren n'.namedChildren := by
  change List.Forall₂ (Held n.kind) (n.children.filter isValue) (n'.children.filter isValue)
  refine List.rel_filter (fun _ _ hc => ?_) h.held_children
  simp only [hc.isValue_eq]

theorem Alike.held_child (h : n.Alike n') (r : Role) :
    Option.Rel (Held n.kind) (n.child? r) (n'.child? r) :=
  rel_find? h.held_children fun _ _ hc => by rw [hc.role_eq]

theorem role_of_child? (h : n.child? r = some c) : c.role = r := by
  simpa using List.find?_some h

instance : Likeness Alike where
  kind_eq := Alike.kind_eq
  text_eq := Alike.text_eq
  children h hk := h.held_children.imp fun _ _ hc => hc.alike_of (holdsValue_of_not_isLoose hk _)
  child? {n n' r} h _ hk := by
    rcases hc : n.child? r with _ | c
    · rw [eq_none_of_rel (h.held_child r) hc]
      exact .none
    · obtain ⟨c', hc', hcc⟩ := exists_of_rel (h.held_child r) hc
      rw [hc']
      exact .some (hcc.alike_of (by rw [role_of_child? hc, hk]))

instance : MemberLikeness Alike where
  members h hk := h.held_namedChildren.imp fun _ _ hc => hc.alike_of (by rw [hk]; rfl)

/-! ## Values under their wrappers -/

theorem wrapped?_wrap (h : n.isValue = true) : (w.wrap n).wrapped? = some (n.withRole .none) := by
  obtain ⟨types, hnamed⟩ := namedChildren_wrap (w := w) h
  have hkind : (w.wrap n).kind ≠ .typeAssertion := by cases w <;> nofun
  rw [wrapped?, if_neg hkind, isWrapper_wrap, if_pos rfl, hnamed, List.head?_cons]

/-- A value that may be wrapped is the same under its wrappers. -/
theorem Held.unwrap (h : Held k c c') : c.unwrap.Alike c'.unwrap := by
  cases h with
  | alike h => exact unwrap_congr h
  | wrapped w _ value =>
    rw [unwrap_eq (w.wrap c), wrapped?_wrap value]
    exact unwrap_congr (.part c .none)

theorem unwrap_of_not_isWrapper (h : n.isWrapper = false) : n.unwrap = n := by
  have hk : n.kind ≠ .typeAssertion := fun hk => by simp [isWrapper, hk] at h
  rw [unwrap_eq, wrapped?, if_neg hk, h]
  rfl

theorem unbracket_of_not_isWrapper (h : n.isWrapper = false) : n.unbracket = n := by
  have hk : ¬ (n.kind = .parenthesizedExpression ∨ n.kind = .nonNullExpression) := fun hk => by
    rcases hk with hk | hk <;> simp [isWrapper, hk] at h
  rw [unbracket_eq, bracketed?, if_neg hk]
  rfl

/-- Parentheses and non-null marks are looked through, and casts are not. -/
theorem Held.unbracket (h : Held k c c') (hcast : c'.unbracket.isWrapper = false) :
    c.unbracket.Alike c'.unbracket := by
  cases h with
  | alike h => exact unbracket_congr h
  | wrapped w _ value =>
    obtain ⟨types, hnamed⟩ := namedChildren_wrap (w := w) value
    cases w with
    | parentheses =>
      rw [unbracket_eq (Wrapper.wrap _ c), bracketed?, if_pos (.inl rfl), hnamed]
      exact unbracket_congr (.part c .none)
    | nonNull =>
      rw [unbracket_eq (Wrapper.wrap _ c), bracketed?, if_pos (.inr rfl), hnamed]
      exact unbracket_congr (.part c .none)
    | asAny =>
      rw [unbracket_eq, bracketed?, if_neg (by rintro (hk | hk) <;> cases hk)] at hcast
      cases hcast
    | satisfiesAny =>
      rw [unbracket_eq, bracketed?, if_neg (by rintro (hk | hk) <;> cases hk)] at hcast
      cases hcast

theorem Alike.held_callArguments (h : n.Alike n') (hk : n.kind = .callExpression) :
    List.Forall₂ (Held .arguments) n.callArguments n'.callArguments := by
  unfold callArguments
  rcases ha : n.child? .arguments with _ | a
  · rw [child_eq_none h ha nofun (by rw [hk]; rfl)]
    exact .nil
  · obtain ⟨a', ha', haa⟩ := exists_child h ha nofun (by rw [hk]; rfl)
    simp only [ha', ← kind_congr haa]
    split
    · rename_i hk
      exact hk ▸ haa.held_namedChildren
    · exact .nil

instance : ValueLikeness Alike where
  value h := rel_map (h.held_child .value) fun _ _ hv => hv.unwrap
  arguments h hk := (h.held_callArguments hk).imp fun _ _ ha => ha.unwrap

/-! ## Tags -/

/-- Nothing is wrapped in the tag of an element itself. -/
theorem Wraps.children_of_openTag (h : n.Wraps n') (hr : n.role = .openTag) :
    List.Forall₂ Alike n.children n'.children := by
  cases h with
  | value _ _ _ tag => exact (tag hr).elim
  | under h =>
    exact List.rel_append (List.forall₂_refl _) (.cons (.wraps h) (List.forall₂_refl _))

/-- The name of a tag is the same in both scripts. -/
theorem Wraps.name_of_tag (h : n.Wraps n')
    (ht : n.role = .openTag ∨ n.kind = .jsxSelfClosingElement) :
    n.child? .name = n'.child? .name := by
  cases h with
  | value _ place _ tag =>
    rcases ht with hr | hk
    · exact (tag hr).elim
    · cases hk
      cases place
  | @under r k before after c c' hc _ tag _ =>
    have hskip : (c.role == .name) = false := beq_eq_false_iff_ne.2 (tag ht)
    have hskip' : (c'.role == .name) = false := hc.role_eq ▸ hskip
    simp only [child?, children, List.find?_append, List.find?_cons, hskip, hskip']

/-- The name of an attribute is the same in both scripts. -/
theorem Alike.head?_of_attribute (h : n.Alike n') (hk : n.kind = .jsxAttribute) :
    n.namedChildren.head? = n'.namedChildren.head? := by
  cases h with
  | part => rw [namedChildren, namedChildren, children_withRole]
  | wraps h =>
    cases h with
    | value _ place =>
      cases hk
      cases place
    | @under r k before _ _ _ _ _ _ key =>
      obtain ⟨name, values, hname⟩ := List.exists_cons_of_ne_nil (key hk)
      unfold namedChildren children at hname ⊢
      simp only [List.filter_append] at hname ⊢
      rw [hname]
      rfl

/-! ## The nodes below -/

/-- The nodes that mention something, of a node and below it. -/
def mentioning (n : Node) : List Node := n.descendants.filter (·.kind.mentions)

theorem mentioning_eq (n : Node) : n.mentioning =
    [n].filter (·.kind.mentions) ++ (preorderAll n.children).filter (·.kind.mentions) := by
  rw [mentioning, descendants_eq, ← List.filter_append, List.singleton_append]

theorem filter_preorderAll_cons (n : Node) (ns : List Node) :
    (preorderAll (n :: ns)).filter (·.kind.mentions) =
      n.mentioning ++ (preorderAll ns).filter (·.kind.mentions) := by
  rw [preorderAll, preorder_eq_descendants, List.filter_append, mentioning]

/-- A wrapper and its tokens mention nothing. -/
theorem mentioning_wrap (w : Wrapper) (n : Node) :
    (w.wrap n).mentioning = (n.withRole .none).mentioning := by
  have hbefore : (preorderAll w.before).filter (·.kind.mentions) = [] := by cases w <;> rfl
  have hafter : (preorderAll w.after).filter (·.kind.mentions) = [] := by cases w <;> rfl
  have hwrapper : [w.wrap n].filter (·.kind.mentions) = [] := by cases w <;> rfl
  rw [mentioning_eq (w.wrap n), hwrapper, Wrapper.wrap, children, preorderAll_append,
    List.filter_append, filter_preorderAll_cons, hbefore, hafter, List.nil_append, List.nil_append,
    List.append_nil]

theorem mentioning_of_children (h : n.Alike n')
    (hbelow : List.Forall₂ Alike ((preorderAll n.children).filter (·.kind.mentions))
      ((preorderAll n'.children).filter (·.kind.mentions))) :
    List.Forall₂ Alike n.mentioning n'.mentioning := by
  rw [mentioning_eq, mentioning_eq]
  refine List.rel_append (List.rel_filter (fun c c' hc => ?_) (.cons h .nil)) hbelow
  simp only [hc.kind_eq]

theorem Wraps.mentioning (h : n.Wraps n') : List.Forall₂ Alike n.mentioning n'.mentioning := by
  have hself := h
  induction h with
  | @value r k before after n w =>
    refine mentioning_of_children (.wraps hself) ?_
    simp only [children, preorderAll_append, List.filter_append, filter_preorderAll_cons,
      mentioning_wrap]
    refine List.rel_append (List.forall₂_refl _) (List.rel_append ?_ (List.forall₂_refl _))
    refine mentioning_of_children (.part n .none) ?_
    rw [children_withRole]
    exact List.forall₂_refl _
  | under h _ _ _ ih =>
    refine mentioning_of_children (.wraps hself) ?_
    simp only [children, preorderAll_append, List.filter_append, filter_preorderAll_cons]
    exact List.rel_append (List.forall₂_refl _) (List.rel_append (ih h) (List.forall₂_refl _))

end
end Node
end SurfaceCoverage
