import SurfaceCoverage.Proofs.Literals
import SurfaceCoverage.Strategy.Instance
/-!
# Expansions as inquiries

Names of declarations, instance types and the types of members are found in one way: a word is
followed, a declaration is found, and what the declaration says may ask for further words. What is
asked of a declaration is an inquiry: it ends, or it asks for the answer to a word and goes on.

An expansion says how a declaration is inquired about, and `nested` expands words by it. The three
expansions of the analysis are instances (`expandTo_eq`, `instanceType_eq`, `memberType_eq`), so
that what holds of every expansion holds of them.
-/

namespace SurfaceCoverage

/-- A word that a scope mentions. -/
structure Mention where
  scope : Scope
  meaning : Meaning
  word : Text

def Mention.query (m : Mention) : Query := .word m.scope m.meaning m.word

/-- A computation that asks what words come to, and ends with a value or a failure. -/
inductive Inquiry (β α : Type) where
  | done (e : Except Failure α)
  | ask (m : Mention) (next : β → Inquiry β α)

namespace Inquiry

variable {α β γ : Type}

/-- What to do with the value that an inquiry ends with. -/
def bind : Inquiry β α → (α → Inquiry β γ) → Inquiry β γ
  | done (.ok a), f => f a
  | done (.error e), _ => done (.error e)
  | ask m next, f => ask m fun b => (next b).bind f

/-- An inquiry with searches for answers. -/
def run (answer : Mention → Search β) : Inquiry β α → Search α
  | done e => Search.ofExcept e
  | ask m next => do run answer (next (← answer m))

/-- An inquiry with known answers. -/
def eval (answer : Mention → Except Failure β) : Inquiry β α → Except Failure α
  | done e => e
  | ask m next => do eval answer (next (← answer m))

/-- The answer to one word. -/
def single (m : Mention) : Inquiry β β := ask m fun b => done (.ok b)

theorem run_single (answer : Mention → Search β) (m : Mention) :
    run answer (single m) = answer m := bind_pure (m := Search) (answer m)

theorem run_bind (answer : Mention → Search β) (p : Inquiry β α) (f : α → Inquiry β γ) :
    run answer (p.bind f) = run answer p >>= fun a => run answer (f a) := by
  induction p with
  | done e =>
    cases e with
    | error e => rfl
    | ok a => exact (pure_bind (m := Search) a fun a => run answer (f a)).symm
  | ask m next ih =>
    simp only [bind, run, ih]
    exact (bind_assoc (m := Search) (answer m) _ _).symm

theorem eval_single (answer : Mention → Except Failure β) (m : Mention) :
    eval answer (single m) = answer m := by
  rw [single, eval]
  cases answer m <;> rfl

theorem eval_bind (answer : Mention → Except Failure β) (p : Inquiry β α) (f : α → Inquiry β γ) :
    eval answer (p.bind f) = eval answer p >>= fun a => eval answer (f a) := by
  induction p with
  | done e => cases e <;> rfl
  | ask m next ih =>
    rw [bind, eval, eval]
    cases answer m with
    | error e => rfl
    | ok b => exact ih b

end Inquiry

/-- How a declaration that a word stands for is inquired about, and what a word comes to that leads
nowhere. -/
structure Expansion (β : Type) where
  missed : β
  inquire : Meaning → Declaration → Option (Inquiry β β)

open Search in
/-- What a word comes to, with words nested to a depth inside those that are open. -/
def Expansion.nested {β : Type} (x : Expansion β) (w : Workspace) :
    Nat → List Reference → Mention → Search β
  | depth, opened, m => do
    let opened ← follow opened m.scope m.meaning m.word
    match (← find w m.query).bind (x.inquire m.meaning) with
    | none => return x.missed
    | some p =>
      match depth with
      | 0 => fail .endless
      | depth + 1 => p.run (x.nested w depth opened)

/-- A reference to a word. -/
def Mention.reference (m : Mention) (absent : Nat) : Reference := ⟨m.scope.path, m.meaning, m.word, absent⟩

/-- A word is followed unless it has been twice since something was learnt. -/
theorem Search.follow_cases (opened : List Reference) (m : Mention) (s : SearchState) :
    ∃ absent, (2 ≤ opened.count (m.reference absent) ∧
        follow opened m.scope m.meaning m.word s = .error .endless) ∨
      follow opened m.scope m.meaning m.word s = .ok (m.reference absent :: opened, s) := by
  refine ⟨s.trail.absent.length, ?_⟩
  have hrun : follow opened m.scope m.meaning m.word s =
      (if 2 ≤ opened.count (m.reference s.trail.absent.length) then fail .endless
        else pure (m.reference s.trail.absent.length :: opened) : Search (List Reference)) s := rfl
  rw [hrun]
  split
  · exact .inl ⟨‹_›, rfl⟩
  · exact .inr rfl

/-! ## Names -/

/-- What is asked of an item. -/
def Item.inquiry (scope : Scope) : Item → Inquiry (List Text) (List Text)
  | .name t => .done (.ok [t])
  | .literal n => .done (n.stringValue.map Option.toList)
  | .member n => .done (n.memberName?.map Option.toList)
  | .reference meaning word => .single ⟨scope, meaning, word⟩

/-- What is asked of items in turn. -/
def Item.inquiries (scope : Scope) : List Item → Inquiry (List Text) (List Text)
  | [] => .done (.ok [])
  | item :: items => (item.inquiry scope).bind fun names =>
    (inquiries scope items).bind fun rest => .done (.ok (names ++ rest))

/-- The expansion of words to names. -/
def Expansion.names : Expansion (List Text) where
  missed := []
  inquire meaning d := some (Item.inquiries d.scope (d.node.items meaning))

namespace Search

theorem itemNames_eq (scope : Scope) (answer : Mention → Search (List Text)) (items : List Item) :
    itemNames (fun meaning word => answer ⟨scope, meaning, word⟩) items =
      (Item.inquiries scope items).run answer := by
  induction items with
  | nil => rfl
  | cons item items ih =>
    have hrest (names : List Text) :
        (do return names ++ (← itemNames (fun meaning word => answer ⟨scope, meaning, word⟩) items)) =
          Inquiry.run answer ((Item.inquiries scope items).bind fun rest => .done (.ok (names ++ rest))) := by
      rw [Inquiry.run_bind, ih]
      rfl
    have hread (e : Except Failure (Option Text)) (f : List Text → Search (List Text)) :
        (do f (← ofExcept e).toList) = ofExcept (e.map Option.toList) >>= f := by
      cases e <;> rfl
    rw [Item.inquiries, Inquiry.run_bind]
    simp only [← hrest]
    cases item with
    | name t => rfl
    | literal n =>
      rw [Item.inquiry, Inquiry.run, ← hread]
      rfl
    | member n =>
      rw [Item.inquiry, Inquiry.run, ← hread]
      rfl
    | reference meaning word =>
      rw [Item.inquiry, Inquiry.run_single]
      rfl

theorem expandTo_eq (w : Workspace) (depth : Nat) (opened : List Reference) (scope : Scope)
    (meaning : Meaning) (word : Text) :
    expandTo w depth opened scope meaning word =
      Expansion.names.nested w depth opened ⟨scope, meaning, word⟩ := by
  induction depth generalizing opened scope meaning word with
  | zero =>
    unfold expandTo Expansion.nested
    refine bind_congr fun opened => bind_congr fun found => ?_
    cases found <;> rfl
  | succ depth ih =>
    unfold expandTo Expansion.nested
    refine bind_congr fun opened => bind_congr fun found => ?_
    cases found with
    | none => rfl
    | some d =>
      show itemNames (expandTo w depth opened d.scope) (d.node.items meaning) = _
      have hanswer : expandTo w depth opened d.scope = fun meaning word =>
          Expansion.names.nested w depth opened ⟨d.scope, meaning, word⟩ := by
        funext meaning word
        exact ih opened d.scope meaning word
      rw [hanswer, itemNames_eq]
      rfl

end Search

/-! ## Types -/

namespace Node

/-- What is asked of a type for the instance type that it constructs. -/
def instanceInquiry (type : Node) (scope : Scope) : Inquiry (Option ScopedType) (Option ScopedType) :=
  match type.unparenthesizedType? with
  | none => .done (.ok none)
  | some type =>
    match type.kind with
    | .constructorType => .done (.ok (type.constructedType?.map (·, scope)))
    | .objectType | .interfaceBody =>
      match type.namedChildren.find? (·.kind == .constructSignature) with
      | some signature => .done (.ok (signature.annotatedType?.map (·, scope)))
      | none => .done (.ok none)
    | .typeIdentifier => .single ⟨scope, .type, type.name⟩
    | _ => .done (.ok none)

/-- The annotated type of the first member with a name that has one. -/
def annotatedMember? (name : Text) : List Node → Except Failure (Option Node)
  | [] => .ok none
  | m :: ms =>
    if m.kind = .propertySignature ∨ m.kind = .publicFieldDefinition then do
      if (← m.memberName?) = some name then
        match m.annotatedType? with
        | some type => return some type
        | none => annotatedMember? name ms
      else annotatedMember? name ms
    else annotatedMember? name ms

/-- What is asked of a part of a type for the type of a member. -/
def memberInquiryOf (name : Text) (scope : Scope) (part : Node) :
    Inquiry (Option ScopedType) (Option ScopedType) :=
  if part.kind = .typeIdentifier then .single ⟨scope, .type, part.name⟩
  else .done ((annotatedMember? name part.namedChildren).map (·.map (·, scope)))

/-- What is asked of the parts of a type in turn. -/
def memberInquiries (name : Text) (scope : Scope) :
    List Node → Inquiry (Option ScopedType) (Option ScopedType)
  | [] => .done (.ok none)
  | part :: parts => (memberInquiryOf name scope part).bind fun
    | some type => .done (.ok (some type))
    | none => memberInquiries name scope parts

/-- What is asked of a type for the type of a member. -/
def memberInquiry (name : Text) (type : Node) (scope : Scope) :
    Inquiry (Option ScopedType) (Option ScopedType) :=
  memberInquiries name scope type.intersectedTypes

end Node

/-- The expansion of words for types, by what is asked of a declared type. -/
def Expansion.types (inquiry : Node → Scope → Inquiry (Option ScopedType) (Option ScopedType)) :
    Expansion (Option ScopedType) where
  missed := none
  inquire
    | .type, d => d.node.declaredType?.map (inquiry · d.scope)
    | .value, _ => none

namespace Search

theorem namedType_eq (w : Workspace) (scope : Scope) (word : Text) :
    namedType w scope word = (do
      return (← find w (.word scope .type word)).bind fun d => d.node.declaredType?.map (·, d.scope)) := by
  unfold namedType
  refine bind_congr fun found => ?_
  cases found <;> rfl

/-- A word for a type is followed to the type that it was declared with. -/
theorem nested_types (inquiry : Node → Scope → Inquiry (Option ScopedType) (Option ScopedType))
    (w : Workspace) (depth : Nat) (opened : List Reference) (scope : Scope) (word : Text) :
    (Expansion.types inquiry).nested w depth opened ⟨scope, .type, word⟩ = (do
      let opened ← follow opened scope .type word
      match ← namedType w scope word with
      | none => return none
      | some (type, scope) =>
        match depth with
        | 0 => fail .endless
        | depth + 1 =>
          (inquiry type scope).run ((Expansion.types inquiry).nested w depth opened)) := by
  unfold Expansion.nested
  refine bind_congr fun opened => ?_
  rw [namedType_eq]
  simp only [bind_assoc, pure_bind]
  refine bind_congr fun found => ?_
  cases found with
  | none => rfl
  | some d =>
    simp only [Option.bind_some, Expansion.types]
    cases d.node.declaredType? <;> cases depth <;> rfl

theorem instanceType_run {w : Workspace} {depth : Nat} {opened : List Reference} {scope : Scope}
    {answer : Mention → Search (Option ScopedType)}
    (h : ∀ word, answer ⟨scope, .type, word⟩ = (do
      let opened ← follow opened scope .type word
      match ← namedType w scope word with
      | none => return none
      | some (type, scope) =>
        match depth with
        | 0 => fail .endless
        | depth + 1 => instanceType w depth opened type scope)) (type : Node) :
    instanceType w depth opened type scope = (type.instanceInquiry scope).run answer := by
  unfold instanceType Node.instanceInquiry
  cases type.unparenthesizedType? with
  | none => rfl
  | some type =>
    simp only
    cases hk : type.kind with
    | objectType | interfaceBody =>
      simp only
      cases type.namedChildren.find? (·.kind == .constructSignature) <;> rfl
    | typeIdentifier => exact (h type.name).symm.trans (Inquiry.run_single answer _).symm
    | _ => rfl

theorem instanceType_eq (w : Workspace) (depth : Nat) (opened : List Reference) (type : Node)
    (scope : Scope) : instanceType w depth opened type scope =
      (type.instanceInquiry scope).run
        ((Expansion.types Node.instanceInquiry).nested w depth opened) := by
  induction depth generalizing opened type scope with
  | zero => exact instanceType_run (fun word => nested_types _ w 0 opened scope word) type
  | succ depth ih =>
    refine instanceType_run (fun word => ?_) type
    rw [nested_types]
    simp only [ih]

theorem annotatedMember_eq (name : Text) (scope : Scope) (ms : List Node) :
    annotatedMember name scope ms = ofExcept ((Node.annotatedMember? name ms).map (·.map (·, scope))) := by
  induction ms with
  | nil => rfl
  | cons m ms ih =>
    unfold annotatedMember Node.annotatedMember?
    split
    · cases m.memberName? with
      | error f => rfl
      | ok found =>
        show (if found = some name then _ else _ : Search (Option ScopedType)) =
          ofExcept (Except.map _ (if found = some name then _ else _))
        split
        · cases m.annotatedType? with
          | some type => rfl
          | none => exact ih
        · exact ih
    · exact ih

theorem firstFound_run {name : Text} {scope : Scope} {answer : Mention → Search (Option ScopedType)}
    {try_ : Node → Search (Option ScopedType)}
    (h : ∀ part, try_ part = (Node.memberInquiryOf name scope part).run answer) (parts : List Node) :
    firstFound try_ parts = (Node.memberInquiries name scope parts).run answer := by
  induction parts with
  | nil => rfl
  | cons part parts ih =>
    rw [firstFound, Node.memberInquiries, Inquiry.run_bind, h]
    refine bind_congr fun found => ?_
    cases found with
    | none => exact ih
    | some type => rfl

theorem memberType_run {w : Workspace} {name : Text} {depth : Nat} {opened : List Reference}
    {scope : Scope} {answer : Mention → Search (Option ScopedType)}
    (h : ∀ word, answer ⟨scope, .type, word⟩ = (do
      let opened ← follow opened scope .type word
      match ← namedType w scope word with
      | none => return none
      | some (type, scope) =>
        match depth with
        | 0 => fail .endless
        | depth + 1 => memberType w name depth opened type scope)) (type : Node) :
    memberType w name depth opened type scope = (type.memberInquiry name scope).run answer := by
  unfold memberType
  refine firstFound_run (fun part => ?_) type.intersectedTypes
  unfold Node.memberInquiryOf
  split
  · exact (h part.name).symm.trans (Inquiry.run_single answer _).symm
  · exact annotatedMember_eq name scope part.namedChildren

theorem memberType_eq (w : Workspace) (name : Text) (depth : Nat) (opened : List Reference)
    (type : Node) (scope : Scope) : memberType w name depth opened type scope =
      (type.memberInquiry name scope).run
        ((Expansion.types (Node.memberInquiry name)).nested w depth opened) := by
  induction depth generalizing opened type scope with
  | zero => exact memberType_run (fun word => nested_types _ w 0 opened scope word) type
  | succ depth ih =>
    refine memberType_run (fun word => ?_) type
    rw [nested_types]
    simp only [ih]

end Search
end SurfaceCoverage
