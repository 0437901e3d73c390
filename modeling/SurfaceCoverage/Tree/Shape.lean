import SurfaceCoverage.Tree.Literal
/-!
# Shapes of nodes

Values under casts and parentheses, types of casts and annotations, calls and their arguments, and
the names of members. A member's key counts if it is a word or a string; keys that are numbers or
computed name nothing.
-/

namespace SurfaceCoverage.Node

/-! ## Wrapped values -/

/-- Wrappers that leave a value as it is. -/
def isWrapper (n : Node) : Bool :=
  [Kind.asExpression, .satisfiesExpression, .typeAssertion, .nonNullExpression,
    .parenthesizedExpression].contains n.kind

/-- The value in a wrapper. -/
def wrapped? (n : Node) : Option Node :=
  if n.kind = .typeAssertion then n.namedChildren.find? (·.kind != .typeArguments)
  else if n.isWrapper then n.namedChildren.head?
  else none

theorem mem_children_of_mem_namedChildren {c n : Node} (h : c ∈ n.namedChildren) :
    c ∈ n.children :=
  (List.mem_filter.1 h).1

theorem size_lt_of_wrapped? {n c : Node} (h : n.wrapped? = some c) : c.size < n.size := by
  apply size_lt_of_mem_children
  apply mem_children_of_mem_namedChildren
  unfold wrapped? at h
  split at h
  · exact List.mem_of_find?_eq_some h
  · split at h
    · exact List.mem_of_head? h
    · cases h

/-- A value without casts, assertions and parentheses around it. -/
def unwrap (n : Node) : Node :=
  match _h : n.wrapped? with
  | some c => unwrap c
  | none => n
termination_by n.size
decreasing_by exact size_lt_of_wrapped? _h

theorem unwrap_eq (n : Node) : n.unwrap = (n.wrapped?.map unwrap).getD n := by
  rw [unwrap]
  split
  · rename_i c hc
    rw [hc]
    rfl
  · rename_i hc
    rw [hc]
    rfl

theorem size_unwrap_le (n : Node) : n.unwrap.size ≤ n.size := by
  fun_induction unwrap n with
  | case1 n c h ih => have := size_lt_of_wrapped? h; omega
  | case2 n h => omega

/-- The value in parentheses or before a non-null mark. -/
def bracketed? (n : Node) : Option Node :=
  if n.kind = .parenthesizedExpression ∨ n.kind = .nonNullExpression then n.namedChildren.head?
  else none

theorem size_lt_of_bracketed? {n c : Node} (h : n.bracketed? = some c) : c.size < n.size := by
  apply size_lt_of_mem_children
  apply mem_children_of_mem_namedChildren
  unfold bracketed? at h
  split at h
  · exact List.mem_of_head? h
  · cases h

/-- A value without parentheses and non-null marks around it. -/
def unbracket (n : Node) : Node :=
  match _h : n.bracketed? with
  | some c => unbracket c
  | none => n
termination_by n.size
decreasing_by exact size_lt_of_bracketed? _h

theorem unbracket_eq (n : Node) : n.unbracket = (n.bracketed?.map unbracket).getD n := by
  rw [unbracket]
  split
  · rename_i c hc
    rw [hc]
    rfl
  · rename_i hc
    rw [hc]
    rfl

/-- The type that a cast asserts. -/
def castType? (n : Node) : Option Node :=
  match n.kind with
  | .asExpression | .satisfiesExpression =>
    let cs := n.namedChildren
    if 1 < cs.length then cs.getLast? else none
  | .typeAssertion =>
    match n.namedChildren.find? (·.kind == .typeArguments) with
    | some types => types.namedChildren.head?
    | none => none
  | _ => none

/-- The generic type that a cast around a value asserts, and the cast. -/
def genericCast? (n : Node) : Option (Node × Node) :=
  let cast := n.unbracket
  match cast.castType? with
  | some type => if type.kind = .genericType then some (cast, type) else none
  | none => none

/-! ## Types -/

/-- The type arguments of a call or a generic type. -/
def typeArguments (n : Node) : List Node :=
  match (n.child? .typeArguments).or (n.children.find? (·.kind == .typeArguments)) with
  | some types => types.namedChildren
  | none => []

/-- The annotation of a declarator, a field, a signature or a parameter. -/
def ascription? (n : Node) : Option Node :=
  let first := n.namedChildren.find? (·.kind == .typeAscription)
  match n.child? .type with
  | some a => if a.kind = .typeAscription then some a else first.or (some a)
  | none => first

/-- The type in the annotation of a declarator, a field, a signature or a parameter. -/
def annotatedType? (n : Node) : Option Node :=
  match n.ascription? with
  | some a => if a.kind = .typeAscription then a.namedChildren.head? else some a
  | none => none

/-! ## Calls -/

/-- The word that a call calls. -/
def calleeName? (call : Node) : Option Text :=
  match call.child? .function with
  | some f => if f.kind = .identifier then some f.name else none
  | none => none

/-- The arguments of a call; a template behind a callee is none. -/
def callArguments (call : Node) : List Node :=
  match call.child? .arguments with
  | some a => if a.kind = .arguments then a.namedChildren else []
  | none => []

/-! ## Names of members -/

/-- The key of a member of an object, a pattern, a class or a type. -/
def memberKey? (n : Node) : Option Node :=
  match n.kind with
  | .pair | .pairPattern => n.child? .key
  | .methodDefinition | .propertySignature | .methodSignature | .publicFieldDefinition
  | .abstractMethodSignature => n.child? .name
  | _ => none

/-- The name that a member declares. -/
def memberName? (n : Node) : Except Failure (Option Text) :=
  if n.kind = .shorthandPropertyIdentifier ∨ n.kind = .shorthandPropertyIdentifierPattern then
    .ok (some n.name)
  else
    match n.memberKey? with
    | none => .ok none
    | some key =>
      match key.kind with
      | .propertyIdentifier | .identifier | .privatePropertyIdentifier => .ok (some key.name)
      | .string => key.stringValue
      | _ => .ok none

/-- The names that the members of an object declare. -/
def memberNames (object : Node) : Except Failure (List Text) := do
  return (← object.namedChildren.mapM memberName?).filterMap id

/-- The property that `x.p` or `x['p']` reads. -/
def propertyName? (n : Node) : Except Failure (Option Text) :=
  match n.kind with
  | .memberExpression =>
    match n.child? .property with
    | some p =>
      if p.kind = .propertyIdentifier ∨ p.kind = .privatePropertyIdentifier then .ok (some p.name)
      else .ok none
    | none => .ok none
  | .subscriptExpression => stringValue? (n.child? .index)
  | _ => .ok none

/-- The first member of an object with a key: a pair, a method or a shorthand. -/
def findMember? (object : Node) (key : Text) : Except Failure (Option Node) :=
  go object.namedChildren
where
  go : List Node → Except Failure (Option Node)
    | [] => .ok none
    | m :: ms =>
      if m.kind = .pair ∨ m.kind = .shorthandPropertyIdentifier ∨ m.kind = .methodDefinition then do
        if (← m.memberName?) = some key then return some m else go ms
      else go ms

/-- Whether an export is the default one. -/
def isDefaultExport (n : Node) : Bool := n.hasToken "default"

end SurfaceCoverage.Node
