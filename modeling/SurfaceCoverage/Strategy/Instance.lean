import SurfaceCoverage.Names.Expansion
/-!
# Instance types

An exported class, or an exported value whose type can be constructed, has an instance type. The
members of its bag, such as `$props`, are declared names, without the names that a framework
reserves. The default export comes first, then the named exports in document order.
-/

namespace SurfaceCoverage

namespace Node

def isClass (n : Node) : Bool :=
  n.kind == .classDeclaration || n.kind == .abstractClassDeclaration || n.kind == .classExpression

/-- The classes and declarators of a declaration. -/
def declaredValues (n : Node) : List Node :=
  if n.isClass then [n]
  else
    match n.kind with
    | .ambientDeclaration => n.namedChildren.attach.flatMap fun ⟨c, _⟩ => declaredValues c
    | .lexicalDeclaration | .variableDeclaration =>
      n.namedChildren.filter (·.kind == .variableDeclarator)
    | _ => []
termination_by n.size
decreasing_by exact size_lt_of_mem_namedChildren ‹_›

/-- The first class or declarator of a name in a tree. -/
def localValue? (root : Node) (name : Text) : Option Node :=
  root.descendants.find? fun n =>
    (n.isClass || n.kind == .variableDeclarator) && (n.child? .name).any (·.name = name)

/-- The values that an export statement exports. -/
def exportedValues (root statement : Node) : List Node :=
  match statement.child? .declaration, statement.child? .value with
  | some declaration, _ => declaration.declaredValues
  | none, some value =>
    if value.isClass then [value]
    else if value.kind = .identifier then (root.localValue? value.name).toList
    else []
  | none, none => []

/-- The exported classes and declarators, those of default exports first. -/
def exportedCandidates (root : Node) : List Node :=
  let statements := root.namedChildren.filter (·.kind == .exportStatement)
  let (defaults, named) := statements.partition isDefaultExport
  (defaults ++ named).flatMap (exportedValues root)

/-- A type without parentheses around it. -/
def unparenthesizedType? (n : Node) : Option Node :=
  if n.kind = .parenthesizedType then
    match _h : n.namedChildren.head? with
    | some c => unparenthesizedType? c
    | none => none
  else some n
termination_by n.size
decreasing_by exact size_lt_of_mem_namedChildren (List.mem_of_head? _h)

/-- The types that an intersection joins, in order. -/
def intersectedTypes (n : Node) : List Node :=
  if n.kind = .intersectionType then
    n.namedChildren.attach.flatMap fun ⟨c, _⟩ => intersectedTypes c
  else [n]
termination_by n.size
decreasing_by exact size_lt_of_mem_namedChildren ‹_›

/-- The type in the body of an interface or behind the name of an alias. -/
def declaredType? (n : Node) : Option Node :=
  match n.kind with
  | .interfaceDeclaration => n.child? .body
  | .typeAliasDeclaration => n.child? .value
  | _ => none

/-- The result of a constructor type. -/
def constructedType? (n : Node) : Option Node :=
  (n.namedChildren.filter fun c => c.kind != .formalParameters && c.kind != .typeParameters).getLast?

end Node

/-- A type, and the scope that its words are looked up in. -/
abbrev ScopedType := Node × Scope

namespace Search

/-- The type that a word stands for. -/
def namedType (w : Workspace) (scope : Scope) (word : Text) : Search (Option ScopedType) := do
  match ← find w (.word scope .type word) with
  | some d => return d.node.declaredType?.map (·, d.scope)
  | none => return none

/-- The instance type that a type constructs, behind a number of words at most and behind those that
are open. -/
def instanceType (w : Workspace) :
    Nat → List Reference → Node → Scope → Search (Option ScopedType)
  | depth, opened, type, scope =>
    match type.unparenthesizedType? with
    | none => return none
    | some type =>
      match type.kind with
      | .constructorType => return type.constructedType?.map (·, scope)
      | .objectType | .interfaceBody =>
        match type.namedChildren.find? (·.kind == .constructSignature) with
        | some signature => return signature.annotatedType?.map (·, scope)
        | none => return none
      | .typeIdentifier => do
        let opened ← follow opened scope .type type.name
        match ← namedType w scope type.name with
        | none => return none
        | some (type, scope) =>
          match depth with
          | 0 => fail .endless
          | depth + 1 => instanceType w depth opened type scope
      | _ => return none

/-- The annotated type of the first member with a name that has one. -/
def annotatedMember (name : Text) (scope : Scope) : List Node → Search (Option ScopedType)
  | [] => return none
  | m :: ms => do
    if m.kind = .propertySignature ∨ m.kind = .publicFieldDefinition then
      if (← ofExcept m.memberName?) = some name then
        match m.annotatedType? with
        | some type => return some (type, scope)
        | none => annotatedMember name scope ms
      else annotatedMember name scope ms
    else annotatedMember name scope ms

/-- The type of a member of an instance type or a class body, behind a number of words at most and
behind those that are open. -/
def memberType (w : Workspace) (name : Text) :
    Nat → List Reference → Node → Scope → Search (Option ScopedType)
  | depth, opened, container, scope =>
    firstFound (fun part =>
      if part.kind = .typeIdentifier then do
        let opened ← follow opened scope .type part.name
        match ← namedType w scope part.name with
        | none => return none
        | some (type, scope) =>
          match depth with
          | 0 => fail .endless
          | depth + 1 => memberType w name depth opened type scope
      else annotatedMember name scope part.namedChildren) container.intersectedTypes

/-- The type of a bag of an exported value. -/
def bagType (w : Workspace) (scope : Scope) (bag : Text) (candidate : Node) :
    Search (Option ScopedType) := do
  let depth := depthBound w scope
  if candidate.isClass then
    match candidate.child? .body with
    | some body => memberType w bag depth [] body scope
    | none => return none
  else
    match candidate.annotatedType? with
    | none => return none
    | some type =>
      match ← instanceType w depth [] type scope with
      | none => return none
      | some (type, scope) => memberType w bag depth [] type scope

/-- The names in a bag of the first exported value that has it, without reserved names. -/
def namesByInstance (w : Workspace) (scope : Scope) (bag : Text) (reserved : List Text) :
    Search MemberList := do
  match ← firstFound (bagType w scope bag) scope.root.exportedCandidates with
  | none => return ∅
  | some (type, owner) =>
    return MemberList.ofList ((← typeNames w owner type).toList.filter (!reserved.contains ·))

end Search
end SurfaceCoverage
