import SurfaceCoverage.Strategy.Options
/-!
# Exposed members

A setup function can expose members through its context: a parameter pattern takes `expose` out of
it, or a parameter behind the first one is the context. The members are the keys of the objects that
are passed to `expose`. An array under the key `expose` of some object lists exposed members too.
-/

namespace SurfaceCoverage

/-- The option, and the context's function, that expose members. -/
def exposeKey : Text := "expose"

/-- The words through which a function can reach `expose`. -/
structure ContextWords where
  /-- Words for the function that exposes. -/
  exposing : List Text := []
  /-- Words for the context that holds it. -/
  contexts : List Text := []

namespace Node

/-- Functions with a body that a call in it can belong to. -/
def isSetupFunction (n : Node) : Bool :=
  n.kind == .arrowFunction || n.kind == .functionExpression || n.kind == .functionDeclaration ||
    n.kind == .methodDefinition

/-- What the parameters of a function bind. -/
def parameterPatterns (function : Node) : List Node :=
  match function.child? .parameters with
  | none => (function.child? .parameter).toList
  | some ps => ps.namedChildren.filterMap fun p =>
    if p.kind = .identifier then some p else p.child? .pattern

/-- The words that an object pattern binds to `expose`. -/
def exposingWords : List Node → Except Failure (List Text)
  | [] => .ok []
  | m :: ms => do
    let word ← match m.kind with
      | .shorthandPropertyIdentifierPattern => pure (if m.name = exposeKey then [exposeKey] else [])
      | .pairPattern => do
        if (← m.memberName?) = some exposeKey then
          match m.child? .value with
          | some v => pure (if v.kind = .identifier then [v.name] else [])
          | none => pure []
        else pure []
      | _ => pure []
    return word ++ (← exposingWords ms)

/-- The words through which patterns of parameters reach `expose`; `first` before the first one. -/
def contextWords (first : Bool) : List Node → Except Failure ContextWords
  | [] => .ok {}
  | p :: ps => do
    let exposing ← if p.kind = .objectPattern then exposingWords p.namedChildren else pure []
    let contexts := if p.kind = .identifier ∧ !first then [p.name] else []
    let more ← contextWords false ps
    return ⟨exposing ++ more.exposing, contexts ++ more.contexts⟩

/-- Whether a call's callee is `expose` as the given words reach it. -/
def exposes (call : Node) (words : ContextWords) : Bool :=
  match call.child? .function with
  | none => false
  | some f =>
    match f.kind with
    | .identifier => words.exposing.contains f.name
    | .memberExpression =>
      match f.child? .object, f.child? .property with
      | some target, some property =>
        property.name = exposeKey && target.kind == .identifier && words.contexts.contains target.name
      | _, _ => false
    | _ => false

/-- The object that a call exposes. -/
def exposedObject? (call : Node) (words : ContextWords) : Option Node :=
  if call.exposes words then
    (call.callArguments.head?.map unwrap).filter (·.kind == .object)
  else none

end Node

namespace Search

/-- The names of each object in turn. -/
def objectNames (w : Workspace) (scope : Scope) : List Node → Search (List Text)
  | [] => return []
  | o :: os => do
    let names ← namesOf w scope o.objectItems
    return names.toList ++ (← objectNames w scope os)

/-- The names that the context calls of some functions expose. -/
def contextCallNames (w : Workspace) (scope : Scope) : List Node → Search (List Text)
  | [] => return []
  | function :: functions => do
    let words ← ofExcept (Node.contextWords true function.parameterPatterns)
    let names ←
      if words.exposing.isEmpty && words.contexts.isEmpty then pure []
      else
        match function.child? .body with
        | none => pure []
        | some body =>
          objectNames w scope ((body.findAll .callExpression).filterMap (·.exposedObject? words))
    return names ++ (← contextCallNames w scope functions)

/-- The array under the key `expose` of an object. -/
def exposedArray (object : Node) : Search (Option Node) := do
  match ← ofExcept (object.findMember? exposeKey) with
  | none => return none
  | some m =>
    if m.kind = .pair then
      return ((m.child? .value).map Node.unwrap).filter (·.kind == .array)
    else return none

/-- The names of the first array under the key `expose`. -/
def exposedArrayNames (w : Workspace) (scope : Scope) : Search MemberList := do
  match ← firstFound exposedArray (scope.root.findAll .object) with
  | some array => namesOf w scope array.arrayItems
  | none => return ∅

/-- The names exposed by context calls, then those of an array under the key `expose`. -/
def namesByExpose (w : Workspace) (scope : Scope) : Search MemberList := do
  let called ← contextCallNames w scope (scope.root.descendants.filter Node.isSetupFunction)
  let listed ← exposedArrayNames w scope
  return MemberList.ofList (called ++ listed.toList)

end Search
end SurfaceCoverage
