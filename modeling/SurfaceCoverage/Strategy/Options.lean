import SurfaceCoverage.Names.Expansion
/-!
# Options of a component

A category can be declared as a property of the options object of a defining call, and by a call of
a keyword of its own. The options are the first argument of a defining call, or the second behind a
setup function; a word stands for the object it was declared with. If no defining call carries the
property, the first object that has it counts.
-/

namespace SurfaceCoverage

namespace Node

/-- A function as a value, without generators. -/
def isFunctionValue (n : Node) : Bool :=
  n.kind == .arrowFunction || n.kind == .functionExpression

/-- The options argument of a defining call. -/
def optionsArgument? (call : Node) : Option Node :=
  match call.callArguments with
  | [] => none
  | [a] => some a.unwrap
  | a :: b :: _ => some (if a.unwrap.isFunctionValue then b.unwrap else a.unwrap)

/-- The calls of one of several words, in document order. -/
def callsOf (root : Node) (callees : List Text) : List Node :=
  (root.findAll .callExpression).filter fun call => call.calleeName?.any callees.contains

end Node

namespace Search

/-- The options object that an argument is or stands for. -/
def optionsObject (w : Workspace) (scope : Scope) (argument : Node) : Search (Option (Node × Scope)) :=
  match argument.kind with
  | .object => return some (argument, scope)
  | .identifier => do
    match ← find w (.word scope .value argument.name) with
    | some d => return if d.node.kind = .object then some (d.node, d.scope) else none
    | none => return none
  | _ => return none

/-- The first member of an object under one of several names, the first name first. -/
def findOption (names : List Text) (object : Node) : Search (Option Node) :=
  firstFound (fun name => ofExcept (object.findMember? name)) names

/-- The member that carries an option, and the scope of its object. -/
def findOptionIn (w : Workspace) (scope : Scope) (names callees : List Text) :
    Search (Option (Node × Scope)) := do
  let defined ← firstFound (fun call => do
      match call.optionsArgument? with
      | none => return none
      | some argument =>
        match ← optionsObject w scope argument with
        | none => return none
        | some (object, owner) => return (← findOption names object).map (·, owner))
    (scope.root.callsOf callees)
  match defined with
  | some found => return some found
  | none =>
    return (← firstFound (findOption names) (scope.root.findAll .object)).map (·, scope)

/-- The names that the member of an option declares. -/
def optionNames (w : Workspace) (scope : Scope) (member : Node) : Search MemberList :=
  match member.kind with
  | .shorthandPropertyIdentifier => wordNames w scope member.name
  | .pair =>
    match member.child? .value with
    | some value => valueNames w scope value
    | none => return ∅
  | _ => return ∅

/-- The names of the first option found. -/
def namesByOption (w : Workspace) (scope : Scope) (names callees : List Text) : Search MemberList := do
  match ← findOptionIn w scope names callees with
  | some (member, owner) => optionNames w owner member
  | none => return ∅

/-- The names of the first call of a keyword: those of its argument or, if there are none, those of
its type argument. -/
def namesByCall (w : Workspace) (scope : Scope) (keyword : Text) : Search MemberList :=
  match scope.root.callsOf [keyword] with
  | [] => return ∅
  | call :: _ => do
    let names ← match call.callArguments with
      | a :: _ => valueNames w scope a
      | [] => pure ∅
    if names.isEmpty then
      match call.typeArguments with
      | t :: _ => typeNames w scope t
      | [] => return names
    else return names

end Search
end SurfaceCoverage
