import SurfaceCoverage.Names.Expansion
import SurfaceCoverage.Template.Outlets
/-!
# Used slots

Without a declaration the slots of a component are those that its template renders and its script
reads: the members of `slots`, of `$slots` and of the words that hold the result of `useSlots`.
-/

namespace SurfaceCoverage

namespace Node

/-- The words that hold slots in a script. -/
def slotWords (root : Node) : List Text :=
  "slots" :: "$slots" :: (root.findAll .variableDeclarator).filterMap fun d =>
    match (d.child? .value).map unwrap, d.child? .name with
    | some value, some target =>
      if target.kind = .identifier ∧ value.kind = .callExpression ∧
          value.calleeName? = some "useSlots" then some target.name
      else none
    | _, _ => none

/-- Whether a value holds slots: a word for them, or a member `$slots`. -/
def holdsSlots (words : List Text) (value : Node) : Except Failure Bool :=
  let inner := value.unwrap
  match inner.kind with
  | .identifier => .ok (words.contains inner.name)
  | .memberExpression => do return (← inner.propertyName?) = some "$slots"
  | _ => .ok false

/-- The slot that an access reads. -/
def readSlot? (words : List Text) (access : Node) : Except Failure (Option Text) :=
  match access.child? .object with
  | none => .ok none
  | some object => do
    if ← object.holdsSlots words then access.propertyName? else return none

/-- Whether a node reads a member of a value. -/
def isAccess (n : Node) : Bool := n.kind == .memberExpression || n.kind == .subscriptExpression

/-- The slots that a script reads. -/
def readSlots (root : Node) : Except Failure (List Text) := do
  return (← (root.descendants.filter isAccess).mapM (readSlot? root.slotWords)).filterMap id

end Node

namespace Search

/-- The slots that a component's template renders and its script reads. -/
def namesByUsage (scope : Scope) : Search MemberList := do
  return MemberList.ofList
    ((Template.slotNames scope.module.template).toList ++ (← ofExcept scope.root.readSlots))

end Search
end SurfaceCoverage
