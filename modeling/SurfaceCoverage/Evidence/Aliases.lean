import SurfaceCoverage.Tree.Shape
/-!
# Words for a mounted instance

The instance of a mounted component is the member `vm` of its wrapper. Declarators give it further
words, in document order: a word can repeat the instance or another word for it, and a pattern can
take `vm` out of the result of mounting or of a word for a wrapper.
-/

namespace SurfaceCoverage

/-- The member of a wrapper that holds the instance. -/
def instanceMember : Text := "vm"

/-- Words for instances, and words for wrappers. -/
structure InstanceWords where
  instances : List Text := []
  wrappers : List Text := []

namespace Node

/-- Whether a value is a mounted instance: a member `vm`, or a word for an instance. -/
def isInstance (words : List Text) (value : Node) : Except Failure Bool :=
  let inner := value.unwrap
  match inner.kind with
  | .identifier => .ok (words.contains inner.name)
  | .memberExpression => do return (← inner.propertyName?) = some instanceMember
  | _ => .ok false

/-- What an awaited value is. -/
def awaited? (n : Node) : Option Node :=
  match _h : n.unwrap.kind with
  | .awaitExpression =>
    match _h : n.unwrap.namedChildren.head? with
    | some c => awaited? c
    | none => none
  | _ => some n.unwrap
termination_by n.size
decreasing_by
  have h := mem_children_of_mem_namedChildren (List.mem_of_head? _h)
  have := size_lt_of_mem_children h
  have := size_unwrap_le n
  omega

theorem awaited?_eq (n : Node) : n.awaited? =
    if n.unwrap.kind = .awaitExpression then n.unwrap.namedChildren.head?.bind awaited?
    else some n.unwrap := by
  rw [awaited?]
  split
  · rename_i hk
    rw [if_pos hk]
    split
    · rename_i c hc
      rw [hc]
      rfl
    · rename_i hc
      rw [hc]
      rfl
  · rename_i hk
    rw [if_neg hk]

/-- Whether a value is the result of mounting. -/
def isMounted (mounts : List Text) (value : Node) : Bool :=
  value.awaited?.any fun n => n.kind == .callExpression && n.calleeName?.any mounts.contains

/-- Whether a value is a wrapper: the result of mounting, or a word for one. -/
def isMountWrapper (mounts wrappers : List Text) (value : Node) : Bool :=
  value.isMounted mounts ||
    value.awaited?.any fun n => n.kind == .identifier && wrappers.contains n.name

/-- The words that a pattern takes an instance out of a wrapper with. -/
def instancePatternWords : List Node → Except Failure (List Text)
  | [] => .ok []
  | m :: ms => do
    let word ← match m.kind with
      | .shorthandPropertyIdentifierPattern =>
        pure (if m.name = instanceMember then [instanceMember] else [])
      | .pairPattern => do
        if (← m.memberName?) = some instanceMember then
          match m.child? .value with
          | some v => pure (if v.kind = .identifier then [v.name] else [])
          | none => pure []
        else pure []
      | _ => pure []
    return word ++ (← instancePatternWords ms)

/-- The words that a declarator adds to those before it. -/
def declaratorWords (mounts : List Text) (words : InstanceWords) (declarator : Node) :
    Except Failure InstanceWords :=
  match declarator.child? .name, declarator.child? .value with
  | some target, some value =>
    match target.kind with
    | .identifier => do
      if ← value.isInstance words.instances then
        return { words with instances := target.name :: words.instances }
      else if value.isMounted mounts then
        return { words with wrappers := target.name :: words.wrappers }
      else return words
    | .objectPattern => do
      if value.isMountWrapper mounts words.wrappers then
        return { words with
          instances := (← instancePatternWords target.namedChildren) ++ words.instances }
      else return words
    | _ => .ok words
  | _, _ => .ok words

/-- The words for instances in a script. -/
def instanceWords (mounts : List Text) (root : Node) : Except Failure (List Text) := do
  return (← (root.findAll .variableDeclarator).foldlM (declaratorWords mounts) {}).instances

end Node
end SurfaceCoverage
