import SurfaceCoverage.Evidence.Aliases
import SurfaceCoverage.Template.Mentions
/-!
# Evidence in a test's script

Calls that mount a component mention inputs, events and slots in their options; `setProps`,
`emitted` and `toHaveProperty` mention inputs and events; elements of components mention all three.
Reading or destructuring a mounted instance mentions exposed members. Every node of the script is
looked at, at any depth.
-/

namespace SurfaceCoverage.Node

/-! ## Mounting -/

/-- What a property of mount options mentions, and the components and the template it gives. -/
structure MountOption where
  sightings : Evidence := []
  components : List Text := []
  template : Option (Option Text) := none

/-- The options of a mount call: the first argument if it is an object, else the second. -/
def mountOptions? (call : Node) : Option Node :=
  match call.callArguments.map unwrap with
  | [] => none
  | a :: rest => if a.kind = .object then some a else rest.head?.filter (·.kind == .object)

/-- What a member of mount options says. -/
def mountOption (member : Node) : Except Failure MountOption := do
  match ← member.memberName? with
  | none => return {}
  | some key =>
    if member.kind ≠ .pair then return {}
    else
      match (member.child? .value).map unwrap with
      | none => return {}
      | some value =>
        let isObject := value.kind = .object
        if (key = "props" ∨ key = "propsData") ∧ isObject then
          return { sightings := (← value.memberNames).map inputOrEvent }
        else if key = "slots" ∧ isObject then
          return { sightings := sightings .slots (← value.memberNames) }
        else if key = "components" ∧ isObject then
          return { components := ← value.memberNames }
        else if key = "template" then
          return { template := some (← value.stringValue) }
        else return {}

/-- What a mount call mentions. Its template is read with the components of all its options. -/
def mountSightings (call : Node) : Except Failure Evidence :=
  match call.mountOptions? with
  | none => .ok []
  | some object => do
    let options ← object.namedChildren.mapM mountOption
    let components := options.flatMap (·.components)
    let template := ((options.filterMap (·.template)).getLast?.join).getD []
    return options.flatMap (·.sightings) ++
      if template.isEmpty then [] else Template.mentions components template

/-! ## Other calls -/

/-- The object that a chain of members starts from. -/
def chainStart? (n : Node) : Option Node :=
  if n.kind = .memberExpression then
    match _h : n.child? .object with
    | some object => chainStart? object
    | none => none
  else some n
termination_by n.size
decreasing_by
  exact size_lt_of_mem_children (List.mem_of_find?_eq_some _h)

theorem chainStart?_eq (n : Node) : n.chainStart? =
    if n.kind = .memberExpression then (n.child? .object).bind chainStart? else some n := by
  rw [chainStart?]
  split
  · split
    · rename_i c hc
      rw [hc]
      rfl
    · rename_i hc
      rw [hc]
      rfl
  · rfl

/-- Whether a value is a call of the method `emitted`. -/
def callsEmitted (n : Node) : Except Failure Bool :=
  if n.kind = .callExpression then
    match n.child? .function with
    | some f => do return (← f.propertyName?) = some "emitted"
    | none => .ok false
  else .ok false

/-- Whether a chain of members starts from an expectation of emitted events. -/
def expectsEmitted (n : Option Node) : Except Failure Bool :=
  match n.bind chainStart? with
  | none => .ok false
  | some start =>
    if start.kind = .callExpression ∧ start.calleeName? = some "expect" then
      match start.callArguments with
      | a :: _ => a.unwrap.callsEmitted
      | [] => .ok false
    else .ok false

/-- What a call of a method mentions. -/
def methodSightings (call method : Node) : Except Failure Evidence := do
  match ← method.propertyName?, call.callArguments with
  | some name, a :: _ =>
    if name = "setProps" then
      if a.unwrap.kind = .object then return (← a.unwrap.memberNames).map inputOrEvent else return []
    else if name = "emitted" then
      return sightings .events (← a.stringValue).toList
    else if name = "toHaveProperty" then
      match ← a.stringValue with
      | some event =>
        return if ← expectsEmitted (method.child? .object) then [⟨.events, event⟩] else []
      | none => return []
    else return []
  | _, _ => return []

/-- What a call mentions. -/
def callSightings (mounts : List Text) (call : Node) : Except Failure Evidence :=
  if call.calleeName?.any mounts.contains then call.mountSightings
  else
    match call.child? .function with
    | some f => if f.kind = .memberExpression then call.methodSightings f else .ok []
    | none => .ok []

/-! ## Members -/

/-- Whether a value is the collection of all emitted events: a call of `emitted` without
arguments, perhaps in parentheses. -/
def isEmittedCollection (value : Node) : Except Failure Bool :=
  let call := value.unbracket
  match call.kind, call.child? .function with
  | .callExpression, some f =>
    if f.kind = .memberExpression ∧ call.callArguments.isEmpty then do
      return (← f.propertyName?) = some "emitted"
    else .ok false
  | _, _ => .ok false

/-- The sighting of a property under a category, if it has a name. -/
def propertySighting (c : Category) (access : Node) : Except Failure Evidence := do
  return sightings c ((← access.propertyName?).toList.filter (!·.isEmpty))

/-- What reading a member mentions: an emitted event or a member of an instance. -/
def accessSightings (instances : List Text) (access : Node) : Except Failure Evidence :=
  match access.child? .object with
  | none => .ok []
  | some object => do
    let event ← if ← object.isEmittedCollection then access.propertySighting .events else pure []
    let member ← if ← object.isInstance instances then access.propertySighting .exposed else pure []
    return event ++ member

/-- The name that a member of a pattern takes out of an instance. -/
def patternName? (m : Node) : Except Failure (Option Text) := do
  match ← m.memberName? with
  | some name => return some name
  | none =>
    if m.kind = .objectAssignmentPattern then
      match m.child? .left with
      | some left => left.memberName?
      | none => return none
    else return none

/-- What destructuring an instance mentions. -/
def destructuringSightings (instances : List Text) (declarator : Node) : Except Failure Evidence :=
  match declarator.child? .name, declarator.child? .value with
  | some target, some value =>
    if target.kind = .objectPattern then do
      if ← value.isInstance instances then
        let names := (← target.namedChildren.mapM patternName?).filterMap id
        return sightings .exposed (names.filter (!·.isEmpty))
      else return []
    else .ok []
  | _, _ => .ok []

/-! ## Elements -/

/-- Whether a tag is that of a component: its name begins with a capital or has a dot. -/
def isComponentTag (tag : Node) : Bool :=
  (tag.child? .name).any fun n => n.name.head?.any CodePoint.isCapital || n.name.contains '.'

/-- The object in the braces of an attribute's value. -/
def embeddedObject? (value : Option Node) : Option Node :=
  match value with
  | some v =>
    if v.kind = .jsxExpression then
      (v.namedChildren.head?.map unwrap).filter (·.kind == .object)
    else none
  | none => none

/-- What an attribute of a component's tag mentions. -/
def attributeSightings (n : Node) : Except Failure Evidence :=
  if n.kind ≠ .jsxAttribute then .ok []
  else
    match n.namedChildren with
    | [] => .ok []
    | key :: values =>
      let name := key.name
      if name = "v-slots" then
        match embeddedObject? values.head? with
        | some object => do return sightings .slots (← object.memberNames)
        | none => .ok []
      else if name = modelDirective ∨ name.startsWith "v-model:" ∨ name.startsWith "v-model_" then
        .ok (modelSightings name)
      else .ok [inputOrEvent name]

/-- What the tag of a component mentions. -/
def tagSightings (tag : Node) : Except Failure Evidence := do
  if tag.isComponentTag then return (← tag.namedChildren.mapM attributeSightings).flatten
  else return []

/-- The slots that a child of a component's element fills. -/
def childSlots (child : Node) : Except Failure (List Text) :=
  match child.kind with
  | .jsxText => .ok (if child.name.isBlank then [] else [Template.defaultSlot])
  | .jsxElement | .jsxSelfClosingElement => .ok [Template.defaultSlot]
  | .jsxExpression =>
    match child.namedChildren with
    | [] => .ok []
    | e :: _ =>
      if e.unwrap.kind = .object then e.unwrap.memberNames else .ok [Template.defaultSlot]
  | _ => .ok []

/-- What an element with children mentions. -/
def elementSightings (element : Node) : Except Failure Evidence :=
  match element.child? .openTag with
  | none => .ok []
  | some tag =>
    if tag.isComponentTag then do
      let attributes ← tag.tagSightings
      let slots ← element.namedChildren.mapM childSlots
      return attributes ++ sightings .slots slots.flatten
    else .ok []

/-! ## The whole script -/

/-- What a node mentions by itself. -/
def nodeSightings (mounts instances : List Text) (n : Node) : Except Failure Evidence :=
  match n.kind with
  | .callExpression => n.callSightings mounts
  | .memberExpression | .subscriptExpression => n.accessSightings instances
  | .variableDeclarator => n.destructuringSightings instances
  | .jsxElement => n.elementSightings
  | .jsxSelfClosingElement => n.tagSightings
  | _ => .ok []

/-- What a script mentions, given the words that mount components. -/
def evidence (mounts : List Text) (root : Node) : Except Failure Evidence := do
  let instances ← root.instanceWords mounts
  return (← root.descendants.mapM (nodeSightings mounts instances)).flatten

end SurfaceCoverage.Node
