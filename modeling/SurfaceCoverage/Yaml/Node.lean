import SurfaceCoverage.Yaml.Tag
import SurfaceCoverage.Yaml.Token
/-!
# Nodes of documents

A document is one node: a scalar, a sequence or a mapping, each with its tag. A reference stands for
the node with the anchor of its name; inside that node itself it closes a cycle.
-/

namespace SurfaceCoverage.Yaml

inductive Node where
  | scalar (tag : Tag) (text : Text)
  | sequence (tag : Tag) (items : List Node)
  | mapping (tag : Tag) (entries : List (Node × Node))
  | cycle

/-- The tokens left, the anchors so far, without a node as long as it is being read, and the
handles of tags. -/
structure Reading where
  tokens : List Token
  anchors : List (String × Option Node) := []
  handles : List (String × String) := []

abbrev Read := StateT Reading (Except Fault)

namespace Read

def malformed {α} : Read α := fun _ => .error .malformed

/-- The token here, if there is one left. -/
def peek : Read (Option Token) := return (← get).tokens.head?

def skip : Read Unit := modify fun r => { r with tokens := r.tokens.tail }

/-- Takes a token if it is here. -/
def accept (t : Token) : Read Bool := do
  if (← peek) = some t then
    skip
    return true
  else return false

/-- Whether one of some tokens is here. -/
def isAt (ts : List Token) : Read Bool := do return (← peek).any ts.contains

/-! ## Properties of nodes -/

/-- The handles that stand without a directive. -/
def standardHandles : List (String × String) := [("!", "!"), ("!!", Tag.formatStem)]

/-- The name of a tag with its handle put in. -/
def expandTag (handle : Option String) (suffix : String) : Read String := do
  match handle with
  | none => return suffix
  | some h =>
    match ((← get).handles ++ standardHandles).find? (·.1 == h) with
    | some (_, stem) => return stem ++ suffix
    | none => malformed

/-- An anchor and a tag before a node, in either order. -/
def properties : Read (Option String × Option String) := do
  match ← peek with
  | some (.anchor a) =>
    skip
    match ← peek with
    | some (.tag h s) => do
      skip
      return (some a, some (← expandTag h s))
    | _ => return (some a, none)
  | some (.tag h s) =>
    skip
    match ← peek with
    | some (.anchor a) => do
      skip
      return (some a, some (← expandTag h s))
    | _ => return (none, some (← expandTag h s))
  | _ => return (none, none)

/-- The tag of a scalar. A lone exclamation mark leaves the choice to the form of the text. -/
def scalarTag (name : Option String) (plain : Bool) (text : Text) : Tag :=
  match name with
  | none => if plain then Tag.ofPlain text else .text
  | some n => if n = "!" then Tag.ofPlain text else Tag.ofName n

/-- The tag of a collection. -/
def collectionTag (name : Option String) (default : Tag) : Tag :=
  match name with
  | none => default
  | some n => if n = "!" then default else Tag.ofName n

/-- A node that is not written. -/
def emptyNode : Node := .scalar .null []

/-- The node of a reference. -/
def refer (name : String) : Read Node := do
  match (← get).anchors.find? (·.1 == name) with
  | some (_, some n) => return n
  | some (_, none) => return .cycle
  | none => malformed

/-- Reads a node under its anchor; an anchor is used once. -/
def anchored (anchor : Option String) (read : Read Node) : Read Node := do
  match anchor with
  | none => read
  | some a =>
    if (← get).anchors.any (·.1 == a) then malformed
    modify fun r => { r with anchors := (a, none) :: r.anchors }
    let n ← read
    modify fun r => { r with anchors := (a, some n) :: r.anchors.filter (·.1 != a) }
    return n

/-! ## Collections -/

/-- Where a node stands: in a block, in a block where a sequence need not be indented, or within
brackets. -/
inductive Place where
  | block
  | blockValue
  | flow
deriving DecidableEq

/-- What ends a part of a block mapping, or a sequence in its place. -/
def mappingEnds : List Token := [.key, .value, .blockEnd]

mutual
/-- A node; the number bounds how deep and how far reading goes. -/
def node : Nat → Place → Read Node
  | 0, _ => malformed
  | fuel + 1, place => do
    match ← peek with
    | some (.reference name) =>
      skip
      refer name
    | _ =>
      let (anchor, tag) ← properties
      anchored anchor do
        match ← peek with
        | some (.scalar plain text) =>
          skip
          return .scalar (scalarTag tag plain text) text
        | some .flowSequence =>
          skip
          return .sequence (collectionTag tag .list) (← flowItems fuel true)
        | some .flowMapping =>
          skip
          return .mapping (collectionTag tag .mapping) (← flowEntries fuel true)
        | some .blockSequence =>
          if place = .flow then malformed
          skip
          return .sequence (collectionTag tag .list) (← blockItems fuel)
        | some .blockMapping =>
          if place = .flow then malformed
          skip
          return .mapping (collectionTag tag .mapping) (← blockEntries fuel)
        | t =>
          if place = .blockValue ∧ t = some .blockEntry then
            return .sequence (collectionTag tag .list) (← looseItems fuel)
          else if anchor.isSome || tag.isSome then return .scalar (scalarTag tag true []) []
          else malformed

/-- A node, or none before one of some tokens. -/
def nodeUnless : Nat → List Token → Place → Read Node
  | 0, _, _ => malformed
  | fuel + 1, ends, place => do
    if ← isAt ends then return emptyNode else node fuel place

/-- The items of an indented sequence. -/
def blockItems : Nat → Read (List Node)
  | 0 => malformed
  | fuel + 1 => do
    if ← accept .blockEntry then
      let item ← nodeUnless fuel [.blockEntry, .blockEnd] .block
      return item :: (← blockItems fuel)
    else if ← accept .blockEnd then return []
    else malformed

/-- The items of a sequence that stands at the indentation of its key. -/
def looseItems : Nat → Read (List Node)
  | 0 => malformed
  | fuel + 1 => do
    if ← accept .blockEntry then
      let item ← nodeUnless fuel (.blockEntry :: mappingEnds) .block
      return item :: (← looseItems fuel)
    else return []

/-- The entries of a block mapping. -/
def blockEntries : Nat → Read (List (Node × Node))
  | 0 => malformed
  | fuel + 1 => do
    if ← accept .key then
      let key ← nodeUnless fuel mappingEnds .blockValue
      let value ← if ← accept .value then nodeUnless fuel mappingEnds .blockValue else pure emptyNode
      return (key, value) :: (← blockEntries fuel)
    else if ← accept .blockEnd then return []
    else malformed

/-- The value behind a key within brackets. -/
def flowValue : Nat → Token → Read Node
  | 0, _ => malformed
  | fuel + 1, closing => do
    if ← accept .value then nodeUnless fuel [.flowEntry, closing] .flow else return emptyNode

/-- The items of a sequence within brackets; an item can be a mapping of one entry. -/
def flowItems : Nat → Bool → Read (List Node)
  | 0, _ => malformed
  | fuel + 1, first => do
    if ← accept .flowSequenceEnd then return []
    if !first then
      if !(← accept .flowEntry) then malformed
    if ← accept .key then
      let key ← nodeUnless fuel [.value, .flowEntry, .flowSequenceEnd] .flow
      let value ← flowValue fuel .flowSequenceEnd
      return .mapping .mapping [(key, value)] :: (← flowItems fuel false)
    else if ← accept .flowSequenceEnd then return []
    else
      let item ← node fuel .flow
      return item :: (← flowItems fuel false)

/-- The entries of a mapping within braces. -/
def flowEntries : Nat → Bool → Read (List (Node × Node))
  | 0, _ => malformed
  | fuel + 1, first => do
    if ← accept .flowMappingEnd then return []
    if !first then
      if !(← accept .flowEntry) then malformed
    if ← accept .key then
      let key ← nodeUnless fuel [.value, .flowEntry, .flowMappingEnd] .flow
      let value ← flowValue fuel .flowMappingEnd
      return (key, value) :: (← flowEntries fuel false)
    else if ← accept .flowMappingEnd then return []
    else
      let key ← node fuel .flow
      return (key, emptyNode) :: (← flowEntries fuel false)
end

/-! ## Documents -/

/-- Whether the token here is a directive. -/
def atDirective : Read Bool := do
  match ← peek with
  | some (.version _) | some (.handle ..) | some .remark => return true
  | _ => return false

/-- The directives before a document: one version at most, of the first kind, and each handle
once. -/
def directives : Nat → Bool → Read Unit
  | 0, _ => malformed
  | fuel + 1, versioned => do
    match ← peek with
    | some (.version major) =>
      if versioned || major ≠ 1 then malformed
      skip
      directives fuel true
    | some (.handle name stem) =>
      if (← get).handles.any (·.1 == name) then malformed
      modify fun r => { r with handles := (name, stem) :: r.handles }
      skip
      directives fuel versioned
    | some .remark =>
      skip
      directives fuel versioned
    | _ => return ()

/-- Marks of the end of a document. -/
def documentEnds : Nat → Read Unit
  | 0 => return ()
  | fuel + 1 => do
    if ← accept .documentEnd then documentEnds fuel

/-- The node of a document behind its mark. -/
def markedDocument (fuel : Nat) : Read Node := do
  directives fuel false
  if !(← accept .documentStart) then malformed
  if (← atDirective) || (← isAt [.documentStart, .documentEnd]) || (← peek).isNone then return emptyNode
  else node fuel .block

/-- The only document of a text, if it has one. -/
def document (fuel : Nat) : Read (Option Node) := do
  if (← peek).isNone then return none
  let marked := (← atDirective) || (← isAt [.documentStart])
  let n ← if marked then markedDocument fuel else node fuel .block
  documentEnds fuel
  if (← peek).isNone then return some n else malformed

end Read

/-- The node of a document, if the text has one. -/
def Node.ofTokens (tokens : List Token) : Except Fault (Option Node) :=
  (Read.document (4 * tokens.length + 4) { tokens }).map (·.1)

end SurfaceCoverage.Yaml
