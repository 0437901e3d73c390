import SurfaceCoverage.Names.Items
import SurfaceCoverage.Lookup.Search
import SurfaceCoverage.MemberList
/-!
# Expansion of declarations

The names of a declaration are its items in order, each reference replaced by the names of the
declaration it leads to. A reference that leads nowhere contributes nothing.

References can lead back to one that is being expanded, and then the expansion would never end and
fails. An open reference comes back for good when nothing was learnt about absent lookups in
between. There are only so many nodes that an expansion can be in, which bounds how deep it nests.
-/

namespace SurfaceCoverage

namespace Workspace

/-- The number of nodes of a file's script, if it has no faults. -/
def fileSize (w : Workspace) (place : List String) : Nat :=
  match w.load (Path.toString ⟨true, place⟩) with
  | .ok (some scope) => scope.root.size
  | _ => 0

/-- The number of nodes of all scripts of a project. -/
def nodeCount (w : Workspace) : Nat := (w.project.files.map fun f => w.fileSize f.1).foldr (· + ·) 0

end Workspace

/-- A reference of a module, and how many lookups were known to be absent when it was met. -/
structure Reference where
  path : Option String
  meaning : Meaning
  word : Text
  absent : Nat
deriving DecidableEq

namespace Search

/-- The names of items, with a way to expand references. -/
def itemNames (refer : Meaning → Text → Search (List Text)) : List Item → Search (List Text)
  | [] => return []
  | item :: items => do
    let names ← match item with
      | .name t => pure [t]
      | .literal n => do pure (← ofExcept n.stringValue).toList
      | .member n => do pure (← ofExcept n.memberName?).toList
      | .reference meaning word => refer meaning word
    return names ++ (← itemNames refer items)

/-- The references that are open once a word of a scope is followed as well. Fails if it comes back
for good: a path has at most two scopes, that of the analysed text and that of the file, so that the
third time is in a scope of before. -/
def follow (opened : List Reference) (scope : Scope) (meaning : Meaning) (word : Text) :
    Search (List Reference) := do
  let r : Reference := ⟨scope.path, meaning, word, (← get).trail.absent.length⟩
  if 2 ≤ opened.count r then fail .endless else return r :: opened

/-- The names of the declaration that a word of a scope stands for, with references nested to a
depth inside those that are open. -/
def expandTo (w : Workspace) : Nat → List Reference → Scope → Meaning → Text → Search (List Text)
  | depth, opened, scope, meaning, word => do
    let opened ← follow opened scope meaning word
    match ← find w (.word scope meaning word) with
    | none => return []
    | some d =>
      match depth with
      | 0 => fail .endless
      | depth + 1 => itemNames (expandTo w depth opened d.scope) (d.node.items meaning)

/-- How deep references nest at most before an expansion is in a node twice. -/
def depthBound (w : Workspace) (scope : Scope) : Nat := scope.root.size + w.nodeCount + 1

/-- The names that items of a scope contribute. -/
def namesOf (w : Workspace) (scope : Scope) (items : List Item) : Search MemberList := do
  return MemberList.ofList (← itemNames (expandTo w (depthBound w scope) [] scope) items)

/-- The names of a value in a scope. -/
def valueNames (w : Workspace) (scope : Scope) (n : Node) : Search MemberList :=
  namesOf w scope n.valueItems

/-- The names of a type in a scope. -/
def typeNames (w : Workspace) (scope : Scope) (n : Node) : Search MemberList :=
  namesOf w scope n.typeItems

/-- The names of the declaration that a word stands for. -/
def wordNames (w : Workspace) (scope : Scope) (word : Text) : Search MemberList :=
  namesOf w scope [.reference .value word]

end Search
end SurfaceCoverage
