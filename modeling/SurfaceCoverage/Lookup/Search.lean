import SurfaceCoverage.Lookup.Candidates
import SurfaceCoverage.Lookup.Trail
import SurfaceCoverage.Project.Resolution
/-!
# Searches across modules

A search follows a name from module to module until it meets a declaration: the candidates of the
module at hand are tried in order and the first one that leads to a declaration wins. A missing or
faulty module, a package, and an import of all exports together lead nowhere.

The trail refuses a search that is under way already. Its limit bounds how deep searches nest, and
the recursion is on the room that the limit leaves.
-/

namespace SurfaceCoverage

/-- What a search can read, and how it infers files. -/
structure Workspace where
  project : Project
  extensions : List String
  sizeLimit : Int

/-- The trail of an analysis, and the paths read so far, the last one first. -/
structure SearchState where
  trail : Trail
  reads : List String := []

/-- A computation along a trail. -/
abbrev Search := StateT SearchState (Except Failure)

/-- What is searched: an export of the module at a path, or a word of a scope. -/
inductive Query where
  | exported (path : String) (meaning : Meaning) (name : Text)
  | word (scope : Scope) (meaning : Meaning) (name : Text)

namespace Query

/-- The visit that stands for a query on the trail. Its key is the name behind words for the kind
of the query. -/
def visit : Query → Visit
  | exported path .value name => ⟨path, name⟩
  | exported path .type name => ⟨path, Text.ofString "type " ++ name⟩
  | word scope .value name => ⟨Module.shownPath scope.path, Text.ofString "local " ++ name⟩
  | word scope .type name => ⟨Module.shownPath scope.path, Text.ofString "local type " ++ name⟩

end Query

namespace Workspace

/-- The scope of the module at a path, if it can be read and has no faults. -/
def load (w : Workspace) (path : String) : Except Failure (Option Scope) :=
  match (w.project.read w.sizeLimit path).bind (Module.parse? · (some path)) with
  | some m => do return some (← Scope.ofModule m)
  | none => .ok none

/-- The path of the module that an import of a scope names. -/
def resolve (w : Workspace) (scope : Scope) (specifier : Text) : Except Failure (Option String) :=
  match specifier.toString? with
  | some s => w.project.resolve w.extensions s (scope.module.directory w.project.directory)
  | none =>
    if specifier.startsWith "." || specifier.startsWith "/" then .error .unencodable else .ok none

end Workspace

namespace Search

def fail {α} (f : Failure) : Search α := fun _ => .error f

def ofExcept {α} (e : Except Failure α) : Search α := fun s => e.map (·, s)

def modifyTrail (f : Trail → Trail) : Search Unit := modify fun s => { s with trail := f s.trail }

/-- Runs a search under a visit, unless the trail refuses the visit. A search that comes back empty
is marked as absent. -/
def visiting {α} (v : Visit) (body : Search (Option α)) : Search (Option α) := do
  let (allowed, trail) := (← get).trail.enter v
  modifyTrail fun _ => trail
  if allowed then
    let found ← body
    if found.isNone then modifyTrail (·.markAbsent v trail.cuts)
    modifyTrail Trail.leave
    return found
  else return none

/-- The first candidate's result that is there. -/
def firstFound {α β} (try_ : α → Search (Option β)) : List α → Search (Option β)
  | [] => return none
  | a :: as => do
    match ← try_ a with
    | some b => return some b
    | none => firstFound try_ as

/-- Reads and parses the module at a path. -/
def load (w : Workspace) (path : String) : Search (Option Scope) := do
  modify fun s => { s with reads := path :: s.reads }
  ofExcept (w.load path)

/-- The scope of a query and its candidates there; nothing if the module cannot be loaded. -/
def expand (w : Workspace) : Query → Search (Option (Scope × List Candidate))
  | .exported path meaning name => do
    return (← load w path).map fun scope => (scope, Scope.exportCandidates scope.root meaning name)
  | .word scope meaning name => return some (scope, scope.localCandidates meaning name)

/-- The query that an import of a scope leads to. -/
def importQuery (w : Workspace) (scope : Scope) (meaning : Meaning) (i : Import) :
    Search (Option Query) :=
  if i.exported = allExports then return none
  else do return (← ofExcept (w.resolve scope i.specifier)).map (Query.exported · meaning i.exported)

def meaningOf : Query → Meaning
  | .exported _ m _ => m
  | .word _ m _ => m

/-- Searches with room for a number of nested searches. -/
def run (w : Workspace) : Nat → Query → Search (Option Declaration)
  | room, query => visiting query.visit do
    match room with
    | 0 => return none
    | room + 1 =>
      match ← expand w query with
      | none => return none
      | some (scope, candidates) =>
        firstFound (fun
          | .here n => return some ⟨n, scope⟩
          | .sibling word => run w room (.word scope (meaningOf query) word)
          | .elsewhere i => do
            match ← importQuery w scope (meaningOf query) i with
            | some q => run w room q
            | none => return none
          | .fault f => fail f) candidates

/-- Searches with all the room that the trail leaves. -/
def find (w : Workspace) (query : Query) : Search (Option Declaration) := do
  run w (← get).trail.room query

/-- Searches for what an import of a scope stands for. -/
def findImport (w : Workspace) (scope : Scope) (meaning : Meaning) (i : Import) :
    Search (Option Declaration) := do
  match ← importQuery w scope meaning i with
  | some q => find w q
  | none => return none

end Search
end SurfaceCoverage
