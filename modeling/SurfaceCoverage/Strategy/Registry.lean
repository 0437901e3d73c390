import SurfaceCoverage.Lookup.Search
import SurfaceCoverage.MemberList
/-!
# Registries of strategies

A registry holds the strategies of a category. It is put in the order of dispatch when its strategies
are asked for, in place and only if one was registered since: by priority, the highest first, then by
name, and equal ones as they were registered. What is no strategy is rejected.

The first strategy that finds names wins.
-/

namespace SurfaceCoverage

/-- What can be handed to a registry. -/
inductive Registrant (α : Type) where
  | strategy (a : α)
  /-- A value of another type, which is shown as it is. -/
  | other (type : Text)

/-- The entries of a registry, and whether they are in the order of dispatch. -/
structure Registry (α : Type) where
  entries : List α := []
  sorted : Bool := true

namespace Registry

/-- What is said of a value that is no strategy. -/
def rejection (type : Text) : Text :=
  ("Strategy must be an ExtractionStrategy instance, got " : Text) ++ type

/-- What is asked of a registry. -/
inductive Call (α : Type) where
  | register (x : Registrant α)
  | list

/-- What a registry answers. -/
inductive Reply (α : Type) where
  | registered
  | rejected (message : Text)
  | listed (entries : List α)

variable {α : Type}

/-- A registry with another entry at its end. -/
def add (r : Registry α) (a : α) : Registry α := ⟨r.entries ++ [a], false⟩

section
variable (priority : α → Int) (name : α → Text)

/-- Whether one entry may stand before another. -/
def inOrder (a b : α) : Bool :=
  priority b < priority a || (priority a == priority b && !(name b).precedes (name a))

/-- Puts an entry before the first one that it may stand before. -/
def place (a : α) : List α → List α
  | [] => [a]
  | b :: bs => if inOrder priority name a b then a :: b :: bs else b :: place a bs

/-- Entries in the order of dispatch, equal ones as they come. -/
def sort (as : List α) : List α := as.foldr (place priority name) []

/-- A registry in the order of dispatch. -/
def inDispatchOrder (r : Registry α) : Registry α :=
  if r.sorted then r else ⟨sort priority name r.entries, true⟩

/-- The answer to a call, and the registry after it. -/
def call (r : Registry α) : Call α → Reply α × Registry α
  | .register (.strategy a) => (.registered, r.add a)
  | .register (.other type) => (.rejected (rejection type), r)
  | .list =>
    let r := inDispatchOrder priority name r
    (.listed r.entries, r)

/-- A registry after several calls. -/
def after (r : Registry α) (calls : List (Call α)) : Registry α :=
  calls.foldl (fun r c => (call priority name r c).2) r

end

/-- The names that the first successful one of some strategies finds. -/
def firstNames (extract : α → Search MemberList) : List α → Search MemberList
  | [] => return ∅
  | a :: as => do
    let names ← extract a
    if names.isEmpty then firstNames extract as else return names

/-- The names that the strategies of a registry find. -/
def names (priority : α → Int) (name : α → Text) (extract : α → Search MemberList)
    (r : Registry α) : Search MemberList :=
  firstNames extract (inDispatchOrder priority name r).entries

end Registry
end SurfaceCoverage
