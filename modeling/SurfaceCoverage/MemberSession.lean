import SurfaceCoverage.MemberList
/-!
# Calls on a member list

A member list grows by calls while iterations over it are under way. An iteration takes the names that
the list holds when it begins and gives them one by one.
-/

namespace SurfaceCoverage

/-- A member list, and of each iteration that was begun the names that it has still to give. -/
structure MemberSession where
  members : MemberList
  iterations : List (List Text) := []

namespace MemberSession

/-- What can be called. Iterations have numbers in the order of their beginnings. -/
inductive Call where
  | add (t : Text)
  | extend (ts : List Text)
  | iterate
  | next (iteration : Nat)
deriving DecidableEq

/-- What a call answers: nothing, whether a name was added, or a name if there is one left. -/
inductive Answer where
  | nothing
  | added (b : Bool)
  | given (t : Option Text)
deriving DecidableEq

/-- The session of a list that is made of names. -/
def start (ts : List Text) : MemberSession := { members := .ofList ts }

/-- A call's effect and its answer. -/
def call (s : MemberSession) : Call → MemberSession × Answer
  | .add t => ({ s with members := s.members.add t }, .added (s.members.admits t))
  | .extend ts => ({ s with members := s.members.extend ts }, .nothing)
  | .iterate => ({ s with iterations := s.iterations ++ [s.members.toList] }, .nothing)
  | .next k =>
    ({ s with iterations := s.iterations.modify k List.tail }, .given (s.iterations[k]?.bind List.head?))

/-- The session behind calls in turn. -/
def after (s : MemberSession) (calls : List Call) : MemberSession :=
  calls.foldl (fun s c => (s.call c).1) s

/-- The names that a call hands to the list. -/
def Call.names : Call → List Text
  | .add t => [t]
  | .extend ts => ts
  | .iterate | .next _ => []

/-- The calls of a loop over the names of an iteration that adds a name for each. -/
def loop (k : Nat) (f : Text → Text) (ts : List Text) : List Call :=
  ts.flatMap fun t => [.next k, .add (f t)]

end MemberSession
end SurfaceCoverage
