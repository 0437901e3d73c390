import SurfaceCoverage.Lookup.Trail
/-!
# Guards

A guard is a trail on which visits are begun and ended one by one. A visit is open from its beginning
to its end, whether it was allowed or refused, and of the open visits the innermost is ended first.
The visits under way are kept twice: the chain keeps their order, and a set of them tells whether a
visit is one of them.
-/

namespace SurfaceCoverage

/-- A visit that was begun and is not over, whether it was allowed, and the cuts counted by then. -/
structure OpenVisit where
  visit : Visit
  allowed : Bool
  cuts : Nat

/-- A trail with the set of the visits under way and the visits that are open, the innermost first. -/
structure Guard extends Trail where
  active : List Visit := []
  opened : List OpenVisit := []

namespace Guard

/-- Begins a visit, if it is allowed. -/
def enter (g : Guard) (v : Visit) : Bool × Guard :=
  if g.isAbsent v then (false, { g with opened := ⟨v, false, g.cuts⟩ :: g.opened })
  else if g.active.contains v || g.limit ≤ g.depth then
    (false, { g with cuts := g.cuts + 1, opened := ⟨v, false, g.cuts + 1⟩ :: g.opened })
  else
    (true, { g with
      chain := v :: g.chain
      active := v :: g.active
      opened := ⟨v, true, g.cuts⟩ :: g.opened })

/-- Ends the innermost visit, if one is open. -/
def leave (g : Guard) : Guard :=
  match g.opened with
  | [] => g
  | o :: os =>
    if o.allowed then
      { g with chain := g.chain.tail, active := g.active.filter (· != o.visit), opened := os }
    else { g with opened := os }

/-- Remembers a visit as absent if nothing was cut since the given count. -/
def mark (g : Guard) (v : Visit) (cutsBefore : Int) : Guard :=
  { g with toTrail := g.toTrail.markAbsent v cutsBefore }

/-- What can be done to a guard. -/
inductive Step where
  | enter (v : Visit)
  | leave
  | mark (v : Visit) (cutsBefore : Int)

def step (g : Guard) : Step → Guard
  | .enter v => (g.enter v).2
  | .leave => g.leave
  | .mark v cutsBefore => g.mark v cutsBefore

def run (g : Guard) (steps : List Step) : Guard := steps.foldl step g

/-- Ends all visits that are open. -/
def closeAll (g : Guard) : Guard := g.opened.foldl (fun g _ => g.leave) g

end Guard
end SurfaceCoverage
