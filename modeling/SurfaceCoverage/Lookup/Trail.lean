import SurfaceCoverage.Text
/-!
# Trails

A trail holds the lookups that are under way, the innermost first. A lookup that is already under
way, or that would make the trail longer than its limit, is refused and counted as cut. A lookup
that came back empty while nothing was cut is remembered as absent and refused from then on.

A lookup is known by the path of a module and a key.
-/

namespace SurfaceCoverage

/-- A module's path and what is looked up in it. -/
structure Visit where
  path : String
  key : Text
deriving DecidableEq

/-- The lookups under way, those known to be absent, and the number of lookups cut. -/
structure Trail where
  limit : Int
  chain : List Visit := []
  absent : List Visit := []
  cuts : Nat := 0

namespace Trail

def depth (t : Trail) : Nat := t.chain.length

def isAbsent (t : Trail) (v : Visit) : Bool := t.absent.contains v

/-- How many more lookups the limit allows. -/
def room (t : Trail) : Nat := (t.limit - t.depth).toNat

/-- Begins a lookup, if it is allowed. -/
def enter (t : Trail) (v : Visit) : Bool × Trail :=
  if t.isAbsent v then (false, t)
  else if t.chain.contains v || t.limit ≤ t.depth then (false, { t with cuts := t.cuts + 1 })
  else (true, { t with chain := v :: t.chain })

/-- Ends the innermost lookup. -/
def leave (t : Trail) : Trail := { t with chain := t.chain.tail }

/-- Remembers a lookup as absent if nothing was cut since the given count. -/
def markAbsent (t : Trail) (v : Visit) (cutsBefore : Int) : Trail :=
  if t.cuts = cutsBefore ∧ !t.isAbsent v then { t with absent := v :: t.absent } else t

end Trail
end SurfaceCoverage
