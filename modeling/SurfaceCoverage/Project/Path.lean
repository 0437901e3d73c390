/-!
# Paths

A path is absolute or not, and a list of segments. Empty segments and single dots leave no trace;
two dots stay until a path is made canonical. A suffix begins at the last dot of the last segment,
unless the dot is the segment's first or last character.
-/

namespace SurfaceCoverage

structure Path where
  absolute : Bool
  segments : List String
deriving DecidableEq

namespace Path

def ofString (s : String) : Path :=
  let pieces := (s.toList.splitOn '/').map String.ofList
  ⟨s.startsWith "/", pieces.filter fun p => p != "" && p != "."⟩

def toString (p : Path) : String :=
  let joined := String.intercalate "/" p.segments
  if p.absolute then "/" ++ joined else if joined.isEmpty then "." else joined

/-- The last segment, empty if there is none. -/
def name (p : Path) : String := p.segments.getLast?.getD ""

def parent (p : Path) : Path := ⟨p.absolute, p.segments.dropLast⟩

/-- A path from another one on; an absolute path stands for itself. -/
def join (base p : Path) : Path := if p.absolute then p else ⟨base.absolute, base.segments ++ p.segments⟩

/-- A name cut at its suffix: the part before it, and the suffix from its dot on. -/
def splitName (name : String) : String × String :=
  let cs := name.toList
  let suffix := (cs.reverse.takeWhile (· != '.')).reverse
  let n := cs.length - suffix.length
  if suffix.isEmpty ∨ n ≤ 1 then (name, "")
  else (String.ofList (cs.take (n - 1)), String.ofList ('.' :: suffix))

/-- The last segment without its suffix. -/
def stem (p : Path) : String := (splitName p.name).1

def suffix (p : Path) : String := (splitName p.name).2

/-- Segments with every pair of dots taken back together with the segment before it. -/
def canonical (base : List String) : List String → List String
  | [] => base
  | s :: ss => canonical (if s = ".." then base.dropLast else base ++ [s]) ss

/-- The canonical segments of a path that starts in a directory. -/
def resolveIn (directory : List String) (p : Path) : List String :=
  canonical (if p.absolute then [] else directory) p.segments

end Path
end SurfaceCoverage
