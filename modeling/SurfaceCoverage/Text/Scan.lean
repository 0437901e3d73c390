/-!
# Scans of a sequence

`scan` collects the matches of a pattern from left to right, each behind the last one. A pattern
sees the element before its place and says what it matched and how many elements that took.
-/

namespace SurfaceCoverage.Scan

variable {α β : Type}

/-- What a pattern matches at a place, given the element before it, with the length of the match. -/
abbrev Pattern (α β : Type) := Option α → List α → Option (β × Nat)

/-- All matches from left to right, behind `skip` elements; a match takes at least one element. -/
def all (p : Pattern α β) (previous : Option α) (skip : Nat) : List α → List β
  | [] => []
  | a :: as =>
    match skip with
    | n + 1 => all p (some a) n as
    | 0 =>
      match p previous (a :: as) with
      | some (b, length) => b :: all p (some a) (length - 1) as
      | none => all p (some a) 0 as

/-- All matches in a sequence. -/
def scan (p : Pattern α β) (as : List α) : List β := all p none 0 as

/-- The first match in a sequence, given the element before it. -/
def firstFrom (p : Pattern α β) (previous : Option α) : List α → Option β
  | [] => (p previous []).map (·.1)
  | a :: as =>
    match p previous (a :: as) with
    | some (b, _) => some b
    | none => firstFrom p (some a) as

/-- The first match in a sequence. -/
def first (p : Pattern α β) (as : List α) : Option β := firstFrom p none as

/-- A sequence without the matches of a pattern, from left to right, behind `skip` elements. -/
def removeFrom (p : Pattern α β) (previous : Option α) (skip : Nat) : List α → List α
  | [] => []
  | a :: as =>
    match skip with
    | n + 1 => removeFrom p (some a) n as
    | 0 =>
      match p previous (a :: as) with
      | some (_, length) => removeFrom p (some a) (length - 1) as
      | none => a :: removeFrom p (some a) 0 as

/-- A sequence without the matches of a pattern. -/
def remove (p : Pattern α β) (as : List α) : List α := removeFrom p none 0 as

/-- What is left behind a word, each of its letters compared by `same`. -/
def behind? (same : Char → α → Bool) : List Char → List α → Option (List α)
  | [], as => some as
  | _ :: _, [] => none
  | c :: cs, a :: as => if same c a then behind? same cs as else none

/-- The elements before the first place where a test succeeds, and those from there on. -/
def splitWhere? (test : List α → Bool) (before : List α) : List α → Option (List α × List α)
  | [] => if test [] then some (before.reverse, []) else none
  | a :: as =>
    if test (a :: as) then some (before.reverse, a :: as) else splitWhere? test (a :: before) as

/-- The number of elements before the last place where a test succeeds. -/
def lastWhere? (test : List α → Bool) (n : Nat) (found : Option Nat) : List α → Option Nat
  | [] => if test [] then some n else found
  | a :: as => lastWhere? test (n + 1) (if test (a :: as) then some n else found) as

end SurfaceCoverage.Scan
