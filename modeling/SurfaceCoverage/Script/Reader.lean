import SurfaceCoverage.Tree.Node
/-!
# Readers

A reader takes a beginning of the characters that are left and gives the trees it has read, or
refuses. Choice tries its second reader from the same place, so nothing a refusing reader took is
lost. Repetition stops when a round takes no character; the count of characters left bounds it.
-/

namespace SurfaceCoverage.Script

/-- The two dialects of scripts: type assertions in angle brackets, or elements in them. -/
inductive Dialect where
  | typescript
  | tsx
deriving DecidableEq

/-- The characters that are left, and how many they are. -/
structure Cursor where
  rest : List Char
  left : Nat

/-- Takes a beginning of the characters that are left, or refuses. -/
def Reader (α : Type) : Type := Dialect → Cursor → Option (α × Cursor)

/-- A reader of consecutive trees. -/
abbrev Forest := Reader (List Node)

namespace Reader

instance : Monad Reader where
  pure a := fun _ c => some (a, c)
  bind p f := fun d c => match p d c with
    | some (a, c) => f a d c
    | none => none

def refuse {α} : Reader α := fun _ _ => none

def orElse {α} (p : Reader α) (q : Unit → Reader α) : Reader α := fun d c =>
  match p d c with
  | some r => some r
  | none => q () d c

instance {α} : OrElse (Reader α) := ⟨orElse⟩

/-- One reader after the other, with the trees of both. -/
def followedBy (p q : Forest) : Forest := fun d c =>
  match p d c with
  | some (ns, c) =>
    match q d c with
    | some (ms, c) => some (ns ++ ms, c)
    | none => none
  | none => none

instance : Append Forest := ⟨followedBy⟩

/-- The characters that are left. -/
def rest : Reader (List Char) := fun _ c => some (c.rest, c)

def dialect : Reader Dialect := fun d c => some (d, c)

def nothing : Forest := pure []

def optional (p : Forest) : Forest := p <|> nothing

/-- Goes on only if a test on the characters left succeeds. -/
def check (test : List Char → Bool) : Forest := fun _ c =>
  if test c.rest then some ([], c) else none

/-- Goes on only in one dialect. -/
def only (dialect : Dialect) : Forest := fun d c => if d = dialect then some ([], c) else none

/-- Goes on only if a reader would refuse here. -/
def absent {α} (p : Reader α) : Forest := fun d c =>
  match p d c with
  | some _ => none
  | none => some ([], c)

/-- Splits a list after a number of elements. -/
def splitAt : Nat → List Char → List Char → List Char × List Char
  | n + 1, c :: cs, acc => splitAt n cs (c :: acc)
  | _, cs, acc => (acc.reverse, cs)

/-- Takes a number of characters. -/
def take (n : Nat) : Reader String := fun _ c =>
  let (taken, rest) := splitAt n c.rest []
  some (String.ofList taken, ⟨rest, c.left - n⟩)

/-- A leaf of as many characters as a test on the characters left allows, at least one. -/
def leaf (kind : Kind) (length : List Char → Nat) : Forest := do
  match length (← rest) with
  | 0 => refuse
  | n + 1 => return [.leaf .none kind (← take (n + 1))]

/-- Rounds of a reader on trees found so far, until it refuses or takes nothing. -/
def rounds (p : Forest) (d : Dialect) (c : Cursor) (found : Array Node) : Array Node × Cursor :=
  match p d c with
  | some (ns, c') => if c'.left < c.left then rounds p d c' (found ++ ns) else (found, c)
  | none => (found, c)
termination_by c.left

/-- A reader any number of times. -/
def many (p : Forest) : Forest := fun d c =>
  let (found, c) := rounds p d c #[]
  some (found.toList, c)

/-- Rounds of a reader that extends a tree, until it refuses or takes nothing. -/
def extend (p : Node → Reader Node) (n : Node) (d : Dialect) (c : Cursor) : Option (Node × Cursor) :=
  match p n d c with
  | some (n', c') => if c'.left < c.left then extend p n' d c' else some (n, c)
  | none => some (n, c)
termination_by c.left

/-- The last tree that a reader reads, in a part. -/
def inRole (r : Role) (p : Forest) : Forest := do
  let ns ← p
  match ns.reverse with
  | n :: before => return (n.withRole r :: before).reverse
  | [] => return []

end Reader
end SurfaceCoverage.Script
