import SurfaceCoverage.Yaml.Constant
import SurfaceCoverage.Yaml.Node
/-!
# Values of nodes

A collection is built before what stands in its collections, so of several faults the one of least
depth counts, and of those the first.

Behind a merge key stands a mapping, or a sequence of them, whose entries come before the mapping's
own; what is written earlier in the sequence counts more. A cycle adds nothing to its own mapping.
-/

namespace SurfaceCoverage.Yaml

/-! ## Faults and their depth -/

/-- A result, or a fault and how many collections it is inside of. -/
abbrev Outcome (α : Type) := Except (Nat × Fault) α

namespace Outcome

variable {α β : Type}

/-- The outcome of something that needs no collection. -/
def here : Except Fault α → Outcome α
  | .ok a => .ok a
  | .error f => .error (0, f)

/-- The outcome of what stands in a collection. -/
def inside : Outcome α → Outcome α
  | .ok a => .ok a
  | .error (n, f) => .error (n + 1, f)

/-- Two outcomes; of two faults the deeper one is left out. -/
def both : Outcome α → Outcome β → Outcome (α × β)
  | .ok a, .ok b => .ok (a, b)
  | .error e, .ok _ => .error e
  | .ok _, .error e => .error e
  | .error d, .error e => .error (if e.1 < d.1 then e else d)

/-- All outcomes of a list. -/
def all : List (Outcome α) → Outcome (List α)
  | [] => .ok []
  | o :: os => (both o (all os)).map fun (a, as) => a :: as

end Outcome

/-! ## Nodes -/

/-- The outcomes of keys and values. -/
abbrev Entries := List (Outcome Value × Outcome Value)

/-- What is known of a node. -/
structure Built where
  tag : Tag
  value : Outcome Value
  /-- The text of a scalar, or of the scalar that a mapping stands for. -/
  text? : Option Text := none
  /-- The entries of a mapping, with those merged into it. -/
  entries? : Option (Except Fault Entries) := none
  /-- The key and the value of a mapping of one entry. -/
  single? : Option (Outcome Value × Outcome Value) := none
  /-- The entries behind a merge key. -/
  merged : Except Fault Entries := .error .malformed

namespace Built

/-- A key's outcome: a collection is no key, whatever is in it. -/
def asKey : Outcome Value → Outcome Value
  | .ok v => if v.isKey then .ok v else .error (0, .malformed)
  | .error (0, f) => .error (0, f)
  | .error (_ + 1, _) => .error (0, .malformed)

/-- The entries of a mapping's value: each key once. -/
def keyed (es : Entries) : Outcome (List (Value × Value)) :=
  (Outcome.all (es.map fun (k, v) => Outcome.both (asKey k) v)).map fun es =>
    es.foldl (fun done (k, v) => Value.put done k v) []

/-- The outcome of an entry's key. The key of a scalar that a mapping stands for is a text like
others. -/
def keyOf (b : Built) : Outcome Value :=
  if b.tag = .scalar then
    match b.text? with
    | some t => .ok (.text t)
    | none => .error (0, .malformed)
  else b.value

/-- The own entries of a mapping, and before them those merged into it. -/
def mergedEntries (es : List (Built × Built)) : Except Fault Entries := do
  let merged ← (es.filter (·.1.tag = .merge)).mapM (·.2.merged)
  let own := (es.filter (·.1.tag ≠ .merge)).map fun (k, v) => (k.keyOf, v.value)
  return merged.flatten ++ own

/-- The text of the scalar that a mapping stands for. -/
def scalarText? (es : List (Built × Built)) : Option Text :=
  (es.find? (·.1.tag = .scalar)).bind (·.2.text?)

/-- The value of a scalar's text, if there is one. -/
def scalarValue (tag : Tag) (text? : Option Text) : Outcome Value :=
  match text? with
  | some t => Outcome.here (tag.value t)
  | none => .error (0, .malformed)

/-- What is missing for the value of a collection. -/
def unsuitable : Outcome Value := .error (1, .malformed)

def scalar (tag : Tag) (t : Text) : Built where
  tag := tag
  value := if [Tag.list, .mapping, .set, .pairs].contains tag then unsuitable else scalarValue tag (some t)
  text? := some t

def sequence (tag : Tag) (items : List Built) : Built where
  tag := tag
  value := match tag with
    | .list => .list <$> (Outcome.all (items.map (·.value))).inside
    | .pairs =>
      let pair (b : Built) : Outcome Value := match b.single? with
        | some (k, v) => (Outcome.both k v).map fun (k, v) => .pair k v
        | none => .error (0, .malformed)
      .list <$> (Outcome.all (items.map pair)).inside
    | .mapping | .set => unsuitable
    | _ => .error (0, .malformed)
  merged := do
    let parts ← items.mapM fun b => b.entries?.getD (.error .malformed)
    return parts.reverse.flatten

def mapping (tag : Tag) (es : List (Built × Built)) : Built where
  tag := tag
  value :=
    let entries : Outcome (List (Value × Value)) := do
      keyed (← Outcome.here (mergedEntries es))
    match tag with
    | .mapping => .mapping <$> entries.inside
    | .set => (fun es => .set (es.map (·.1))) <$> entries.inside
    | .list | .pairs => unsuitable
    | _ => scalarValue tag (scalarText? es)
  text? := scalarText? es
  entries? := some (mergedEntries es)
  single? := match es with
    | [(k, v)] => some (k.value, v.value)
    | _ => none
  merged := mergedEntries es

/-- A node that the node is itself inside of. -/
def cycle : Built where
  tag := .unknown
  value := .ok .cycle
  entries? := some (.ok [])
  merged := .ok []

end Built

namespace Node

mutual
def build : Node → Built
  | scalar tag t => .scalar tag t
  | sequence tag items => .sequence tag (buildAll items)
  | mapping tag es => .mapping tag (buildEntries es)
  | cycle => .cycle

def buildAll : List Node → List Built
  | [] => []
  | n :: ns => build n :: buildAll ns

def buildEntries : List (Node × Node) → List (Built × Built)
  | [] => []
  | (k, v) :: es => (build k, build v) :: buildEntries es
end

/-- The value of a node. -/
def value (n : Node) : Except Fault Value := n.build.value.mapError (·.2)

end Node
end SurfaceCoverage.Yaml
