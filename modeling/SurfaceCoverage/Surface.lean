import SurfaceCoverage.MemberList
/-!
# Surfaces and their coverage

A component's surface has four categories of names. A report lists for every name of a surface
whether it is covered, in the surface's order.
-/

namespace SurfaceCoverage

/-- What a component offers. -/
inductive Category where
  | inputs
  | events
  | slots
  | exposed
deriving DecidableEq

namespace Category

/-- The categories in the order of reports. -/
def all : List Category := [inputs, events, slots, exposed]

/-- The name of a category. -/
def key : Category → String
  | inputs => "inputs"
  | events => "events"
  | slots => "slots"
  | exposed => "exposedMembers"

def ofKey? (key : String) : Option Category := all.find? (·.key == key)

end Category

/-- Something for each category. -/
structure PerCategory (α : Type) where
  inputs : α
  events : α
  slots : α
  exposed : α

namespace PerCategory

variable {α β : Type}

def get (p : PerCategory α) : Category → α
  | .inputs => p.inputs
  | .events => p.events
  | .slots => p.slots
  | .exposed => p.exposed

def ofFunction (f : Category → α) : PerCategory α :=
  ⟨f .inputs, f .events, f .slots, f .exposed⟩

end PerCategory

/-- The names that a component declares. -/
abbrev Surface := PerCategory MemberList

namespace Surface

/-- The surface of lists of names. -/
def ofLists (f : Category → List Text) : Surface := PerCategory.ofFunction fun c => MemberList.ofList (f c)

def isEmpty (s : Surface) : Bool := Category.all.all fun c => (s.get c).isEmpty

/-- The names of a surface under the keys of their categories. -/
def fields (s : Surface) : List (String × List Text) :=
  Category.all.map fun c => (c.key, (s.get c).toList)

/-- The surface of the names under the keys of categories; a key that is missing has none. -/
def ofFields (data : List (String × List Text)) : Surface :=
  ofLists fun c => (data.lookup c.key).getD []

end Surface

/-- A declared name, and whether it is covered. -/
structure Entry where
  name : Text
  covered : Bool

/-- The entries of each category of a surface. -/
abbrev Report := PerCategory (List Entry)

namespace Report

def total (r : Report) (c : Category) : Nat := (r.get c).length

def covered (r : Report) (c : Category) : Nat := (r.get c).countP (·.covered)

end Report

/-- A component's file and name, and the report on its surface. -/
structure Coverage where
  file : String
  name : String
  report : Report

namespace Coverage

def total (c : Coverage) : Nat := (Category.all.map c.report.total).foldr (· + ·) 0

def covered (c : Coverage) : Nat := (Category.all.map c.report.covered).foldr (· + ·) 0

end Coverage
end SurfaceCoverage
