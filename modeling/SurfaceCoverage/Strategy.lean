import SurfaceCoverage.Strategy.Options
import SurfaceCoverage.Strategy.Instance
import SurfaceCoverage.Strategy.Expose
import SurfaceCoverage.Strategy.Slots
import SurfaceCoverage.Strategy.Registry
/-!
# Strategies

A strategy is one way in which a component can declare a category of names. Strategies are tried by
priority, the highest first, and by name among equals; the first one that finds names wins.
-/

namespace SurfaceCoverage

/-- One way of declaring names. -/
inductive Strategy where
  /-- A property of a component's options. -/
  | options (names callees : List Text)
  /-- A call of a keyword. -/
  | call (keyword : Text)
  /-- A bag of the instance type. -/
  | bag (member : Text) (reserved : List Text)
  /-- What a setup function or an array exposes. -/
  | expose
  /-- The slots in use. -/
  | usage

namespace Strategy

def priority : Strategy → Int
  | options .. => 100
  | call _ => 75
  | bag .. => 50
  | expose => 25
  | usage => 10

/-- A name with what it is about in parentheses. -/
def titled (title : String) (subject : Text) : Text := title ++ ("(" : Text) ++ subject ++ (")" : Text)

def name : Strategy → Text
  | options names _ => titled "OptionsPropertyStrategy" (names.head?.getD [])
  | call keyword => titled "DeclarationCallStrategy" keyword
  | bag member _ => titled "InstanceTypeStrategy" member
  | expose => "ExposeHeuristicsStrategy"
  | usage => "SlotUsageStrategy"

/-- The names that a strategy finds in a component. -/
def extract (w : Workspace) (scope : Scope) : Strategy → Search MemberList
  | options names callees => Search.namesByOption w scope names callees
  | call keyword => Search.namesByCall w scope keyword
  | bag member reserved => Search.namesByInstance w scope member reserved
  | expose => Search.namesByExpose w scope
  | usage => Search.namesByUsage scope

end Strategy

namespace Strategy

/-- The registry of some strategies. -/
def registry (strategies : List Strategy) : Registry Strategy := strategies.foldl Registry.add {}

/-- Strategies in the order of dispatch. -/
def dispatched (strategies : List Strategy) : List Strategy :=
  (Registry.inDispatchOrder priority name (registry strategies)).entries

/-- The names that the first successful one of some strategies finds. -/
def firstNames (w : Workspace) (scope : Scope) : List Strategy → Search MemberList :=
  Registry.firstNames (extract w scope)

/-- The names that strategies find, in the order of dispatch. -/
def extractFirst (w : Workspace) (scope : Scope) (strategies : List Strategy) : Search MemberList :=
  firstNames w scope (dispatched strategies)

end Strategy
end SurfaceCoverage
