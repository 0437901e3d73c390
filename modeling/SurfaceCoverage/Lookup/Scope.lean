import SurfaceCoverage.Module
import SurfaceCoverage.Imports
/-!
# Scopes

A scope is a module with its imports. In it a word stands for the first declaration of that name in
the whole script, in document order, and otherwise for an import.
-/

namespace SurfaceCoverage

/-- A parsed module together with its imports. -/
structure Scope where
  module : Module
  imports : Imports

/-- Whether a name is looked up as a value or as a type. -/
inductive Meaning where
  | value
  | type
deriving DecidableEq

/-- A node that declares names, and the scope it lives in. -/
structure Declaration where
  node : Node
  scope : Scope

namespace Scope

def root (s : Scope) : Node := s.module.root

def path (s : Scope) : Option String := s.module.path

/-- A module with the imports that its script binds. -/
def ofModule (m : Module) : Except Failure Scope := do
  return ⟨m, ← Imports.ofRoot m.root⟩

end Scope

namespace Node

/-- The node that an initial value declares names with: an array or an object under casts, or a
cast to a generic type. -/
def declaredValue? (value : Node) : Option Node :=
  let inner := value.unwrap
  if inner.kind = .array ∨ inner.kind = .object then some inner
  else value.genericCast?.map (·.1)

/-- The initial value of a declarator for a word. -/
def initialValue? (name : Text) (declarator : Node) : Option Node :=
  match declarator.child? .name with
  | some target =>
    if target.kind = .identifier ∧ target.name = name then declarator.child? .value else none
  | none => none

/-- The first initial value of a word in a tree. -/
def localInitializer? (root : Node) (name : Text) : Option Node :=
  (root.findAll .variableDeclarator).findSome? (initialValue? name)

/-- Interfaces and type aliases. -/
def isTypeDeclaration (n : Node) : Bool :=
  n.kind == .interfaceDeclaration || n.kind == .typeAliasDeclaration

/-- Whether a node declares a type of a name. -/
def declaresType (name : Text) (n : Node) : Bool :=
  n.isTypeDeclaration && (n.child? .name).any (·.name = name)

/-- The first declaration of a type in a tree. -/
def localType? (root : Node) (name : Text) : Option Node :=
  root.descendants.find? (declaresType name)

end Node
end SurfaceCoverage
