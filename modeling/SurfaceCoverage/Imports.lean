import SurfaceCoverage.Tree.Shape
/-!
# Imports of a module

The words that a module's top-level imports bind, in document order. A word bound twice has its
last binding. Imports for their effects alone bind nothing.
-/

namespace SurfaceCoverage

/-- A local word, the module it comes from, and the export it stands for. -/
structure Import where
  localName : Text
  specifier : Text
  exported : Text
deriving DecidableEq

/-- The name of a default export. -/
def defaultExport : Text := "default"

/-- The name that stands for all exports of a module together. -/
def allExports : Text := "*"

def Import.isDefault (i : Import) : Bool := i.exported = defaultExport

/-- The bindings of a module in document order. -/
abbrev Imports := List Import

namespace Imports

/-- The last binding of a word. -/
def get? (imports : Imports) (word : Text) : Option Import :=
  imports.reverse.find? (·.localName = word)

/-- The bound words, each once, in code point order. -/
def words (imports : Imports) : List Text := Text.sorted (imports.map (·.localName))

/-- The name in a specifier: a string's value or a word. -/
def specifierName? : Option Node → Except Failure (Option Text)
  | none => .ok none
  | some n => if n.kind = .string then n.stringValue else .ok (some n.name)

/-- A name with characters in it. -/
def nonEmpty (name : Option Text) : Option Text := name.filter (!·.isEmpty)

/-- What one specifier in braces binds. -/
def ofSpecifier (source : Text) (n : Node) : Except Failure Imports :=
  if n.kind ≠ .importSpecifier then .ok []
  else do
    let imported ← specifierName? (n.child? .name)
    let renamed ← specifierName? (n.child? .rename)
    match nonEmpty imported, (nonEmpty renamed).or (nonEmpty imported) with
    | some exported, some localName => return [⟨localName, source, exported⟩]
    | _, _ => return []

/-- What one part of an import clause binds. -/
def ofPart (source : Text) (n : Node) : Except Failure Imports :=
  match n.kind with
  | .identifier => .ok [⟨n.name, source, defaultExport⟩]
  | .namespaceImport =>
    match n.namedChildren.find? (·.kind == .identifier) with
    | some word => .ok [⟨word.name, source, allExports⟩]
    | none => .ok []
  | .namedImports => do return (← n.namedChildren.mapM (ofSpecifier source)).flatten
  | _ => .ok []

/-- What one statement binds. -/
def ofStatement (n : Node) : Except Failure Imports :=
  if n.kind ≠ .importStatement then .ok []
  else do
    match ← Node.stringValue? (n.child? .source) with
    | none => return []
    | some source =>
      match n.namedChildren.find? (·.kind == .importClause) with
      | none => return []
      | some clause => return (← clause.namedChildren.mapM (ofPart source)).flatten

/-- What the top-level statements of a script bind. -/
def ofRoot (root : Node) : Except Failure Imports := do
  return (← root.namedChildren.mapM ofStatement).flatten

end Imports
end SurfaceCoverage
