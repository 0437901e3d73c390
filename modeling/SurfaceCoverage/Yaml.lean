import SurfaceCoverage.Yaml.Built
/-!
# Documents

The value of a text that holds one document, or none.
-/

namespace SurfaceCoverage.Yaml

/-- The value of the document of a text; without a document there is none. -/
def load (cs : List Char) : Except Fault Value := do
  match ← Node.ofTokens (← tokens cs) with
  | some n => n.value
  | none => return .null

end SurfaceCoverage.Yaml
