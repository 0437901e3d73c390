import SurfaceCoverage.Analysis
import SurfaceCoverage.Configuration
import SurfaceCoverage.Evidence.Script
/-!
# Assessment of components

A component is assessed by its tests: its surface, and for each name whether some test mentions it.
A test that cannot be read mentions nothing. Without a name on the surface no test is looked at.
-/

namespace SurfaceCoverage

/-- The name of a component: that of its file without the suffix, or of its directory if the file
is an index. -/
def componentName (path : String) : String :=
  let p := Path.ofString path
  if p.stem = "index" ∧ p.parent.name ≠ "" then p.parent.name else p.stem

/-- What a test's text mentions. -/
def Evidence.ofTest (mountCallees : List Text) (source : List Char) (path : Option String) :
    Except Failure Evidence :=
  (Module.read source path).1.root.evidence mountCallees

/-- The report on a surface by one test's text. -/
def Report.ofTest (mountCallees : List Text) (s : Surface) (source : List Char)
    (path : Option String) : Except Failure Report :=
  if s.isEmpty then .ok (.ofEvidence s [])
  else (Evidence.ofTest mountCallees source path).map (.ofEvidence s)

namespace Configuration

/-- The surface of a component's file. -/
def surface (c : Configuration) (project : Project) (component : String) :
    Except AnalysisError Surface :=
  analyzeFile c.settings project component

/-- The texts of the tests that can be read, with their paths. -/
def readable (c : Configuration) (project : Project) (tests : List String) :
    List (String × List Char) :=
  tests.filterMap fun path => (project.read c.settings.sizeLimit path).map (path, ·)

/-- What several tests mention. -/
def evidence (c : Configuration) (project : Project) (tests : List String) :
    Except Failure Evidence := do
  let found ← (c.readable project tests).mapM fun (path, source) =>
    Evidence.ofTest c.mountCallees source (some path)
  return found.flatten

/-- The coverage of a component by tests. -/
def assess (c : Configuration) (project : Project) (component : String) (tests : List String) :
    Except AnalysisError Coverage := do
  let s ← c.surface project component
  let e ← if s.isEmpty then pure [] else (c.evidence project tests).mapError .failure
  return ⟨component, componentName component, .ofEvidence s e⟩

end Configuration
end SurfaceCoverage
