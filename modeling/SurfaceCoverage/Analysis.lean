import SurfaceCoverage.Settings
import SurfaceCoverage.Strategy
import SurfaceCoverage.Surface
/-!
# Analysis of a component

Each category of a component's surface has its strategies. One trail serves all four categories.
-/

namespace SurfaceCoverage

/-- Why a component has no surface. -/
inductive AnalysisError where
  /-- No file at the path asked for. -/
  | notFound (path : String)
  /-- A file that is too large. -/
  | unreadable (path : String)
  /-- A script with faults, with the path it is shown under. -/
  | faulty (path : String)
  | failure (f : Failure)

/-- The text of an error that names a path. -/
def AnalysisError.message? : AnalysisError → Option String
  | notFound path => some ("Component file not found: " ++ path)
  | unreadable path => some ("Component file could not be read: " ++ path)
  | faulty path => some ("Syntax error in " ++ path)
  | failure _ => none

namespace Category

/-- The option that declares a category. -/
def option : Category → Text
  | inputs => "props"
  | events => "emits"
  | slots => "slots"
  | exposed => "expose"

/-- The keyword whose call declares a category. -/
def keyword : Category → Text
  | inputs => "defineProps"
  | events => "defineEmits"
  | slots => "defineSlots"
  | exposed => "defineExpose"

/-- The strategies of a category. -/
def strategies (settings : Settings) (c : Category) : List Strategy :=
  [.options [c.option] settings.defineCallees, .call c.keyword] ++
    match c with
    | inputs => [.bag "$props" settings.reservedNames]
    | events => []
    | slots => [.bag "$slots" [], .usage]
    | exposed => [.expose]

end Category

namespace Settings

/-- What lookups see of a project. An extension with a surrogate is that of no file. -/
def workspace (settings : Settings) (project : Project) : Workspace :=
  ⟨project, settings.extensions.filterMap Text.toString?, settings.sizeLimit⟩

/-- A trail that no lookup has begun on. -/
def freshTrail (settings : Settings) : Trail := { limit := settings.depthLimit }

end Settings

namespace Search

/-- The surface that a component declares, category by category. -/
def surface (w : Workspace) (settings : Settings) (scope : Scope) : Search Surface := do
  let extract c := Strategy.extractFirst w scope (Category.strategies settings c)
  let inputs ← extract .inputs
  let events ← extract .events
  let slots ← extract .slots
  let exposed ← extract .exposed
  return ⟨inputs, events, slots, exposed⟩

/-- The result of a search on a fresh trail. -/
def evaluate {α} (search : Search α) (trail : Trail) : Except Failure α :=
  (search { trail }).map (·.1)

end Search

/-- The surface of a component's source text. -/
def analyzeSource (settings : Settings) (project : Project) (source : List Char)
    (path : Option String) : Except AnalysisError Surface :=
  match Module.parse? source path with
  | none => .error (.faulty (Module.shownPath path))
  | some m =>
    let w := settings.workspace project
    let search := do
      let scope ← Search.ofExcept (Scope.ofModule m)
      Search.surface w settings scope
    (search.evaluate settings.freshTrail).mapError .failure

/-- The surface of a component's file. -/
def analyzeFile (settings : Settings) (project : Project) (path : String) :
    Except AnalysisError Surface := do
  let resolved ← (project.canonical path).mapError .failure
  if ← (project.isFile resolved).mapError .failure then
    match project.read settings.sizeLimit resolved with
    | some source => analyzeSource settings project source (some resolved)
    | none => .error (.unreadable path)
  else .error (.notFound path)

end SurfaceCoverage
