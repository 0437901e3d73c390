import SurfaceCoverage.Script
import SurfaceCoverage.SingleFile
import SurfaceCoverage.Project.Path
/-!
# Modules

A module is a parsed script with the path it was read under and, for a single-file component, its
template. The `lang` of a component's script or else the file's extension decides the dialect.
-/

namespace SurfaceCoverage

/-- A parsed source text. -/
structure Module where
  path : Option String
  script : List Char
  template : Text
  root : Node

namespace Module

/-- Whether a path names a single-file component. -/
def isSingleFile (path : String) : Bool :=
  (path.map Char.toLower).endsWith ".vue"

/-- The dialect of a script, by the language of its tag, else by its path. -/
def dialect (path : Option String) (lang : Option String) : Script.Dialect :=
  match lang with
  | some l => if l = "tsx" ∨ l = "jsx" then .tsx else .typescript
  | none =>
    match path with
    | some p =>
      if [".ts", ".mts", ".cts"].contains ((Path.ofString p).suffix.map Char.toLower) then .typescript
      else .tsx
    | none => .tsx

/-- The parts of a source text, by its path. -/
def sections (source : List Char) (path : Option String) : SingleFile.Sections :=
  if path.any isSingleFile then
    let parts := SingleFile.split source
    { parts with lang := some (parts.lang.getD "ts".toList) }
  else ⟨source, none, []⟩

/-- A module, and whether some of its script could not be read. -/
def read (source : List Char) (path : Option String) : Module × Bool :=
  let parts := sections source path
  let (root, faulty) := Script.parse (dialect path (parts.lang.map String.ofList)) parts.script
  (⟨path, parts.script, parts.template, root⟩, faulty)

/-- The module of a source text without faults. -/
def parse? (source : List Char) (path : Option String) : Option Module :=
  let (m, faulty) := read source path
  if faulty then none else some m

/-- How a module's path is shown when it has none. -/
def shownPath (path : Option String) : String := path.getD "<source>"

/-- The directory that a module's specifiers start from. -/
def directory (m : Module) (working : List String) : Path :=
  match m.path with
  | some p => (Path.ofString p).parent
  | none => ⟨true, working⟩

end Module
end SurfaceCoverage
