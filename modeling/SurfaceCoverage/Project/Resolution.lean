import SurfaceCoverage.Project.Files
/-!
# Resolution of module specifiers

A specifier that begins with a dot or a slash denotes a canonical path. If that path has a known
extension it must be a file itself. Otherwise the first file among the path with each extension,
then among the index files in the directory of that name, is the module. Other specifiers name
packages and are not resolved.
-/

namespace SurfaceCoverage

/-- The extensions that stand for a module's file, in the order of inference. -/
def defaultExtensions : List String := [".ts", ".tsx", ".js", ".jsx", ".vue"]

namespace Project

/-- The first of several paths that names a file; a candidate may be no path at all. -/
def firstFile (project : Project) : List (Except Failure Path) → Except Failure (Option String)
  | [] => .ok none
  | candidate :: rest => do
    let p ← candidate
    if ← project.isFile p.toString then return some p.toString else project.firstFile rest

/-- A path with an extension behind its last segment. -/
def withExtension (p : Path) (extension : String) : Except Failure Path :=
  if p.name.isEmpty ∨ extension.contains '/' then .error .invalidPath
  else .ok ⟨p.absolute, p.segments.dropLast ++ [p.name ++ extension]⟩

/-- The index file of a directory with an extension. -/
def indexFile (p : Path) (extension : String) : Except Failure Path :=
  .ok (p.join (Path.ofString ("index" ++ extension)))

/-- The files that a path without a known extension can stand for, in order. -/
def candidates (extensions : List String) (p : Path) : List (Except Failure Path) :=
  extensions.map (withExtension p) ++ extensions.map (indexFile p)

/-- The path that a specifier denotes from a directory. -/
def target (project : Project) (specifier : String) (directory : Path) : Path :=
  ⟨true, (directory.join (Path.ofString specifier)).resolveIn project.directory⟩

/-- Whether a path has a null character, which no file system takes. -/
def hasNull (p : Path) : Bool := p.segments.any (·.toList.contains (Char.ofNat 0))

/-- The file of the module that a specifier names, seen from a directory. -/
def resolve (project : Project) (extensions : List String) (specifier : String) (directory : Path) :
    Except Failure (Option String) :=
  if !(specifier.startsWith "." || specifier.startsWith "/") then .ok none
  else if hasNull (directory.join (Path.ofString specifier)) then .error .invalidPath
  else
    let base := project.target specifier directory
    if extensions.contains base.suffix then do
      return if ← project.isFile base.toString then some base.toString else none
    else project.firstFile (candidates extensions base)

end Project
end SurfaceCoverage
