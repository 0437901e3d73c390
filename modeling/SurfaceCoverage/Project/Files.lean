import SurfaceCoverage.Failure
import SurfaceCoverage.Project.Path
import SurfaceCoverage.Project.Encoding
/-!
# Files of a project

The files below a working directory, by their canonical segments. A path is walked segment by
segment, so that every segment but the last must name a directory that exists. A name of more than
255 bytes stops the walk: it is an error to ask whether such a file exists, while reading it finds
nothing.
-/

namespace SurfaceCoverage

/-- The files a component's analysis can see, and its working directory. -/
structure Project where
  directory : List String
  files : List (List String × List UInt8)
  /-- Directories that need hold no file. -/
  folders : List (List String)

namespace Project

/-- Whether one list of segments begins another. -/
def begins (p q : List String) : Bool := p.isPrefixOf q

def isFolder (project : Project) (p : List String) : Bool :=
  begins p project.directory || project.folders.any (begins p) ||
    project.files.any fun f => begins p f.1.dropLast

def content? (project : Project) (p : List String) : Option (List UInt8) :=
  (project.files.find? fun f => f.1 == p).map (·.2)

/-- The place that segments lead to from a place, if every segment before the last exists. -/
def walk (project : Project) (place : List String) : List String → Except Failure (Option (List String))
  | [] => .ok (some place)
  | s :: ss =>
    if !project.isFolder place then .ok none
    else if 255 < s.utf8ByteSize then .error .nameTooLong
    else walk project (if s = ".." then place.dropLast else place ++ [s]) ss

/-- The place of a path, seen from the working directory. -/
def locate (project : Project) (path : String) : Except Failure (Option (List String)) :=
  let p := Path.ofString path
  if path.contains (Char.ofNat 0) then .ok none
  else walk project (if p.absolute then [] else project.directory) p.segments

/-- The bytes of the file at a path. -/
def fileAt? (project : Project) (path : String) : Except Failure (Option (List UInt8)) := do
  return (← project.locate path).bind project.content?

/-- Whether a path names a file. -/
def isFile (project : Project) (path : String) : Except Failure Bool := do
  return (← project.fileAt? path).isSome

/-- The text of a file of at most `limit` bytes. -/
def read (project : Project) (limit : Int) (path : String) : Option (List Char) :=
  match project.fileAt? path with
  | .ok (some bytes) => if limit < bytes.length then none else some (Encoding.decode bytes)
  | _ => none

/-- A path made absolute and canonical. -/
def canonical (project : Project) (path : String) : Except Failure String :=
  if path.contains (Char.ofNat 0) then .error .invalidPath
  else .ok (Path.toString ⟨true, (Path.ofString path).resolveIn project.directory⟩)

/-- Writes a file. -/
def write (project : Project) (path : String) (bytes : List UInt8) : Project :=
  let p := (Path.ofString path).resolveIn project.directory
  { project with files := (p, bytes) :: project.files.filter (·.1 != p) }

/-- Makes a directory. -/
def makeFolder (project : Project) (path : String) : Project :=
  { project with folders := (Path.ofString path).resolveIn project.directory :: project.folders }

/-- Removes a file; the directories that held it stay. -/
def delete (project : Project) (path : String) : Project :=
  let p := (Path.ofString path).resolveIn project.directory
  { project with
    files := project.files.filter (·.1 != p)
    folders := p.dropLast :: project.folders }

end Project
end SurfaceCoverage
