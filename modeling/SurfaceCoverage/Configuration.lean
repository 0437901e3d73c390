import SurfaceCoverage.Settings
import SurfaceCoverage.Yaml
/-!
# Configurations

A configuration file is a document that holds a mapping. Each entry sets one parameter, whatever
the other entries are: an acceptable value takes the place of the default, any other value is left
out with a warning, and so is a key that names no parameter. A file without a mapping leaves all
parameters at their defaults. A warning names what was left out; where that cannot be written, there
is no configuration.
-/

namespace SurfaceCoverage

/-- What can be configured: the settings of analyses and the calls that mount components. -/
structure Configuration where
  settings : Settings := {}
  mountCallees : List Text := ["mount", "shallowMount", "render"]
deriving DecidableEq

namespace Configuration

inductive Parameter where
  | defineCallees
  | mountCallees
  | extensions
  | reservedNames
  | sizeLimit
  | depthLimit
deriving DecidableEq

namespace Parameter

def all : List Parameter :=
  [defineCallees, mountCallees, extensions, reservedNames, sizeLimit, depthLimit]

/-- The key of a parameter in a file. -/
def key : Parameter → String
  | defineCallees => "component_define_callees"
  | mountCallees => "mount_callees"
  | extensions => "module_extensions"
  | reservedNames => "reserved_input_names"
  | sizeLimit => "max_file_size_bytes"
  | depthLimit => "max_resolution_depth"

/-- The parameter that a key names. -/
def ofKey? (key : Value) : Option Parameter :=
  key.text?.bind fun t => all.find? fun p => Text.ofString p.key == t

end Parameter

/-! ## Acceptable values -/

/-- A list of one name or more. -/
def callees? : Value → Option (List Text)
  | .list vs => Value.names? vs
  | _ => none

/-- A list of extensions, each with its dot. -/
def extensions? (v : Value) : Option (List Text) := do
  let ts ← v.texts?
  if ts.all (Text.startsWith · ".") then some ts else none

/-- A positive integer. -/
def limit? : Value → Option Int
  | .int n => if 0 < n then some n else none
  | _ => none

/-- A configuration with a parameter set, if the value is acceptable. -/
def set? (c : Configuration) (p : Parameter) (v : Value) : Option Configuration :=
  let s := c.settings
  match p with
  | .defineCallees => (callees? v).map fun ts => { c with settings := { s with defineCallees := ts } }
  | .mountCallees => (callees? v).map fun ts => { c with mountCallees := ts }
  | .extensions => (extensions? v).map fun ts => { c with settings := { s with extensions := ts } }
  | .reservedNames => v.texts?.map fun ts => { c with settings := { s with reservedNames := ts } }
  | .sizeLimit => (limit? v).map fun n => { c with settings := { s with sizeLimit := n } }
  | .depthLimit => (limit? v).map fun n => { c with settings := { s with depthLimit := n } }

/-! ## Files -/

/-- What is wrong with a configuration file. -/
inductive Warning where
  | unknown (key : Value)
  | invalid (p : Parameter)
  | empty
  | notMapping
  | malformed
  | unreadable

/-- Why there is no configuration: its file has a name that is too long, is no UTF-8, or holds a
scalar without a value, or a warning is about a value that cannot be written. -/
inductive LoadError where
  | nameTooLong
  | undecodable
  | unbuildable (fault : Yaml.Fault)
  | unwritable

/-- The file of a configuration, if no other one is asked for. -/
def defaultFile : String := ".vc_api_coverage.yml"

/-- Warnings and one more, which names a value. -/
def warn (warnings : List Warning) (named : Value) (warning : Warning) :
    Except LoadError (List Warning) :=
  if named.isWritable then .ok (warnings ++ [warning]) else .error .unwritable

/-- A configuration with an entry, and the warnings. -/
def adopt (c : Configuration × List Warning) (entry : Value × Value) :
    Except LoadError (Configuration × List Warning) :=
  match Parameter.ofKey? entry.1 with
  | none => (warn c.2 entry.1 (.unknown entry.1)).map (c.1, ·)
  | some p =>
    match c.1.set? p entry.2 with
    | none => (warn c.2 entry.2 (.invalid p)).map (c.1, ·)
    | some c' => .ok (c', c.2)

/-- The configuration of a mapping, and the warnings. -/
def ofEntries (entries : List (Value × Value)) : Except LoadError (Configuration × List Warning) :=
  entries.foldlM adopt ({}, [])

/-- The configuration of a document's value, and the warnings. -/
def ofValue : Value → Except LoadError (Configuration × List Warning)
  | .null => .ok ({}, [.empty])
  | .mapping entries => ofEntries entries
  | _ => .ok ({}, [.notMapping])

/-- The configuration of a document, and the warnings. -/
def ofDocument (cs : List Char) : Except LoadError (Configuration × List Warning) :=
  match Yaml.load cs with
  | .ok v => ofValue v
  | .error .malformed => .ok ({}, [.malformed])
  | .error f => .error (.unbuildable f)

/-- The configuration of a file, and the warnings. Without a file there are none. -/
def load (project : Project) (path : String) : Except LoadError (Configuration × List Warning) :=
  match project.locate path with
  | .error _ => .error .nameTooLong
  | .ok none => .ok ({}, [])
  | .ok (some place) =>
    match project.content? place with
    | some bytes =>
      match Encoding.decodeUtf8 [] bytes with
      | some cs => ofDocument (Encoding.joinLines [] cs)
      | none => .error .undecodable
    | none => .ok ({}, if project.isFolder place then [.unreadable] else [])

end Configuration
end SurfaceCoverage
