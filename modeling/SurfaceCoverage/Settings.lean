import SurfaceCoverage.Project.Resolution
import SurfaceCoverage.Text.Quoted
import SurfaceCoverage.Value
/-!
# Settings

How components are analysed. Settings are valid if they name a callee that defines components, no
callee's name is empty, and both limits are positive.
-/

namespace SurfaceCoverage

/-- Names that a framework gives to every instance. -/
def reservedInputNames : List String :=
  ["key", "ref", "ref_for", "ref_key", "onVnodeBeforeMount", "onVnodeMounted",
    "onVnodeBeforeUpdate", "onVnodeUpdated", "onVnodeBeforeUnmount", "onVnodeUnmounted", "class",
    "style"]

/-- How components are analysed. -/
structure Settings where
  /-- The calls whose argument is a component's options. -/
  defineCallees : List Text := ["defineComponent"]
  /-- Names that are no inputs of their own. -/
  reservedNames : List Text := reservedInputNames.map Text.ofString
  /-- The extensions of modules, in the order of inference. -/
  extensions : List Text := defaultExtensions.map Text.ofString
  /-- The bytes of the largest file that is read. -/
  sizeLimit : Int := 10 * 1024 * 1024
  /-- The most references that a lookup follows. -/
  depthLimit : Int := 32
deriving DecidableEq

/-- Settings whose callees may be any values. -/
structure Settings.Draft where
  defineCallees : List Value
  settings : Settings

/-- What is wrong with settings. -/
inductive SettingsError where
  | defineCallees (given : List Value)
  | sizeLimit (given : Int)
  | depthLimit (given : Int)

namespace SettingsError

def message : SettingsError → Text
  | defineCallees given =>
    ("define_callees must be a non-empty list of names, got " : Text) ++ (Value.list given).quoted false
  | sizeLimit given => "max_file_size_bytes must be positive, got " ++ toString given
  | depthLimit given => "max_resolution_depth must be positive, got " ++ toString given

end SettingsError

/-- The names in a list that is not empty and holds nothing but names, none of them empty. -/
def Value.names? (vs : List Value) : Option (List Text) := do
  let names ← vs.mapM Value.text?
  if names.isEmpty || names.any List.isEmpty then none else some names

namespace Settings

/-- The settings of a draft, if they are valid. Of several errors the first is given. -/
def Draft.check (draft : Draft) : Except SettingsError Settings :=
  match Value.names? draft.defineCallees with
  | none => .error (.defineCallees draft.defineCallees)
  | some names =>
    if draft.settings.sizeLimit ≤ 0 then .error (.sizeLimit draft.settings.sizeLimit)
    else if draft.settings.depthLimit ≤ 0 then .error (.depthLimit draft.settings.depthLimit)
    else .ok { draft.settings with defineCallees := names }

/-- Settings as a draft. -/
def draft (settings : Settings) : Draft := ⟨settings.defineCallees.map Value.text, settings⟩

end Settings
end SurfaceCoverage
