import SurfaceCoverage.Log.Conversion
/-!
# Messages with arguments

The arguments of a message are written in turn by its directives. A lone mapping serves as a whole:
directives take its values by their keys. A message without arguments is written as it is. There is
no text if a directive lacks an argument that suits it, or if arguments are left over.
-/

namespace SurfaceCoverage.Log

/-- The arguments that are still to be written: a list, or one value that can be taken once. -/
inductive Arguments where
  | inTurn (values : List Value)
  | single (value : Value) (taken : Bool)

namespace Arguments

/-- The next argument. -/
def next? : Arguments → Option (Value × Arguments)
  | inTurn (v :: vs) => some (v, inTurn vs)
  | single v false => some (v, single v true)
  | _ => none

/-- Whether nothing is left that has to be written. -/
def isUsedUp : Arguments → Bool
  | inTurn vs => vs.isEmpty
  | single .. => true

end Arguments

/-- A message that is being written: the arguments, and the mapping that keys are looked up in. -/
structure Filling where
  arguments : Arguments
  mapping? : Option (List (Value × Value))

namespace Filling

/-- Begins with the arguments of a message. -/
def ofArguments : List Value → Filling
  | [.mapping (e :: es)] => ⟨.single (.mapping (e :: es)) false, some (e :: es)⟩
  | vs => ⟨.inTurn vs, none⟩

/-- The arguments behind the key of a directive: just the value of that key. -/
def lookUp? (f : Filling) (key : Text) : Option Filling := do
  let entries ← f.mapping?
  let (_, v) ← entries.find? fun (k, _) => k.sameKey (.text key)
  return { f with arguments := .single v false }

def next? (f : Filling) : Option (Value × Filling) := do
  let (v, rest) ← f.arguments.next?
  return (v, { f with arguments := rest })

/-- The number of a measure, perhaps taken from the arguments. -/
def measure? (f : Filling) : Measure → Option (Option Int × Filling)
  | .absent => some (none, f)
  | .fixed n => some (some n, f)
  | .argument => do
    let (v, f) ← f.next?
    return (some (← Shape.int? v), f)

/-- Widths below which a directive stays. -/
def widthBound : Nat := Nat.pow 2 63

/-- Precisions below which a directive stays. -/
def precisionBound : Nat := Nat.pow 2 31

/-- Whether the size of a number stays below a bound. -/
def isBelow (bound : Nat) (n? : Option Int) : Bool := n?.all fun n => n.natAbs < bound

/-- The text of a directive, and the arguments behind it. -/
def write? (f : Filling) (d : Directive) : Option (Text × Filling) := do
  let f ← match d.key? with
    | some key => f.lookUp? key
    | none => some f
  let (width, f) ← f.measure? d.width
  let (precision, f) ← f.measure? d.precision
  if !(isBelow widthBound width && isBelow precisionBound precision) then none
  let (v, f) ← f.next?
  let width := width.getD 0
  let shape : Shape := ⟨d, d.leftAligned || width < 0, width.natAbs, precision.map Int.toNat⟩
  return (shape.layOut (← shape.convert? v), f)

/-- The text of a message's parts. -/
def writeAll? (f : Filling) : List Piece → Option Text
  | [] => if f.arguments.isUsedUp then some [] else none
  | .plain p :: ps => do return p :: (← f.writeAll? ps)
  | .directive d :: ps => do
    let (t, f) ← f.write? d
    return t ++ (← f.writeAll? ps)

end Filling

/-- The text of a message with its arguments. -/
def message? (message : Text) (arguments : List Value) : Option Text :=
  if arguments.isEmpty then some message
  else do (Filling.ofArguments arguments).writeAll? (← pieces 0 message)

end SurfaceCoverage.Log
