import SurfaceCoverage.Log.Message
import SurfaceCoverage.Project.Path
/-!
# Logs

A logger has a name of parts with dots between them, and perhaps a level of its own; without one it
has that of its nearest ancestor, in the end that of the root. A record is written if its level
reaches that of its logger and that of the log. A record is a list of fields, and further fields
can take the place of its own.
-/

namespace SurfaceCoverage.Log

/-! ## Levels -/

def levelName (level : Int) : Text :=
  if level = 10 then "DEBUG"
  else if level = 20 then "INFO"
  else if level = 30 then "WARNING"
  else if level = 40 then "ERROR"
  else if level = 50 then "CRITICAL"
  else "Level " ++ toString level

def debugLevel : Int := 10
def infoLevel : Int := 20

/-! ## Loggers -/

/-- The name of the root. -/
def rootName : Text := "root"

/-- The name of a logger that is asked for: no name means the root. -/
def loggerName (t : Text) : Text := if t.isEmpty then rootName else t

/-- The logger of the analysis of a component. -/
def analysisLogger (component : Text) : Text := ("vc_api_coverage.analysis." : Text) ++ component

/-- The beginnings of a name before its dots, the longest first. The name is in reverse. With
`skip` a dot here does not count: of two dots side by side only the last one does. -/
def beginnings (skip : Bool) : Text → List Text
  | [] => []
  | p :: t =>
    if p = .scalar '.' ∧ !skip then t.reverse :: beginnings true t else beginnings false t

/-- The names of the ancestors of a logger below the root, the nearest first. -/
def ancestors (name : Text) : List Text := beginnings false name.reverse

/-- The level of the log and those of loggers that have one, the latest first. -/
structure Levels where
  root : Int
  own : List (Text × Int) := []

namespace Levels

def set (l : Levels) (name : Text) (level : Int) : Levels := { l with own := (name, level) :: l.own }

/-- The level of a logger. -/
def get (l : Levels) (name : Text) : Int :=
  if name = rootName then l.root
  else
    match (name :: ancestors name).findSome? fun n => l.own.find? (·.1 == n) with
    | some (_, level) => level
    | none => l.root

/-- Whether a record is written. -/
def admits (l : Levels) (name : Text) (level : Int) : Bool :=
  0 < level && l.get name ≤ level && l.root ≤ level

end Levels

/-! ## Records -/

/-- An exception by its kind and its text. -/
structure Exception where
  kind : Text
  text : Text

/-- The text of an exception: its kind, and what is said of it. A missing key is quoted. -/
def Exception.display (e : Exception) : Text :=
  let said := if e.kind = Text.ofString "KeyError" then e.text.quoted else e.text
  if said.isEmpty then e.kind else e.kind ++ (": " : Text) ++ said

/-- The logger of a call: one by its name, or that of an analysis with or without details. -/
inductive Source where
  | named (name : Text)
  | analysis (component : Text) (detailed : Bool)

/-- What a call passes to a logger. -/
structure Call where
  source : Source
  level : Int
  message : Text
  arguments : List Value
  extra : Value
  exception? : Option Exception

/-- The fields of a record by their names. -/
abbrev Record := List (Value × Value)

/-- The fields of a record, further ones put in. -/
def record (name : Text) (level : Int) (message : Text) (exception? : Option Exception)
    (extra : Value) : Record :=
  let field (key : String) (t : Text) : Value × Value := (.text key, .text t)
  let own := [field "level" (levelName level), field "logger" name, field "message" message] ++
    (exception?.map fun e => field "exception" e.display).toList
  match extra with
  | .mapping es => es.foldl (fun r (k, v) => Value.put r k v) own
  | _ => own

namespace Call

/-- The name of the logger of a call. -/
def loggerName (c : Call) : Text :=
  match c.source with
  | .named name => Log.loggerName name
  | .analysis component _ => analysisLogger component

/-- The levels once the logger of a call is there. -/
def levels (c : Call) (l : Levels) : Levels :=
  match c.source with
  | .named _ => l
  | .analysis component detailed =>
    l.set (analysisLogger component) (if detailed then debugLevel else infoLevel)

/-- The record that a call writes, if it does: its level must be admitted, and its arguments must
suit its message. -/
def record? (c : Call) (l : Levels) : Option Record :=
  if l.admits c.loggerName c.level then
    (message? c.message c.arguments).map fun m => record c.loggerName c.level m c.exception? c.extra
  else none

end Call

/-- The records of calls in turn. -/
def records (l : Levels) : List Call → List Record
  | [] => []
  | c :: cs => (c.record? (c.levels l)).toList ++ records (c.levels l) cs

/-! ## Beginning -/

/-- The directory of logs, if no other one is asked for. -/
def defaultDirectory : String := ".vc_api_coverage_logs"

/-- The record that a log begins with, if its level admits it. -/
def opening? (level : Int) (directory : Text) : Option Record :=
  ({ source := .named [], level := infoLevel
     message := ("Logging initialized. Log directory: " : Text) ++ directory
     arguments := [], extra := .null, exception? := none } : Call).record? { root := level }

end SurfaceCoverage.Log
