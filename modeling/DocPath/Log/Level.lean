import DocPath.Value.Render

/-! Levels of messages. -/

namespace DocPath.Log

/-- The names of levels; two of them have a second name. -/
def levelNames : List (Text × Int) :=
  [("CRITICAL", 50), ("FATAL", 50), ("ERROR", 40), ("WARN", 30), ("WARNING", 30), ("INFO", 20),
    ("DEBUG", 10), ("NOTSET", 0)]

/-- The level that stands in where none is set. -/
def warning : Int := 30

def debug : Int := 10

/-- The name of a level, or its number. -/
def levelName (level : Int) : Text :=
  if level = 50 then "CRITICAL"
  else if level = 40 then "ERROR"
  else if level = 30 then "WARNING"
  else if level = 20 then "INFO"
  else if level = 10 then "DEBUG"
  else if level = 0 then "NOTSET"
  else .concat ["Level ", .ofInt level]

/-- Why a value is no level. -/
inductive LevelFault where
  | unknownName (name : Text)
  /-- A value that is neither a name nor a number. -/
  | type (v : Value)
  | number (fault : NumeralFault)
  deriving DecidableEq

def LevelFault.message : LevelFault → Text
  | .unknownName name => .concat ["Unknown level: ", name.quoted]
  | .type v =>
    match v.shown with
    | .ok t => .concat ["Level not an integer or a valid string: ", t]
    | .error fault => fault.message
  | .number fault => fault.message

/-- The level that a value names. -/
def levelOf (v : Value) : Except LevelFault Int :=
  match v with
  | .int i => .ok i
  | .bool b => .ok (if b then 1 else 0)
  | .text t =>
    match levelNames.lookup t with
    | some level => .ok level
    | none => .error (.unknownName t)
  | v =>
    match v.plain with
    | .ok _ => .error (.type v)
    | .error fault => .error (.number fault)

end DocPath.Log
