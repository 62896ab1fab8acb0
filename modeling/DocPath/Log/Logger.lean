import DocPath.Log.Console
import DocPath.Log.Template

/-! The logger: its level, and the handlers that print its messages on consoles. -/

namespace DocPath.Log

/-- A console by name, or the standard error stream. -/
inductive Target where
  | console (name : Text) (colored : Bool)
  | standardError
  deriving DecidableEq

/-- Whether colours are shown. -/
def Target.colored : Target → Bool
  | console _ colored => colored
  | standardError => false

structure Logger where
  /-- The level that was set; 0 stands for none. -/
  level : Int := debug
  /-- Where the handlers write, the one that was attached first in front. -/
  targets : List Target := []
  deriving DecidableEq

/-- A message of a level; without text if its template did not fit its arguments. -/
structure Record where
  level : Int
  text : Option Text
  deriving DecidableEq

/-- What a console writes of a line, given the lines that were printed on it before; nothing if printing fails. -/
abbrev Printing := Target → List Text → Text → Option Text

/-- Every line is written as it comes. -/
def Printing.direct : Printing := fun _ _ line => some line

/-- The consoles that lines are printed on, with all lines so far. -/
structure Output where
  printing : Printing := .direct
  printed : List (Target × Text) := []

namespace Output

/-- The lines that were printed on a console. -/
def linesOn (o : Output) (target : Target) : List Text :=
  o.printed.filterMap fun p => if p.1 = target then some p.2 else none

/-- Prints a line; what the console writes of it, unless this fails. -/
def print (o : Output) (target : Target) (line : Text) : Output × Option Text :=
  ({ o with printed := o.printed ++ [(target, line)] }, o.printing target (o.linesOn target) line)

end Output

namespace Logger

def name : Text := "objpath"

/-- The level in force. -/
def effectiveLevel (l : Logger) : Int := if l.level = 0 then warning else l.level

/-- Whether messages of a level are let through. -/
def accepts (l : Logger) (level : Int) : Bool := 0 < level && l.effectiveLevel ≤ level

/-- The record of a message, if it is let through. -/
def record? (l : Logger) (level : Int) (template : Text) (values : List Value) : Option Record :=
  if l.accepts level then some ⟨level, format? template values⟩ else none

/-- Stands for the report of a record that is not written, on the standard error stream. -/
def reportText : Text := "<logging error>"

/-- What a handler writes of a record, and where. A record without text is reported instead, and so is one that cannot
be printed. -/
def emit (o : Output) (target : Target) (r : Record) : Output × (Target × Text) :=
  match r.text with
  | none => (o, .standardError, reportText)
  | some t =>
    let (o, written) := o.print target (line target.colored name r.level t)
    (o, match written with
      | some text => (target, text)
      | none => (.standardError, reportText))

/-- What handlers write of records, one after the other. -/
def emitAll (o : Output) : List (Target × Record) → Output × List (Target × Text)
  | [] => (o, [])
  | (target, r) :: rest =>
    let (o, entry) := emit o target r
    let (o, entries) := emitAll o rest
    (o, entry :: entries)

/-- What records write: every handler is given each of them. -/
def written (l : Logger) (o : Output) (records : List Record) : Output × List (Target × Text) :=
  emitAll o (records.flatMap fun r => l.targets.map (·, r))

@[simp] theorem written_nil (l : Logger) (o : Output) : l.written o [] = (o, []) := rfl

/-- Attaches a console: from now on the first handler writes to it. Only a logger without handlers gets a new one,
which writes to the standard error stream if there is no console. -/
def attach (l : Logger) (console : Option Target) : Logger :=
  match l.targets, console with
  | [], c => { l with targets := [c.getD .standardError] }
  | _ :: others, some c => { l with targets := c :: others }
  | _ :: _, none => l

/-- Attaches a console and sets the level; a value that is no level leaves the level alone. -/
def configure (l : Logger) (console : Option Target) (level : Value) :
    Logger × Except LevelFault Unit :=
  let l := l.attach console
  match levelOf level with
  | .ok n => ({ l with level := n }, .ok ())
  | .error fault => (l, .error fault)

/-- How many handlers are attached. -/
def targetCount (l : Logger) : Nat := l.targets.length

end Logger

end DocPath.Log
