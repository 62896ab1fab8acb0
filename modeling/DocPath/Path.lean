import DocPath.Text.Quoted

/-! Dotted paths. A path is a list of segments written with points between them; a backslash makes
the next point a part of its segment and is itself never a part of one. -/

namespace DocPath.Path

/-- Stands between two segments. -/
def separator : CodePoint := '.'

/-- Makes the next separator literal. -/
def escapeMark : CodePoint := '\\'

/-- A first segment, left out if it is empty, in front of others. -/
def withFirst (p : Text × List Text) : List Text :=
  if p.1.isEmpty then p.2 else p.1 :: p.2

/-- What belongs to the current segment, and the segments behind it. `escaped` tells that an escape
mark was met and no separator since. -/
def split (escaped : Bool) : Text → Text × List Text
  | [] => ([], [])
  | c :: rest =>
    if c = escapeMark then split true rest
    else if c = separator then
      if escaped then
        let (segment, more) := split false rest
        (c :: segment, more)
      else ([], withFirst (split false rest))
    else
      let (segment, more) := split escaped rest
      (c :: segment, more)

/-- The segments of a path. Empty ones are dropped. -/
def parse (path : Text) : List Text := withFirst (split false path)

/-- A segment with an escape mark in front of each separator. -/
def escape (segment : Text) : Text :=
  segment.flatMap fun c => if c = separator then [escapeMark, separator] else [c]

/-- Why a list of segments has no path. -/
inductive Fault where
  | emptySegment
  /-- A segment with an escape mark in it. -/
  | escapeInSegment (segment : Text)
  deriving DecidableEq

def Fault.message : Fault → Text
  | .emptySegment => "path segments must be non-empty"
  | .escapeInSegment segment => .concat ["path segment ", segment.quoted, " contains a backslash"]

/-- What is wrong with a segment, if anything. -/
def fault? (segment : Text) : Option Fault :=
  if segment.isEmpty then some .emptySegment
  else if segment.contains [escapeMark] then some (.escapeInSegment segment)
  else none

/-- The path with the given segments. The first segment that cannot stand in a path is refused. -/
def join (segments : List Text) : Except Fault Text :=
  match segments.findSome? fault? with
  | some fault => .error fault
  | none => .ok (Text.join [separator] (segments.map escape))

end DocPath.Path
