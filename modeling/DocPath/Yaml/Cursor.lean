import DocPath.Yaml.Fault

/-! A place in a YAML text together with what is left to read there. -/

namespace DocPath.Yaml

/-- A break, or the end of the text. -/
def isBreakOrEnd (c : CodePoint) : Bool := isBreak c || c == CodePoint.nul

/-- A blank, a break or the end of the text. -/
def isBlankOrEnd (c : CodePoint) : Bool := c.is ' ' || isBreakOrEnd c

/-- A blank, a tab, a break or the end of the text. -/
def isSpaceOrEnd (c : CodePoint) : Bool := c.is '\t' || isBlankOrEnd c

/-- A code point of the names of anchors, handles and directives. -/
def isNamePart (c : CodePoint) : Bool :=
  c.isDigit || c.isLetter || c.is '-' || c.is '_'

/-- The place behind a code point that is followed by `rest`. A carriage return in front of a line feed
does not end a line, and U+FEFF takes no column. -/
def Mark.next (m : Mark) (c : CodePoint) (rest : Text) : Mark :=
  if isBreak c && !(c.is '\r' && rest.head? == some (CodePoint.ofChar '\n')) then
    ⟨m.index + 1, m.line + 1, 0⟩
  else if c.val = 0xFEFF then ⟨m.index + 1, m.line, m.column⟩
  else ⟨m.index + 1, m.line, m.column + 1⟩

structure Cursor where
  rest : Text
  mark : Mark

/-- Reads something from a cursor on, or finds a fault. -/
abbrev Reader (α : Type) := Cursor → Except Fault (α × Cursor)

namespace Cursor

/-- The beginning of a text. -/
def start (source : Text) : Cursor := ⟨source, ⟨0, 0, 0⟩⟩

/-- The code point at a distance, or U+0000 past the end. -/
def peek (c : Cursor) (k : Nat) : CodePoint := c.rest[k]?.getD CodePoint.nul

/-- The next code point, or U+0000 at the end. -/
def now (c : Cursor) : CodePoint := c.rest.headD CodePoint.nul

def column (c : Cursor) : Nat := c.mark.column

/-- One code point further. -/
def next (c : Cursor) : Cursor :=
  match c.rest with
  | [] => c
  | d :: rest => ⟨rest, c.mark.next d rest⟩

/-- A number of code points further. -/
def skip (c : Cursor) : Nat → Cursor
  | 0 => c
  | n + 1 => c.next.skip n

/-- Past the code points of a class, from a given place on. -/
def pass (p : CodePoint → Bool) (m : Mark) : Text → Cursor
  | [] => ⟨[], m⟩
  | d :: rest => if p d then pass p (m.next d rest) rest else ⟨d :: rest, m⟩

/-- Past the code points of a class. -/
def skipWhile (c : Cursor) (p : CodePoint → Bool) : Cursor := pass p c.mark c.rest

/-- The code points of a class at the front. -/
def taken (c : Cursor) (p : CodePoint → Bool) : Text := c.rest.takeWhile p

/-- Past blanks, as long as the column is below a limit. -/
def passBlanks (limit : Nat) (m : Mark) : Text → Cursor
  | [] => ⟨[], m⟩
  | d :: rest =>
    if d = ' ' ∧ m.column < limit then passBlanks limit (m.next d rest) rest else ⟨d :: rest, m⟩

def skipBlanks (c : Cursor) (limit : Nat) : Cursor := passBlanks limit c.mark c.rest

/-- Past one break, and what the break means: a line feed, or one of the separators U+2028 and U+2029;
nothing if there is no break. -/
def lineBreak (c : Cursor) : Text × Cursor :=
  if !isBreak c.now then ([], c)
  else if c.now = '\r' ∧ c.peek 1 = '\n' then ([CodePoint.ofChar '\n'], c.skip 2)
  else if c.now.val = 0x2028 ∨ c.now.val = 0x2029 then ([c.now], c.next)
  else ([CodePoint.ofChar '\n'], c.next)

/-- Past a comment, if one begins here. -/
def skipComment (c : Cursor) : Cursor :=
  if c.now = '#' then c.skipWhile (!isBreakOrEnd ·) else c

/-- Whether three points or dashes stand here with a space or the end behind them. -/
def atSeparator (c : Cursor) (sign : CodePoint) : Bool :=
  c.now == sign && c.peek 1 == sign && c.peek 2 == sign && isSpaceOrEnd (c.peek 3)

/-- Whether a separator of documents stands here. -/
def atAnySeparator (c : Cursor) : Bool := c.atSeparator '-' || c.atSeparator '.'

/-- A fault of the scanner at this place. -/
def fail {α : Type} (c : Cursor) (context : Context) (start : Mark) (problem : Problem) :
    Except Fault α :=
  .error (.marked .scanning (some (context, some start)) problem c.mark)

/-- The fault that something else was wanted at this place. -/
def want {α : Type} (c : Cursor) (context : Context) (start : Mark) (wanted : Wanted) :
    Except Fault α :=
  c.fail context start (.expected wanted c.now)

end Cursor

end DocPath.Yaml
