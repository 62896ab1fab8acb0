import DocPath.Yaml.Cursor
import DocPath.Yaml.Token

/-! Plain scalars. -/

namespace DocPath.Yaml.Token

/-- The brackets and the comma. -/
def isFlowSign (c : CodePoint) : Bool := Text.contains ",[]\x7b\x7d" [c]

/-- Whether a code point behind a colon makes it end a key. -/
def endsKey (flow : Bool) (c : CodePoint) : Bool := isSpaceOrEnd c || (flow && isFlowSign c)

/-- The length of the word at the front of a plain scalar. It ends in front of a space, or of a colon with
a space behind it; inside flow collections also in front of their signs. -/
def wordLength (flow : Bool) : Text → Nat
  | [] => 0
  | c :: rest =>
    if isSpaceOrEnd c || (flow && (isFlowSign c || c.is '?')) then 0
    else if c = ':' ∧ endsKey flow (rest.headD CodePoint.nul) then 0
    else wordLength flow rest + 1

/-- Breaks after the first inside a plain scalar, with the blanks around them left out; nothing if a line
begins with a separator of documents. -/
def plainBreaks : Nat → Cursor → Option Text × Cursor
  | 0, c => (some [], c)
  | fuel + 1, c =>
    if c.now = ' ' then plainBreaks fuel c.next
    else if isBreak c.now then
      let (text, behind) := c.lineBreak
      if behind.atAnySeparator then (none, behind)
      else
        let (more, stop) := plainBreaks fuel behind
        (more.map (text ++ ·), stop)
    else (some [], c)

/-- What lies between two words of a plain scalar: the text that it stands for, and whether it has a break.
Without text nothing more of the scalar follows. -/
def plainSpaces (c : Cursor) : (Text × Bool) × Cursor :=
  let blank := fun d : CodePoint => d.is ' '
  let behind := c.skipWhile blank
  if isBreak behind.now then
    let (text, line) := behind.lineBreak
    if line.atAnySeparator then (([], true), line)
    else
      match plainBreaks (line.rest.length + 1) line with
      | (none, stop) => (([], true), stop)
      | (some more, stop) =>
        let joint : Text :=
          if text ≠ "\n" then text else if more.isEmpty then " " else []
        ((joint ++ more, true), stop)
  else ((c.taken blank, false), behind)

/-- What is found when a plain scalar is read. -/
structure PlainPart where
  text : Text
  stop : Mark
  /-- Whether a break was passed after the last word. -/
  brokeLine : Bool

/-- The words of a plain scalar and the spaces between them. `spaces` comes in front of the next word. -/
def plainWords (flow : Bool) (indent : Int) :
    Nat → Text → PlainPart → Cursor → PlainPart × Cursor
  | 0, _, part, c => (part, c)
  | fuel + 1, spaces, part, c =>
    let length := wordLength flow c.rest
    if c.now = '#' ∨ length = 0 then (part, c)
    else
      let behind := c.skip length
      let ((between, broke), next) := plainSpaces behind
      let grown := ⟨.concat [part.text, spaces, c.rest.take length], behind.mark, broke⟩
      if between.isEmpty ∨ next.now = '#' ∨ (!flow ∧ (next.column : Int) < indent) then (grown, next)
      else plainWords flow indent fuel between grown next

/-- A plain scalar inside a collection of the given indentation, and whether it ends with a break. -/
def plain (flow : Bool) (outer : Int) (c : Cursor) : (Token × Bool) × Cursor :=
  let (part, stop) :=
    plainWords flow (outer + 1) (c.rest.length + 1) [] ⟨[], c.mark, false⟩ c
  ((⟨.scalar part.text true, c.mark, part.stop⟩, part.brokeLine), stop)

end DocPath.Yaml.Token
