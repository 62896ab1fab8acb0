import DocPath.Yaml.Cursor
import DocPath.Yaml.Token

/-! Scalars between quotation marks, single or double. -/

namespace DocPath.Yaml.Token

/-- What a code point behind a backslash stands for. -/
def escapes : List (Char × Nat) :=
  [('0', 0), ('a', 7), ('b', 8), ('t', 9), ('\t', 9), ('n', 10), ('v', 11), ('f', 12), ('r', 13),
    ('e', 0x1B), (' ', 0x20), ('"', 0x22), ('\\', 0x5C), ('/', 0x2F), ('N', 0x85), ('_', 0xA0),
    ('L', 0x2028), ('P', 0x2029)]

def escape? (c : CodePoint) : Option CodePoint :=
  (escapes.find? fun e => c == CodePoint.ofChar e.1).map fun e => CodePoint.ofNat e.2

/-- How many hexadecimal digits follow a letter behind a backslash. -/
def digitCount? (c : CodePoint) : Option Nat :=
  if c = 'x' then some 2 else if c = 'u' then some 4 else if c = 'U' then some 8 else none

/-- The code point of hexadecimal digits. -/
def hexPoint (start : Mark) (count : Nat) : Reader CodePoint := fun c =>
  let digits := (c.rest.take count).takeWhile CodePoint.isHexDigit
  if digits.length < count then
    c.fail .doubleQuotedScalar start (.expected (.hexDigits count) (c.peek digits.length))
  else
    let n := Numeral.value 16 digits
    if n < 0x110000 then .ok (CodePoint.ofNat n, c.skip count) else .error (.noCodePoint n)

/-- Breaks inside a quoted scalar, with the spaces around them left out. -/
def quotedBreaks (start : Mark) : Nat → Reader Text
  | 0, c => .ok ([], c)
  | fuel + 1, c =>
    if c.atAnySeparator then c.fail .quotedScalar start .documentSeparator
    else
      let line := c.skipWhile fun d => d.is ' ' || d.is '\t'
      if isBreak line.now then do
        let (text, behind) := line.lineBreak
        let (more, stop) ← quotedBreaks start fuel behind
        pure (text ++ more, stop)
      else .ok ([], line)

/-- A break and what follows it: a single line feed becomes a blank. -/
def foldedBreak (start : Mark) : Reader Text := fun c => do
  let (text, behind) := c.lineBreak
  let (more, stop) ← quotedBreaks start (behind.rest.length + 1) behind
  let joint : Text :=
    if text ≠ "\n" then text else if more.isEmpty then " " else []
  pure (joint ++ more, stop)

/-- What stands behind a backslash. -/
def escapeSequence (start : Mark) : Reader Text := fun c =>
  match escape? c.now, digitCount? c.now with
  | some d, _ => .ok ([d], c.next)
  | none, some count => do
    let (d, stop) ← hexPoint start count c.next
    pure ([d], stop)
  | none, none =>
    if isBreak c.now then
      let behind := c.lineBreak.2
      quotedBreaks start (behind.rest.length + 1) behind
    else c.fail .doubleQuotedScalar start (.unknownEscape c.now)

/-- A code point that stands for itself wherever it is. -/
def isQuotedPlain (c : CodePoint) : Bool :=
  !(isSpaceOrEnd c || c.is '\'' || c.is '"' || c.is '\\')

/-- The text up to the closing quotation mark. -/
def quotedText (double : Bool) (start : Mark) : Nat → Reader Text
  | 0, c => .ok ([], c)
  | fuel + 1, c =>
    let also (r : Except Fault (Text × Cursor)) : Except Fault (Text × Cursor) := do
      let (text, behind) ← r
      let (more, stop) ← quotedText double start fuel behind
      pure (text ++ more, stop)
    if isQuotedPlain c.now then also (.ok (c.taken isQuotedPlain, c.skipWhile isQuotedPlain))
    else if c.now = '\'' then
      if double then also (.ok ([c.now], c.next))
      else if c.peek 1 = '\'' then also (.ok ([c.now], c.skip 2))
      else .ok ([], c)
    else if c.now = '"' then
      if double then .ok ([], c) else also (.ok ([c.now], c.next))
    else if c.now = '\\' then
      if double then also (escapeSequence start c.next) else also (.ok ([c.now], c.next))
    else
      let spaces := fun d : CodePoint => d.is ' ' || d.is '\t'
      let behind := c.skipWhile spaces
      if isBreak behind.now then also (foldedBreak start behind)
      else if behind.rest.isEmpty then behind.fail .quotedScalar start .endOfStream
      else also (.ok (c.taken spaces, behind))

/-- A scalar between quotation marks. -/
def quoted (double : Bool) : Reader Token := fun c => do
  let (text, stop) ← quotedText double c.mark (c.rest.length + 1) c.next
  pure (⟨.scalar text false, c.mark, stop.next.mark⟩, stop.next)

end DocPath.Yaml.Token
