import DocPath.Text.Printable

/-! Quoted texts: how a text or a byte string is shown inside a message or another value. -/

namespace DocPath

namespace CodePoint

/-- The escape that names a code point by two, four or eight hexadecimal digits. -/
def escape (c : CodePoint) : Text :=
  if c.val < 0x100 then '\\' :: 'x' :: Text.hex 2 c.val
  else if c.val < 0x10000 then '\\' :: 'u' :: Text.hex 4 c.val
  else '\\' :: 'U' :: Text.hex 8 c.val

/-- One code point between quotation marks of the given form. -/
def quoted (mark : CodePoint) (c : CodePoint) : Text :=
  if c = mark ∨ c = '\\' then ['\\', c]
  else if c = '\t' then "\\t"
  else if c = '\n' then "\\n"
  else if c = '\r' then "\\r"
  else if c.isPrintable then [c]
  else c.escape

end CodePoint

namespace Text

/-- The quotation mark for a text: the single one unless the text holds single ones and no double
one. -/
def quotationMark (t : Text) : CodePoint :=
  if t.contains ['\''] && !t.contains ['"'] then '"' else '\''

/-- A text between quotation marks, with escapes for what could not be read back. -/
def quoted (t : Text) : Text :=
  let mark := quotationMark t
  mark :: t.flatMap (CodePoint.quoted mark) ++ [mark]

end Text

/-- One byte between quotation marks: only the visible ASCII characters stand as they are. -/
def quotedByte (mark : CodePoint) (b : UInt8) : Text :=
  let c := CodePoint.ofNat b.toNat
  if c = mark ∨ c = '\\' then ['\\', c]
  else if c = '\t' then "\\t"
  else if c = '\n' then "\\n"
  else if c = '\r' then "\\r"
  else if 0x20 ≤ c.val && c.val < 0x7F then [c]
  else c.escape

/-- Bytes between quotation marks after a `b`. -/
def quotedBytes (bs : List UInt8) : Text :=
  let mark := Text.quotationMark (bs.map fun b => CodePoint.ofNat b.toNat)
  ("b" : Text) ++ [mark] ++ bs.flatMap (quotedByte mark) ++ [mark]

end DocPath
