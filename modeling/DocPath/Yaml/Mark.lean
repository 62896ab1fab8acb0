import DocPath.Text

/-! Places in a YAML text, and how a message shows them. -/

namespace DocPath.Yaml

/-- A place: how many code points come before it, and its line and column, all from zero. -/
structure Mark where
  index : Nat
  line : Nat
  column : Nat
  deriving DecidableEq, Inhabited

/-- The code points that end a line. -/
def isBreak (c : CodePoint) : Bool :=
  c.is '\n' || c.is '\r' || c.val == 0x85 || c.val == 0x2028 || c.val == 0x2029

namespace Mark

/-- How many code points of a line are shown on either side of a place. -/
def reach : Nat := 37

/-- The part of the line in front of a place, given backwards; a longer one is cut. -/
def head (before : Text) : Text × Text :=
  let line := before.takeWhile (!isBreak ·)
  if reach ≤ line.length then (" ... ", (line.take (reach - 5)).reverse)
  else ("", line.reverse)

/-- The part of the line from a place on; a longer one is cut. -/
def tail (after : Text) : Text × Text :=
  let line := after.takeWhile (!isBreak ·)
  if reach ≤ line.length then (line.take (reach - 5), " ... ")
  else (line, "")

/-- The line around a place, and below it a mark at the place. -/
def snippet (source : Text) (m : Mark) : Text :=
  let (cutBefore, before) := head (source.take m.index).reverse
  let (after, cutAfter) := tail (source.drop m.index)
  .concat ["    ", cutBefore, before, after, cutAfter, "\n",
    List.replicate (4 + before.length + cutBefore.length) ' ', "^"]

/-- Where a place is, with the line around it. -/
def shown (source : Text) (m : Mark) : Text :=
  .concat ["  in \"<unicode string>\", line ", .ofNat (m.line + 1), ", column ",
    .ofNat (m.column + 1), ":\n", snippet source m]

end Mark

end DocPath.Yaml
