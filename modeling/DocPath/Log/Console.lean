import DocPath.Log.Level
import DocPath.Text.Width

/-! How a message looks on a console: its level in brackets, the name of its logger and its text. -/

namespace DocPath.Log

/-- Starts every styled part. -/
def escape : Text := "\x1b["

/-- The style of a level: faint, cyan, yellow, red or bold red; none for levels without a name. -/
def levelStyle? (level : Int) : Option Text :=
  if level = 10 then some "2"
  else if level = 20 then some "36"
  else if level = 30 then some "33"
  else if level = 40 then some "31"
  else if level = 50 then some "1;31"
  else none

/-- A text in a style. -/
def styled (style : Text) (t : Text) : Text := .concat [escape, style, "m", t, escape, "0m"]

/-- Controls that a console would act on. -/
def isControl (c : CodePoint) : Bool := c.val == 7 || c.val == 8 || (11 ≤ c.val && c.val ≤ 13)

/-- The line of a message. Tabs are filled up to the next stop, and lines are not broken. -/
def line (colored : Bool) (logger : Text) (level : Int) (message : Text) : Text :=
  let tag := Text.concat ["[", levelName level, "] "]
  let name := Text.concat [logger, ": "]
  let whole := Text.expandTabs (.concat [tag, name, message.filter (!isControl ·)])
  let body := whole.drop (tag.length + name.length)
  let tagText := match levelStyle? level with
    | some style => if colored then styled style tag else tag
    | none => tag
  .concat [tagText, if colored then styled "1" name else name, body, "\n"]

end DocPath.Log
