import DocPath.Yaml.Token.Property

/-! Directives. -/

namespace DocPath.Yaml.Token

/-- The name of a directive. -/
def directiveName (start : Mark) : Reader Text := fun c =>
  let name := c.taken isNamePart
  let stop := c.skipWhile isNamePart
  if name.isEmpty || !isBlankOrEnd stop.now then stop.want .directive start .name
  else .ok (name, stop)

/-- One of the two numbers of a version. -/
def versionNumber (start : Mark) : Reader Nat := fun c =>
  let digits := c.taken CodePoint.isDigit
  if digits.isEmpty then c.want .directive start .digit
  else match Numeral.readInteger 10 digits with
    | .error fault => .error (.number fault)
    | .ok n => .ok (n.toNat, c.skipWhile CodePoint.isDigit)

/-- The version that a directive asks for. -/
def version (start : Mark) : Reader Directive := fun c => do
  let (major, point) ← versionNumber start (c.skipWhile (· == (CodePoint.ofChar ' ')))
  if point.now ≠ '.' then point.want .directive start .digitOrPoint
  else
    let (minor, stop) ← versionNumber start point.next
    if !isBlankOrEnd stop.now then stop.want .directive start .digitOrBlank
    else pure (.version major minor, stop)

/-- The handle that a directive introduces, and the address that it stands for. -/
def handleDefinition (start : Mark) : Reader Directive := fun c => do
  let (name, behind) ← handle .directive start (c.skipWhile (· == (CodePoint.ofChar ' ')))
  if behind.now ≠ ' ' then behind.want .directive start .blank
  else
    let (target, stop) ← address .directive start (behind.skipWhile (· == (CodePoint.ofChar ' ')))
    if !isBlankOrEnd stop.now then stop.want .directive start .blank
    else pure (.handle name target, stop)

/-- The rest of a line that holds nothing but a comment. -/
def emptyRest (context : Context) (start : Mark) (c : Cursor) : Except Fault Cursor :=
  let stop := (c.skipWhile (· == (CodePoint.ofChar ' '))).skipComment
  if isBreakOrEnd stop.now then .ok stop.lineBreak.2
  else stop.want context start .commentOrBreak

/-- A line with a directive; those with unknown names are kept by name only. -/
def directive : Reader Token := fun c => do
  let (name, behind) ← directiveName c.mark c.next
  if name = "YAML" then
    let (d, stop) ← version c.mark behind
    pure (⟨.directive d, c.mark, stop.mark⟩, ← emptyRest .directive c.mark stop)
  else if name = "TAG" then
    let (d, stop) ← handleDefinition c.mark behind
    pure (⟨.directive d, c.mark, stop.mark⟩, ← emptyRest .directive c.mark stop)
  else
    pure (⟨.directive (.other name), c.mark, behind.mark⟩,
      ← emptyRest .directive c.mark (behind.skipWhile (!isBreakOrEnd ·)))

end DocPath.Yaml.Token
