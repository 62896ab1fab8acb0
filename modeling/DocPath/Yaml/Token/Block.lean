import DocPath.Yaml.Token.Directive

/-! Block scalars, literal and folded. -/

namespace DocPath.Yaml.Token

/-- What becomes of the breaks at the end of a block scalar. -/
inductive Chomping where
  | strip
  | clip
  | keep
  deriving DecidableEq

def chomping? (c : CodePoint) : Option Chomping :=
  if c = '+' then some .keep else if c = '-' then some .strip else none

/-- A digit that tells the indentation, if one stands here. -/
def indentation (start : Mark) : Reader (Option Nat) := fun c =>
  if c.now.isDigit then
    if c.now = '0' then c.fail .blockScalar start .zeroIndentation
    else .ok (some c.now.digitValue, c.next)
  else .ok (none, c)

/-- The indicators behind the sign of a block scalar, in either order. -/
def blockIndicators (start : Mark) : Reader (Chomping × Option Nat) := fun c => do
  let (result, stop) ← match chomping? c.now with
    | some chomping => do
      let (indent, stop) ← indentation start c.next
      pure ((chomping, indent), stop)
    | none => do
      let (indent, behind) ← indentation start c
      match indent, chomping? behind.now with
      | some n, some chomping => pure ((chomping, some n), behind.next)
      | _, _ => pure ((.clip, indent), behind)
  if isBlankOrEnd stop.now then pure (result, stop)
  else stop.want .blockScalar start .blockIndicators

/-- Breaks and blanks: the breaks, the greatest column reached by blanks, and the place behind the last
break. -/
def leadingBreaks : Nat → Nat → Mark → Cursor → (Text × Nat × Mark) × Cursor
  | 0, widest, stop, c => (([], widest, stop), c)
  | fuel + 1, widest, stop, c =>
    if c.now = ' ' then leadingBreaks fuel (max widest c.next.column) stop c.next
    else if isBreak c.now then
      let (text, behind) := c.lineBreak
      let ((more, result), last) := leadingBreaks fuel widest behind.mark behind
      ((text ++ more, result), last)
    else (([], widest, stop), c)

/-- Breaks between lines that are indented: the breaks, and the place behind the last. -/
def breaksBetween (indent : Nat) : Nat → Mark → Cursor → (Text × Mark) × Cursor
  | 0, stop, c => (([], stop), c)
  | fuel + 1, stop, c =>
    let line := c.skipBlanks indent
    if isBreak line.now then
      let (text, behind) := line.lineBreak
      let ((more, last), final) := breaksBetween indent fuel behind.mark behind
      ((text ++ more, last), final)
    else (([], stop), line)

/-- Whether a line begins with a blank or tab. -/
def isSpaced (c : CodePoint) : Bool := c.is ' ' || c.is '\t'

/-- The lines of a block scalar: their text, the break behind the last line, the breaks after it and the
place where they end. -/
def blockLines (folded : Bool) (indent : Nat) :
    Nat → Text → Mark → Cursor → (Text × Text × Text × Mark) × Cursor
  | 0, breaks, stop, c => (([], [], breaks, stop), c)
  | fuel + 1, breaks, stop, c =>
    if c.column = indent ∧ !c.rest.isEmpty then
      let line := c.taken (!isBreakOrEnd ·)
      let (ending, behind) := (c.skipWhile (!isBreakOrEnd ·)).lineBreak
      let ((between, last), next) :=
        breaksBetween indent (behind.rest.length + 1) behind.mark behind
      if next.column = indent ∧ !next.rest.isEmpty then
        let joint : Text :=
          if folded ∧ ending = "\n" ∧ !isSpaced c.now ∧ !isSpaced next.now then
            if between.isEmpty then " " else []
          else ending
        let ((text, result), final) := blockLines folded indent fuel between last next
        ((.concat [breaks, line, joint, text], result), final)
      else ((breaks ++ line, ending, between, last), next)
    else (([], [], breaks, stop), c)

/-- A block scalar inside a collection of the given indentation. -/
def blockScalar (folded : Bool) (outer : Int) : Reader Token := fun c => do
  let ((chomping, increment), behind) ← blockIndicators c.mark c.next
  let body ← emptyRest .blockScalar c.mark behind
  let least := (max (outer + 1) 1).toNat
  let (indent, breaks, stop, first) := match increment with
    | none =>
      let ((breaks, widest, stop), first) :=
        leadingBreaks (body.rest.length + 1) 0 body.mark body
      (max least widest, breaks, stop, first)
    | some n =>
      let indent := least + n - 1
      let ((breaks, stop), first) :=
        breaksBetween indent (body.rest.length + 1) body.mark body
      (indent, breaks, stop, first)
  let ((text, ending, after, last), final) :=
    blockLines folded indent (first.rest.length + 1) breaks stop first
  let tail : Text := match chomping with
    | .strip => []
    | .clip => ending
    | .keep => ending ++ after
  pure (⟨.scalar (text ++ tail) false, c.mark, last⟩, final)

end DocPath.Yaml.Token
