import DocPath.Charset.Utf8
import DocPath.Yaml.Cursor
import DocPath.Yaml.Token

/-! The tokens that describe a node: anchors, aliases and tags. -/

namespace DocPath.Yaml

/-- Where a handle or an address stands. -/
inductive Place where
  | tag
  | directive
  deriving DecidableEq

/-- The context of faults in the parts of a tag or directive. -/
def Place.context : Place → Context
  | tag => .tag
  | directive => .directive

/-- The context of a missing address. -/
def Place.addressContext : Place → Context
  | tag => .tagAddress
  | directive => .directiveAddress

namespace Token

/-- What may follow the name of an anchor or alias. -/
def endsAnchor (c : CodePoint) : Bool :=
  isSpaceOrEnd c || Text.contains "?:,]\x7d%@\x60" [c]

/-- An anchor or alias with its sign in front. -/
def anchor : Reader Token := fun c =>
  let isAlias : Bool := c.now.is '*'
  let context : Context := if isAlias then .alias else .anchor
  let name := c.next.taken isNamePart
  let stop := c.next.skipWhile isNamePart
  if name.isEmpty || !endsAnchor stop.now then stop.want context c.mark .name
  else .ok (⟨if isAlias then .alias name else .anchor name, c.mark, stop.mark⟩, stop)

/-- A handle: exclamation marks with a name between them, or a single one. -/
def handle (place : Place) (start : Mark) : Reader Text := fun c =>
  if c.now ≠ '!' then c.want place.context start .exclamation
  else if c.peek 1 = ' ' then .ok ("!", c.next)
  else
    let name := c.next.taken isNamePart
    let stop := c.next.skipWhile isNamePart
    if stop.now ≠ '!' then stop.want place.context start .exclamation
    else .ok (.concat ["!", name, "!"], stop.next)

/-- A code point of an address, percent signs apart. -/
def isAddressPart (c : CodePoint) : Bool :=
  c.isDigit || c.isLetter || Text.contains "-;/?:@&=+$,_.!~*'()[]" [c]

/-- The bytes of percent escapes at the front. -/
def escapedBytes (place : Place) (start : Mark) : Nat → Reader (List UInt8)
  | 0, c => .ok ([], c)
  | fuel + 1, c =>
    if c.now ≠ '%' then .ok ([], c)
    else
      let digits := c.next
      if !digits.now.isHexDigit then
        digits.fail place.context start (.expected .addressEscape digits.now)
      else if !(digits.peek 1).isHexDigit then
        digits.fail place.context start (.expected .addressEscape (digits.peek 1))
      else do
        let byte := (digits.now.digitValue * 16 + (digits.peek 1).digitValue).toUInt8
        let (more, stop) ← escapedBytes place start fuel (digits.skip 2)
        pure (byte :: more, stop)

/-- The pieces of an address. -/
def addressPieces (place : Place) (start : Mark) : Nat → Reader (List Text)
  | 0, c => .ok ([], c)
  | fuel + 1, c =>
    if isAddressPart c.now then do
      let (more, stop) ← addressPieces place start fuel (c.skipWhile isAddressPart)
      pure (c.taken isAddressPart :: more, stop)
    else if c.now = '%' then do
      let (bytes, behind) ← escapedBytes place start c.rest.length c
      match Charset.Utf8.decodeFrom 0 bytes with
      | .error fault => c.fail place.context start (.addressBytes fault)
      | .ok text =>
        let (more, stop) ← addressPieces place start fuel behind
        pure (text :: more, stop)
    else .ok ([], c)

/-- An address, which is not empty. -/
def address (place : Place) (start : Mark) : Reader Text := fun c => do
  let (pieces, stop) ← addressPieces place start (c.rest.length + 1) c
  if pieces.isEmpty then stop.want place.addressContext start .address
  else pure (Text.concat pieces, stop)

/-- Handle and suffix of a tag. -/
def tagName (start : Mark) : Reader (Option Text × Text) := fun c =>
  if c.peek 1 = '<' then do
    let (suffix, stop) ← address .tag start (c.skip 2)
    if stop.now ≠ '>' then stop.want .tagAddress start .closingAngle
    else pure ((none, suffix), stop.next)
  else if isSpaceOrEnd (c.peek 1) then .ok ((none, "!"), c.next)
  else if (c.next.taken (!isBlankOrEnd ·)).any (· == (CodePoint.ofChar '!')) then do
    let (name, behind) ← handle .tag start c
    let (suffix, stop) ← address .tag start behind
    pure ((some name, suffix), stop)
  else do
    let (suffix, stop) ← address .tag start c.next
    pure ((some "!", suffix), stop)

/-- A tag, which a blank or the end of the line must follow. -/
def tag : Reader Token := fun c => do
  let ((name, suffix), stop) ← tagName c.mark c
  if !isBlankOrEnd stop.now then stop.want .tag c.mark .blank
  else pure (⟨.tag name suffix, c.mark, stop.mark⟩, stop)

end Token

end DocPath.Yaml
