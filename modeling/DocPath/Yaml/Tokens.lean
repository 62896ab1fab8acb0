import DocPath.Yaml.Token.Block
import DocPath.Yaml.Token.Plain
import DocPath.Yaml.Token.Quoted

/-! The tokens of a whole text. Block structure is told by indentation, so the scanner adds tokens where
it grows or shrinks. Whether a node is the key of a mapping shows only at the colon behind it: until
then its place in the list of tokens is reserved, and the tokens from there on are not given out. -/

namespace DocPath.Yaml

/-- A place in the list of tokens where a key may turn out to begin. -/
structure SimpleKey where
  number : Nat
  /-- Nothing but a key can stand there. -/
  required : Bool
  mark : Mark

/-- How far the scanner has come. -/
structure Scan where
  cursor : Cursor
  /-- How many flow collections are open. -/
  flow : Int
  indent : Int
  /-- The indentations further out. -/
  outer : List Int
  keyAllowed : Bool
  /-- The possible keys, one at most for each level of flow collections. -/
  keys : List (Int × SimpleKey)
  /-- The tokens so far, the last one first. -/
  tokens : List Token
  count : Nat

namespace Scan

/-- The longest text of a key that is not marked as one. -/
def keyLimit : Nat := 1024

def start (source : Text) : Scan :=
  let c := Cursor.start source
  ⟨c, 0, -1, [], true, [], [⟨.streamStart, c.mark, c.mark⟩], 1⟩

def mark (s : Scan) : Mark := s.cursor.mark

def column (s : Scan) : Int := s.cursor.column

/-- Adds a token. -/
def push (s : Scan) (t : Token) : Scan := { s with tokens := t :: s.tokens, count := s.count + 1 }

/-- Adds a token without extent. -/
def pushAt (s : Scan) (kind : TokenKind) (m : Mark) : Scan := s.push ⟨kind, m, m⟩

/-- Adds a token of the next code points. -/
def pushSigns (s : Scan) (kind : TokenKind) (length : Nat) : Scan :=
  let stop := s.cursor.skip length
  { s.push ⟨kind, s.mark, stop.mark⟩ with cursor := stop }

/-- Puts tokens in front of the one with a number. -/
def splice (s : Scan) (number : Nat) (kinds : List TokenKind) (m : Mark) : Scan :=
  let later := s.tokens.take (s.count - number)
  let added := (kinds.map fun kind => (⟨kind, m, m⟩ : Token)).reverse
  { s with
    tokens := later ++ added ++ s.tokens.drop (s.count - number)
    count := s.count + kinds.length }

/-- A possible key ends with its line, and is not longer than the limit. -/
def isStale (s : Scan) (k : SimpleKey) : Bool :=
  k.mark.line != s.mark.line || k.mark.index + keyLimit < s.mark.index

/-- Gives up the possible keys of a class. -/
def giveUp (s : Scan) (p : Int × SimpleKey → Bool) : Except Fault Scan :=
  match s.keys.find? fun k => p k && k.2.required with
  | some k => s.cursor.fail .simpleKey k.2.mark .noColon
  | none => .ok { s with keys := s.keys.filter (!p ·) }

/-- Gives up the keys that have become impossible. -/
def dropStale (s : Scan) : Except Fault Scan := s.giveUp fun k => s.isStale k.2

/-- Gives up the possible key on the current level. -/
def dropKey (s : Scan) : Except Fault Scan := s.giveUp fun k => k.1 == s.flow

/-- Notes that a key may begin here. -/
def saveKey (s : Scan) : Except Fault Scan := do
  if s.keyAllowed then
    let s ← s.dropKey
    let key := ⟨s.count, s.flow == 0 && s.indent == s.column, s.mark⟩
    pure { s with keys := (s.flow, key) :: s.keys }
  else pure s

/-- Closes the block collections that are indented more than a column. -/
def closeBlocks (column : Int) (s : Scan) : List Int → Scan
  | [] => s
  | outer :: rest =>
    if column < s.indent then
      closeBlocks column { s.pushAt .blockEnd s.mark with indent := outer, outer := rest } rest
    else s

def unwind (s : Scan) (column : Int) : Scan :=
  if s.flow = 0 then closeBlocks column s s.outer else s

/-- Makes a column the indentation if it is greater; tells whether it was. -/
def indentTo (s : Scan) (column : Int) : Scan × Bool :=
  if s.indent < column then ({ s with indent := column, outer := s.indent :: s.outer }, true)
  else (s, false)

/-- Begins a block collection here unless one with this indentation is open. -/
def openBlock (s : Scan) (kind : TokenKind) : Scan :=
  let (s, grown) := s.indentTo s.column
  if grown then s.pushAt kind s.mark else s

/-- Past blanks, comments and breaks. Outside flow collections a key may begin on a new line. -/
def skipGaps : Nat → Scan → Scan
  | 0, s => s
  | fuel + 1, s =>
    let stop := (s.cursor.skipWhile (· == (CodePoint.ofChar ' '))).skipComment
    if isBreak stop.now then
      skipGaps fuel { s with cursor := stop.lineBreak.2, keyAllowed := s.keyAllowed || s.flow == 0 }
    else { s with cursor := stop }

/-- To the next token. A mark U+FEFF in front of the whole text is passed. -/
def toNext (s : Scan) : Scan :=
  let c := s.cursor
  let begun := if c.mark.index = 0 ∧ c.now.val = 0xFEFF then { s with cursor := c.next } else s
  skipGaps (c.rest.length + 1) begun

/-- The end of the text. -/
def finish (s : Scan) : Except Fault Scan := do
  let s ← (s.unwind (-1)).dropKey
  pure ({ s with keyAllowed := false, keys := [] }.pushAt .streamEnd s.mark)

/-- A line with a directive. -/
def directive (s : Scan) : Except Fault Scan := do
  let s ← (s.unwind (-1)).dropKey
  let (token, stop) ← Token.directive s.cursor
  pure { s.push token with cursor := stop, keyAllowed := false }

/-- A separator of documents. -/
def separator (s : Scan) (kind : TokenKind) : Except Fault Scan := do
  let s ← (s.unwind (-1)).dropKey
  pure ({ s with keyAllowed := false }.pushSigns kind 3)

def openFlow (s : Scan) (kind : TokenKind) : Except Fault Scan := do
  let s ← s.saveKey
  pure ({ s with flow := s.flow + 1, keyAllowed := true }.pushSigns kind 1)

def closeFlow (s : Scan) (kind : TokenKind) : Except Fault Scan := do
  let s ← s.dropKey
  pure ({ s with flow := s.flow - 1, keyAllowed := false }.pushSigns kind 1)

def flowEntry (s : Scan) : Except Fault Scan := do
  let s ← s.dropKey
  pure ({ s with keyAllowed := true }.pushSigns .flowEntry 1)

/-- Refuses a sign of block collections where none can begin. -/
def requireKeyAllowed (s : Scan) (problem : Problem) : Except Fault Unit :=
  if s.flow = 0 ∧ !s.keyAllowed then .error (.marked .scanning none problem s.mark) else .ok ()

def blockEntry (s : Scan) : Except Fault Scan := do
  s.requireKeyAllowed .sequenceEntry
  let s := if s.flow = 0 then s.openBlock .blockSequenceStart else s
  let s ← s.dropKey
  pure ({ s with keyAllowed := true }.pushSigns .blockEntry 1)

def key (s : Scan) : Except Fault Scan := do
  s.requireKeyAllowed .mappingKey
  let s := if s.flow = 0 then s.openBlock .blockMappingStart else s
  let s ← s.dropKey
  pure ({ s with keyAllowed := s.flow == 0 }.pushSigns .key 1)

/-- A colon. If a possible key is open on this level it becomes one. -/
def value (s : Scan) : Except Fault Scan := do
  match s.keys.lookup s.flow with
  | some key =>
    let s := { s with keys := s.keys.filter fun k => k.1 != s.flow, keyAllowed := false }
    let (s, grown) := if s.flow = 0 then s.indentTo key.mark.column else (s, false)
    let kinds := if grown then [TokenKind.blockMappingStart, .key] else [.key]
    pure ((s.splice key.number kinds key.mark).pushSigns .value 1)
  | none =>
    s.requireKeyAllowed .mappingValue
    let s := if s.flow = 0 then s.openBlock .blockMappingStart else s
    let s ← s.dropKey
    pure ({ s with keyAllowed := s.flow == 0 }.pushSigns .value 1)

/-- A token that may be the beginning of a key or all of it. -/
def property (s : Scan) (read : Reader Token) : Except Fault Scan := do
  let s ← s.saveKey
  let (token, stop) ← read s.cursor
  pure { s.push token with cursor := stop, keyAllowed := false }

def blockScalar (s : Scan) (folded : Bool) : Except Fault Scan := do
  let s ← s.dropKey
  let (token, stop) ← Token.blockScalar folded s.indent s.cursor
  pure { s.push token with cursor := stop, keyAllowed := true }

def plain (s : Scan) : Except Fault Scan := do
  let s ← s.saveKey
  let ((token, broke), stop) := Token.plain (s.flow != 0) s.indent s.cursor
  pure { s.push token with cursor := stop, keyAllowed := broke }

/-- Whether a plain scalar can begin here. -/
def startsPlain (s : Scan) : Bool :=
  let c := s.cursor.now
  let sign := Text.contains "-?:,[]\x7b\x7d#&*!|>'\"%@\x60" [c]
  (!isSpaceOrEnd c && !sign) ||
    (!isSpaceOrEnd (s.cursor.peek 1) && (c.is '-' || (s.flow == 0 && (c.is '?' || c.is ':'))))

/-- Reads the next token here; the end of the text is none. -/
def token (s : Scan) : Except Fault Scan :=
  let c := s.cursor
  let atLineStart : Bool := c.column == 0
  let beforeSpace := isSpaceOrEnd (c.peek 1)
  if c.now = '%' ∧ atLineStart then s.directive
  else if atLineStart ∧ c.atSeparator '-' then s.separator .documentStart
  else if atLineStart ∧ c.atSeparator '.' then s.separator .documentEnd
  else if c.now = '[' then s.openFlow .flowSequenceStart
  else if c.now = '\x7b' then s.openFlow .flowMappingStart
  else if c.now = ']' then s.closeFlow .flowSequenceEnd
  else if c.now = '\x7d' then s.closeFlow .flowMappingEnd
  else if c.now = ',' then s.flowEntry
  else if c.now = '-' ∧ beforeSpace then s.blockEntry
  else if c.now = '?' ∧ (s.flow ≠ 0 ∨ beforeSpace) then s.key
  else if c.now = ':' ∧ (s.flow ≠ 0 ∨ beforeSpace) then s.value
  else if c.now = '*' ∨ c.now = '&' then s.property Token.anchor
  else if c.now = '!' then s.property Token.tag
  else if c.now = '|' ∧ s.flow = 0 then s.blockScalar false
  else if c.now = '>' ∧ s.flow = 0 then s.blockScalar true
  else if c.now = '\'' then s.property (Token.quoted false)
  else if c.now = '"' then s.property (Token.quoted true)
  else if s.startsPlain then s.plain
  else .error (.marked .scanning (some (.nextToken, none)) (.noToken c.now) s.mark)

/-- Reads on up to and including the next token, and tells whether it was the last. -/
def advance (s : Scan) : Except Fault (Scan × Bool) := do
  let s ← s.toNext.dropStale
  let s := s.unwind s.column
  if s.cursor.rest.isEmpty then pure (← s.finish, true)
  else pure (← (← s.token).dropStale, false)

/-- How many tokens can be given out: those in front of the first possible key. -/
def released (s : Scan) : Nat := s.keys.foldl (fun n k => min n k.2.number) s.count

end Scan

/-- Tokens in order, and the fault behind them if they are not all. -/
structure Tokens where
  tokens : List Token
  fault : Option Fault

namespace Tokens

/-- Continues a scan to the end. -/
def scanFrom : Nat → Scan → Tokens
  | 0, s => ⟨s.tokens.reverse, none⟩
  | fuel + 1, s =>
    match s.advance with
    | .error fault => ⟨s.tokens.reverse.take s.released, some fault⟩
    | .ok (s, true) => ⟨s.tokens.reverse, none⟩
    | .ok (s, false) => scanFrom fuel s

/-- The tokens of a text. -/
def scan (source : Text) : Tokens := scanFrom (source.length + 2) (Scan.start source)

end Tokens

end DocPath.Yaml
