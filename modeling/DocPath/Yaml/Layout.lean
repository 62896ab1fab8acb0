import DocPath.Yaml.Cursor
import DocPath.Yaml.Token.Quoted
import DocPath.Yaml.Tree

/-! Writing YAML: block collections, and scalars plain where they can be, else between quotation marks. -/

namespace DocPath.Yaml

/-- What the next sign depends on: the column, whether a blank, break or opening bracket was written last,
and whether the line has nothing but indentation and signs of block collections. -/
structure Pen where
  column : Nat
  spaced : Bool
  fresh : Bool
  /-- The document ends in a plain scalar that a further line would continue. -/
  openEnded : Bool
  deriving DecidableEq

abbrev Writing := StateM Pen Text

namespace Layout

/-- The column behind which lines are broken. -/
def width : Nat := 80

/-- How much further an inner collection is indented. -/
def indentStep : Nat := 2

/-- The code points that a written text has as breaks. -/
def isTextBreak (c : CodePoint) : Bool :=
  c.is '\n' || c.val == 0x85 || c.val == 0x2028 || c.val == 0x2029

/-- Writes a text as it is. -/
def put (t : Text) : Writing := do
  modify fun p => { p with column := p.column + t.length }
  pure t

/-- Writes texts one behind the other. -/
def sequentially : List Writing → Writing
  | [] => pure []
  | w :: ws => do
    let first ← w
    pure (first ++ (← sequentially ws))

/-- Writes a sign, with a blank in front if it needs one and there is none. -/
def sign (t : Text) (needsSpace : Bool) (spacedAfter keepsFresh : Bool) : Writing := do
  let p ← get
  let data := if p.spaced || !needsSpace then t else ' ' :: t
  set (⟨p.column + data.length, spacedAfter, p.fresh && keepsFresh, false⟩ : Pen)
  pure data

/-- Ends the line with a break. -/
def breakLine (t : Text) : Writing := do
  modify fun p => { p with column := 0, spaced := true, fresh := true }
  pure t

/-- Goes to a column, on a new line if something stands on this one. -/
def goTo (column : Nat) : Writing := do
  let p ← get
  let ending ←
    if !p.fresh || column < p.column || (p.column == column && !p.spaced) then breakLine "\n"
    else pure []
  let p ← get
  if p.column < column then
    set ({ p with column, spaced := true } : Pen)
    pure (ending ++ List.replicate (column - p.column) (CodePoint.ofChar ' '))
  else pure ending

/-- From here on the line is neither fresh nor spaced. -/
def settle : Writing := do
  modify fun p => { p with spaced := false, fresh := false }
  pure []

/-- Whether a line may be broken in place of a blank: a single one between other code points, behind the
last column. -/
def foldsAt (split : Bool) (before : Option CodePoint) (rest : Text) (column : Nat) : Bool :=
  let blank := CodePoint.ofChar ' '
  split && width < column && before.isSome && before != some blank && !rest.isEmpty &&
    rest.head? != some blank

/-- The words of a plain scalar. -/
def plainFrom (split : Bool) (indent : Nat) (before : Option CodePoint) : Text → Writing
  | [] => pure []
  | c :: rest => do
    let first ← if c = ' ' ∧ foldsAt split before rest (← get).column then
        sequentially [goTo indent, settle]
      else put [c]
    pure (first ++ (← plainFrom split indent (some c) rest))

def plain (split : Bool) (indent : Nat) (t : Text) : Writing := do
  let gap ← if t.isEmpty || (← get).spaced then pure [] else put " "
  if t.isEmpty then pure gap
  else
    let _ ← settle
    pure (gap ++ (← plainFrom split indent none t))

/-- The text of a scalar between single quotation marks. A line feed is written twice where breaks begin,
because a single one would be read as a blank. -/
def singleFrom (split : Bool) (indent : Nat) (before : Option CodePoint) : Text → Writing
  | [] => pure []
  | c :: rest => do
    let first ←
      if c = ' ' then
        if foldsAt split before rest (← get).column then goTo indent else put [c]
      else if isTextBreak c then
        let begins : Bool := !(before.any isTextBreak)
        let ends : Bool := !(rest.head?.any isTextBreak)
        sequentially
          [if begins ∧ c = '\n' then breakLine "\n" else pure [], breakLine [c],
            if ends then goTo indent else pure []]
      else if c = '\'' then put "''"
      else put [c]
    pure (first ++ (← singleFrom split indent (some c) rest))

def single (split : Bool) (indent : Nat) (t : Text) : Writing :=
  sequentially [sign "'" true false false, singleFrom split indent none t, sign "'" false false false]

/-- Whether a code point stands for itself between double quotation marks. -/
def isDoublePlain (c : CodePoint) : Bool :=
  let n := c.val
  !c.is '"' && !c.is '\\' && ((0x20 ≤ n && n ≤ 0x7E) ||
    (0xA0 ≤ n && n ≤ 0xD7FF && n != 0x2028 && n != 0x2029) || (0xE000 ≤ n && n ≤ 0xFFFD && n != 0xFEFF))

/-- The letter of an escape that is written for a code point; a few that can be read are not. -/
def escapeLetter? (c : CodePoint) : Option Char :=
  (Token.escapes.find? fun e =>
    e.2 == c.val && e.1 != '\t' && e.1 != ' ' && e.1 != '/').map (·.1)

/-- The escape of a code point between double quotation marks. -/
def doubleEscape (c : CodePoint) : Text :=
  match escapeLetter? c with
  | some l => ['\\', CodePoint.ofChar l]
  | none =>
    if c.val < 0x100 then '\\' :: 'x' :: Text.hexCapital 2 c.val
    else if c.val < 0x10000 then '\\' :: 'u' :: Text.hexCapital 4 c.val
    else '\\' :: 'U' :: Text.hexCapital 8 c.val

/-- Breaks a line between double quotation marks. A backslash keeps the break from being read as a blank,
and another one a blank behind it from being passed over. -/
def doubleBreak (indent : Nat) (next : Text) : Writing :=
  sequentially [put "\\", goTo indent, settle,
    if next.head? = some (CodePoint.ofChar ' ') then put "\\" else pure []]

/-- The text of a scalar between double quotation marks. `inner` tells that something was written before;
`word` that the last code point stands for itself. -/
def doubleFrom (split : Bool) (indent : Nat) (inner word : Bool) : Text → Writing
  | [] => pure []
  | c :: rest => do
    let breakable : Bool := split && inner && !rest.isEmpty
    if isDoublePlain c then
      let mayBreak : Bool := breakable && (c.is ' ' || !word)
      let ending ←
        if mayBreak ∧ width < (← get).column then doubleBreak indent (c :: rest) else pure []
      let first ← put [c]
      pure (.concat [ending, first, ← doubleFrom split indent true true rest])
    else
      let first ← put (doubleEscape c)
      let ending ←
        if breakable ∧ width + 1 < (← get).column then doubleBreak indent rest else pure []
      pure (.concat [first, ending, ← doubleFrom split indent true false rest])

def double (split : Bool) (indent : Nat) (t : Text) : Writing :=
  sequentially [sign "\"" true false false, doubleFrom split indent false false t,
    sign "\"" false false false]

/-- Lines written literally behind their sign. -/
def literal (indent : Nat) (lines : List Text) : Writing := do
  let head ← sign "|" true false false
  let _ ← breakLine []
  let margin := List.replicate indent (CodePoint.ofChar ' ')
  let body := lines.map fun line => Text.concat [margin, line, "\n"]
  pure (.concat (head :: "\n" :: body))

/-- How a scalar is written. -/
inductive Style where
  | plain
  | single
  | double
  deriving DecidableEq

/-- Whether a code point can be written only as an escape. -/
def isSpecial (c : CodePoint) : Bool :=
  let n := c.val
  !(n == 10 || (0x20 ≤ n && n ≤ 0x7E) || n == 0x85 || (0xA0 ≤ n && n ≤ 0xD7FF) ||
      (0xE000 ≤ n && n ≤ 0xFFFD && n != 0xFEFF) || (0x10000 ≤ n && n < 0x10FFFF))

/-- Whether a sign of block collections or a comment begins behind the given code point. -/
def hasInnerSign (before : CodePoint) : Text → Bool
  | [] => false
  | c :: rest =>
    (c.is ':' && isSpaceOrEnd (rest.headD CodePoint.nul)) || (c.is '#' && isSpaceOrEnd before) ||
      hasInnerSign c rest

/-- Whether a text would not be read as one plain scalar because of its signs. -/
def hasSign (t : Text) : Bool :=
  match t with
  | [] => false
  | c :: rest =>
    t.startsWith "---" || t.startsWith "..." ||
      Text.contains "#,[]\x7b\x7d&*!|>'\"%@\x60" [c] ||
      ((c.is '?' || c.is ':' || c.is '-') && isSpaceOrEnd (rest.headD CodePoint.nul)) ||
      hasInnerSign c rest

def isMultiline (t : Text) : Bool := t.any isTextBreak

/-- Whether a text can be a plain scalar: it has no breaks, specials, signs or blanks at its ends. -/
def allowsPlain (t : Text) : Bool :=
  let blank := CodePoint.ofChar ' '
  !(isMultiline t || t.any isSpecial || t.head? == some blank || t.getLast? == some blank ||
    hasSign t)

/-- Whether a blank stands next to a break. -/
def hasBlankAtBreak : Text → Bool
  | c :: d :: rest =>
    (c.is ' ' && isTextBreak d) || (isTextBreak c && d.is ' ') || hasBlankAtBreak (d :: rest)
  | _ => false

/-- Whether a text can stand between single quotation marks. -/
def allowsSingle (t : Text) : Bool := !(t.any isSpecial || hasBlankAtBreak t)

/-- How a text with a tag is written, perhaps as a key on one line. -/
def style (simpleKey : Bool) (tag t : Text) : Style :=
  if tag = Plain.tag t ∧ !(simpleKey && (t.isEmpty || isMultiline t)) ∧ allowsPlain t then .plain
  else if allowsSingle t ∧ !(simpleKey && isMultiline t) then .single
  else .double

/-- The short form of a tag of the core schema. -/
def shortTag (tag : Text) : Text := "!!" ++ tag.drop (Tag.core "").length

/-- Whether a tag has to be written in front of a scalar in a style. -/
def showsTag (tag t : Text) : Style → Bool
  | .plain => tag != Plain.tag t
  | _ => tag != Tag.string

/-- Where a node stands. -/
inductive Position where
  | root
  | item
  | simpleKey
  /-- A key behind its sign, or a value. -/
  | entry
  deriving DecidableEq

/-- The anchor of the place-th shared part. -/
def anchorName (place : Nat) : Text := "id" ++ Text.ofNatPadded 3 (place + 1)

/-- The longest key, with its anchor and tag, that is not marked as one. -/
def keyLimit : Nat := 127

/-- The length of a key and whether it can stand on one line at all. -/
def keyLength? : Tree → Option Nat
  | .scalar tag t =>
    if t.isEmpty || isMultiline t then none else some ((shortTag tag).length + t.length)
  | .literal .. => none
  | .sequence ts => if ts.isEmpty then some (shortTag Tag.sequence).length else none
  | .mapping tag es => if es.isEmpty then some (shortTag tag).length else none
  | .shared _ t => keyLength? t

/-- The parts with anchors, and those of them that are written. -/
structure Anchors where
  numbered : List Nat
  written : List Nat

/-- Whether a key needs no mark. -/
def isSimpleKey (a : Anchors) (key : Tree) : Bool :=
  match key with
  | .shared l t =>
    match a.numbered.idxOf? l with
    | some n =>
      a.written.contains l ||
        (keyLength? t).any fun length => (anchorName n).length + length ≤ keyLimit
    | none => (keyLength? t).any (· ≤ keyLimit)
  | t => (keyLength? t).any (· ≤ keyLimit)

abbrev Drawing := StateT Anchors (StateM Pen) Text

/-- The indentation of a collection inside one of the given indentation. -/
def deeper (indent : Option Nat) : Nat :=
  match indent with
  | none => 0
  | some n => n + indentStep

/-- A scalar with its tag, if that has to be written. -/
def scalar (position : Position) (indent : Option Nat) (tag t : Text) : Writing := do
  let s := style (position == .simpleKey) tag t
  let head ← if showsTag tag t s then sign (shortTag tag) true false false else pure []
  let split := position != .simpleKey
  let inner := indent.getD 0 + indentStep
  let body ← match s with
    | .plain => do
      if position = .root then modify fun p => { p with openEnded := true }
      plain split inner t
    | .single => single split inner t
    | .double => double split inner t
  pure (head ++ body)

mutual

/-- A node inside a collection of the given indentation. -/
def node (position : Position) (indent : Option Nat) : Tree → Drawing
  | .scalar tag t => scalar position indent tag t
  | .literal tag lines => do
    let head ← sign (shortTag tag) true false false
    let body ←
      if lines.isEmpty then double false 0 [] else literal (indent.getD 0 + indentStep) lines
    pure (head ++ body)
  | .sequence ts => do
    if ts.isEmpty then sequentially [sign "[" true true false, sign "]" false false false]
    else
      let p ← getThe Pen
      let loose := (position == .entry || position == .simpleKey) && !p.fresh
      items (if loose then indent.getD 0 else deeper indent) ts
  | .mapping tag es => do
    let head ← if tag = Tag.mapping then pure [] else sign (shortTag tag) true false false
    let body ←
      if es.isEmpty then sequentially [sign "\x7b" true true false, sign "\x7d" false false false]
      else entries (deeper indent) es
    pure (head ++ body)
  | .shared l t => do
    let a ← getThe Anchors
    match a.numbered.idxOf? l with
    | none => node position indent t
    | some n =>
      if a.written.contains l then sign ('*' :: anchorName n) true false false
      else
        set ({ a with written := l :: a.written } : Anchors)
        let head ← sign ('&' :: anchorName n) true false false
        pure (head ++ (← node position indent t))

def items (indent : Nat) : List Tree → Drawing
  | [] => pure []
  | t :: ts => do
    let head ← sequentially [goTo indent, sign "-" true false true]
    let body ← node .item (some indent) t
    pure (.concat [head, body, ← items indent ts])

def entries (indent : Nat) : List (Tree × Tree) → Drawing
  | [] => pure []
  | (k, v) :: es => do
    let start ← goTo indent
    let key ←
      if isSimpleKey (← getThe Anchors) k then do
        let key ← node .simpleKey (some indent) k
        pure (key ++ (← sign ":" false false false))
      else do
        let mark ← sign "?" true false true
        let key ← node .entry (some indent) k
        pure (.concat [mark, key, ← goTo indent, ← sign ":" true false true])
    let value ← node .entry (some indent) v
    pure (.concat [start, key, value, ← entries indent es])

end

/-- A whole document. One that ends in a plain scalar is closed by points. -/
def document (t : Tree) : Text :=
  let drawing : Drawing := do
    let body ← node .root none t
    let ending ← goTo 0
    let close ← if (← getThe Pen).openEnded then
        sequentially [sign "..." true false false, goTo 0]
      else pure []
    pure (.concat [body, ending, close])
  ((drawing ⟨t.anchored, []⟩).run ⟨0, true, true, false⟩).1.1

end Layout

/-- The YAML text of a value without cycles. -/
def write (v : Value) : Except Unwritable Text := (Tree.ofValue v).map Layout.document

end DocPath.Yaml
