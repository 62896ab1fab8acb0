import DocPath.Number.Fixed
import DocPath.Value.Key
import DocPath.Value.Render

/-! Message templates: texts with directives behind percent signs, which arguments replace. A template that
does not fit its arguments has no text. -/

namespace DocPath.Log

/-- A number inside a directive: given, or taken from the arguments. -/
inductive Amount where
  | given (n : Nat)
  | argument
  deriving DecidableEq

/-- The parts of a directive. -/
structure Directive where
  /-- The argument by name; without a name the next one is taken. -/
  key : Option Text := none
  left : Bool := false
  plus : Bool := false
  space : Bool := false
  alternate : Bool := false
  zero : Bool := false
  width : Option Amount := none
  precision : Option Amount := none
  letter : CodePoint

namespace Directive

/-- The name up to the closing parenthesis that matches, and what follows it. -/
def splitKey (level : Nat) : Text → Option (Text × Text)
  | [] => none
  | c :: rest =>
    if c = ')' then
      match level with
      | 0 => some ([], rest)
      | n + 1 => (splitKey n rest).map fun p => (c :: p.1, p.2)
    else (splitKey (if c = '(' then level + 1 else level) rest).map fun p => (c :: p.1, p.2)

def isFlag (c : CodePoint) : Bool := Text.contains "-+ #0" [c]

/-- An amount at the front, if there is one. -/
def splitAmount (t : Text) : Option Amount × Text :=
  match t with
  | [] => (none, [])
  | c :: rest =>
    if c = '*' then (some .argument, rest)
    else
      let (digits, more) := Numeral.spanDigits t
      (if digits.isEmpty then none else some (.given (Numeral.value 10 digits)), more)

/-- Reads a directive behind its percent sign. -/
def read? (t : Text) : Option (Directive × Text) := do
  let (key, t) ← match t with
    | [] => none
    | c :: rest => if c = '(' then (splitKey 0 rest).map fun p => (some p.1, p.2) else some (none, t)
  let flags := t.takeWhile isFlag
  let has (c : Char) : Bool := flags.contains (CodePoint.ofChar c)
  let (width, t) := splitAmount (t.dropWhile isFlag)
  let (precision, t) := match t with
    | c :: rest =>
      if c = '.' then
        let (amount, more) := splitAmount rest
        (some (amount.getD (.given 0)), more)
      else (none, t)
    | [] => (none, [])
  let t := match t with
    | c :: rest => if c = 'h' ∨ c = 'l' ∨ c = 'L' then rest else t
    | [] => []
  match t with
  | [] => none
  | c :: rest =>
    some (⟨key, has '-', has '+', has ' ', has '#', has '0', width, precision, c⟩, rest)

end Directive

/-- The arguments of a template. A mapping gives them by name, and is itself the only one without. -/
inductive Arguments where
  | list (values : List Value)
  | mapping (whole : Value) (entries : List (Value × Value))

/-- The arguments that are left, and those that can be named. -/
structure Supply where
  left : List Value
  named : Option (List (Value × Value))

namespace Arguments

/-- A single mapping that is not empty gives arguments by name. -/
def ofList (values : List Value) : Arguments :=
  match values with
  | [.map o (e :: es)] => .mapping (.map o (e :: es)) (e :: es)
  | values => .list values

def supply : Arguments → Supply
  | .list values => ⟨values, none⟩
  | .mapping whole entries => ⟨[whole], some entries⟩

end Arguments

/-- Numbers and texts that fill a directive. -/
abbrev Fill := StateT Supply Option

namespace Fill

def next : Fill Value := fun s =>
  match s.left with
  | [] => none
  | v :: rest => some (v, { s with left := rest })

/-- Makes the argument with a name the only one left. -/
def choose (key : Text) : Fill Unit := fun s => do
  let entries ← s.named
  let e ← entries.find? fun e => e.1.sameKey (.text key)
  some ((), { s with left := [e.2] })

/-- The largest width or precision. -/
def amountLimit : Nat := twoPow 31 - 1

/-- The integer of an amount. -/
def amount (a : Amount) : Fill Int :=
  match a with
  | .given n => if n ≤ amountLimit then pure (n : Int) else failure
  | .argument => do
    match ← next with
    | .int i => if i.natAbs ≤ amountLimit then pure i else failure
    | .bool b => pure (if b then 1 else 0)
    | _ => failure

end Fill

/-- A text in parts, to be filled up to a width. -/
structure Piece where
  sign : Text := []
  /-- The mark of a base. -/
  mark : Text := []
  body : Text

/-- Fills a piece up to a width: with blanks on either side, or zeros behind its sign and mark. -/
def Piece.fill (left zero : Bool) (width : Nat) (p : Piece) : Text :=
  let gap := width - (p.sign.length + p.mark.length + p.body.length)
  let blanks := List.replicate gap (CodePoint.ofChar ' ')
  if left then .concat [p.sign, p.mark, p.body, blanks]
  else if zero then
    .concat [p.sign, p.mark, List.replicate gap (CodePoint.ofChar '0'), p.body]
  else .concat [blanks, p.sign, p.mark, p.body]

/-- The sign of a number: a minus, or what the directive wants in front of others. -/
def Directive.signOf (d : Directive) (negative : Bool) : Text :=
  if negative then "-" else if d.plus then "+" else if d.space then " " else []

/-- The integer of a value; fractions are cut off where that is allowed. -/
def integerOf (cutting : Bool) (v : Value) : Option Int :=
  match v with
  | .int i => some i
  | .bool b => some (if b then 1 else 0)
  | .float x =>
    if cutting then
      match x.shape with
      | .finite s m q =>
        let size : Int := if 0 ≤ q then m * twoPow q.toNat else m / twoPow (-q).toNat
        some (if s then -size else size)
      | _ => none
    else none
  | .scalar (.decimal (.finite s c e)) =>
    if cutting then
      let size : Int := if 0 ≤ e then c * tenPow e.toNat else c / tenPow (-e).toNat
      some (if s then -size else size)
    else none
  | _ => none

/-- The floating-point number of a value. -/
def floatOf (v : Value) : Option Binary64 :=
  match v with
  | .float x => some x
  | .int i =>
    let x := Binary64.ofInt i
    match x.shape with
    | .finite .. => some x
    | _ => none
  | .bool b => some (Binary64.ofInt (if b then 1 else 0))
  | .scalar (.decimal d) =>
    match d with
    | .finite s c e => some (Binary64.ofDecimal s c (Text.ofNat c).length e)
    | .infinite s => some (Binary64.infinity s)
    | .notANumber _ signals _ => if signals then none else some Binary64.notANumber
  | _ => none

/-- Without code points past ASCII, which become escapes. -/
def asciiOnly (t : Text) : Text := t.flatMap fun c => if c.val < 0x80 then [c] else c.escape

/-- Digits of an integer in the base of a letter, at least `precision` of them. -/
def Directive.integerPiece (d : Directive) (precision : Nat) (i : Int) : Option Piece := do
  let upper := d.letter.is 'X'
  let base := if d.letter = 'o' then 8 else if d.letter = 'x' ∨ upper then 16 else 10
  let plain ← if base = 10 then (Numeral.writeInteger i.natAbs).toOption
    else some (Text.ofNatBase base i.natAbs)
  let digits := Text.padLeft '0' precision plain
  let mark : Text :=
    if d.alternate && base != 10 then if base = 8 then "0o" else if upper then "0X" else "0x"
    else []
  some ⟨d.signOf (i < 0), mark, if upper then digits.map CodePoint.upperLetter else digits⟩

/-- The digit form of a letter. -/
def digitForm? (letter : CodePoint) : Option Binary64.DigitForm :=
  if letter = 'f' ∨ letter = 'F' then some .fixed
  else if letter = 'e' ∨ letter = 'E' then some .scientific
  else if letter = 'g' ∨ letter = 'G' then some .general
  else none

def Directive.floatPiece (d : Directive) (form : Binary64.DigitForm) (precision : Nat)
    (x : Binary64) : Piece :=
  let t := x.withPrecision form precision d.alternate
  let (negative, size) := Numeral.splitSign t
  let isCapital := 'A' ≤ d.letter && d.letter ≤ 'Z'
  ⟨d.signOf negative, [], if isCapital then size.map CodePoint.upperLetter else size⟩

/-- The text of a value in the form of a letter, cut to a precision. -/
def Directive.textPiece (d : Directive) (precision : Option Nat) (v : Value) : Option Piece := do
  let t ←
    if d.letter = 's' then v.plain.toOption
    else if d.letter = 'r' then v.shown.toOption
    else v.shown.toOption.map asciiOnly
  some ⟨[], [], match precision with
    | some n => t.take n
    | none => t⟩

/-- A single code point: a text of one, or its number. -/
def pointOf (v : Value) : Option CodePoint :=
  match v with
  | .text [c] => some c
  | .int i => if 0 ≤ i ∧ i < 0x110000 then some (CodePoint.ofNat i.toNat) else none
  | .bool b => some (if b then 1 else 0)
  | _ => none

/-- The text of a directive. -/
def Directive.text (d : Directive) : Fill Text := do
  if let some key := d.key then Fill.choose key
  let width ← match d.width with
    | some a => Fill.amount a
    | none => pure 0
  let precision ← match d.precision with
    | some a => (some ·.toNat) <$> Fill.amount a
    | none => pure none
  let v ← Fill.next
  let left := d.left || width < 0
  if d.letter = 's' ∨ d.letter = 'r' ∨ d.letter = 'a' then
    let some p := d.textPiece precision v | failure
    pure (p.fill left false width.natAbs)
  else if d.letter = 'c' then
    let some c := pointOf v | failure
    pure (Piece.fill left false width.natAbs ⟨[], [], [c]⟩)
  else if let some form := digitForm? d.letter then
    let some x := floatOf v | failure
    pure ((d.floatPiece form (precision.getD 6) x).fill left d.zero width.natAbs)
  else if Text.contains "diuoxX" [d.letter] then
    let some i := integerOf (Text.contains "diu" [d.letter]) v | failure
    let some p := d.integerPiece (precision.getD 0) i | failure
    pure (p.fill left d.zero width.natAbs)
  else failure

/-- The text of a template; the fuel bounds its length. -/
def fillTemplate : Nat → Text → Fill Text
  | 0, _ => pure []
  | _, [] => pure []
  | fuel + 1, c :: rest => do
    if c ≠ '%' then pure (c :: (← fillTemplate fuel rest))
    else
      match rest with
      | [] => failure
      | d :: more =>
        if d = '%' then pure (d :: (← fillTemplate fuel more))
        else
          let some (directive, after) := Directive.read? rest | failure
          let text ← directive.text
          pure (text ++ (← fillTemplate fuel after))

/-- The text of a template with arguments. Without arguments it stands as it is; otherwise all that are
not in a mapping have to be used. -/
def format? (template : Text) (values : List Value) : Option Text :=
  if values.isEmpty then some template
  else
    match (fillTemplate (template.length + 1) template).run (Arguments.ofList values).supply with
    | some (t, s) => if s.left.isEmpty || s.named.isSome then some t else none
    | none => none

end DocPath.Log
