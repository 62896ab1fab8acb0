import DocPath.Number.Numeral

/-! Tags, and how the text of a plain scalar tells its tag. -/

namespace DocPath.Yaml

namespace Tag

/-- A tag of the core schema. -/
def core (name : String) : Text := "tag:yaml.org,2002:" ++ name

def null : Text := core "null"
def boolean : Text := core "bool"
def integer : Text := core "int"
def float : Text := core "float"
def binary : Text := core "binary"
def timestamp : Text := core "timestamp"
def orderedMap : Text := core "omap"
def pairs : Text := core "pairs"
def set : Text := core "set"
def string : Text := core "str"
def sequence : Text := core "seq"
def mapping : Text := core "map"
/-- Of keys whose values are merged into the mapping around them. -/
def merge : Text := core "merge"
/-- Of keys whose values stand for the mapping around them. -/
def value : Text := core "value"
/-- Of texts that are signs of the language itself. -/
def indicator : Text := core "yaml"

/-- The tag of a node that has none and is given none by its text. -/
def nonSpecific : Text := "!"

end Tag

namespace Plain

def nullWords : List Text := ["~", "null", "Null", "NULL"]

def trueWords : List Text := ["yes", "Yes", "YES", "true", "True", "TRUE", "on", "On", "ON"]

def falseWords : List Text := ["no", "No", "NO", "false", "False", "FALSE", "off", "Off", "OFF"]

def isDigitOrUnderscore (c : CodePoint) : Bool := c.isDigit || c.is '_'

/-- Digits and underscores, a digit first. -/
def isGrouped (t : Text) : Bool :=
  match t with
  | [] => false
  | c :: rest => c.isDigit && rest.all isDigitOrUnderscore

/-- One digit, or two of which the first is below six. -/
def isSixtieth (t : Text) : Bool :=
  match t with
  | [d] => d.isDigit
  | [t, d] => t.isDigit && t.digitValue < 6 && d.isDigit
  | _ => false

/-- At least two numbers with colons between them, all but the first below sixty. -/
def isSexagesimal (t : Text) : Bool :=
  match Text.splitOn ':' t with
  | first :: second :: more => isGrouped first && (second :: more).all isSixtieth
  | _ => false

/-- A text that is not empty and has only code points of a class. -/
def isSome (p : CodePoint → Bool) (t : Text) : Bool := !t.isEmpty && t.all p

/-- An integer without its sign: in base 10, 60, or with a mark of the base 2, 8 or 16. -/
def isUnsignedInteger (t : Text) : Bool :=
  match t with
  | [] => false
  | c :: rest =>
    if c = '0' then
      rest.isEmpty || isSome (fun d => ('0' ≤ d && d ≤ '7') || d.is '_') rest ||
        (rest.head? == some (CodePoint.ofChar 'b') &&
          isSome (fun d => d.is '0' || d.is '1' || d.is '_') rest.tail) ||
        (rest.head? == some (CodePoint.ofChar 'x') &&
          isSome (fun d => d.isHexDigit || d.is '_') rest.tail)
    else isGrouped t || isSexagesimal t

def isInteger (t : Text) : Bool := isUnsignedInteger (Numeral.splitSign t).2

/-- Nothing, or an exponent with a sign. -/
def isExponent (t : Text) : Bool :=
  match t with
  | [] => true
  | e :: s :: digits =>
    (e.is 'e' || e.is 'E') && (s.is '-' || s.is '+') && isSome CodePoint.isDigit digits
  | _ => false

/-- A fraction behind the point, with an exponent or without. -/
def isFraction (t : Text) : Bool := isExponent (t.dropWhile isDigitOrUnderscore)

/-- A floating-point number. One that begins with its point has no sign. -/
def isFloat (t : Text) : Bool :=
  let unsigned := (Numeral.splitSign t).2
  let whole := unsigned.takeWhile (· != (CodePoint.ofChar '.'))
  match unsigned.dropWhile (· != (CodePoint.ofChar '.')) with
  | [] => false
  | _ :: fraction =>
    if whole.isEmpty then
      fraction = "inf" ∨ fraction = "Inf" ∨ fraction = "INF" ∨
        (t = unsigned ∧ (fraction = "nan" ∨ fraction = "NaN" ∨ fraction = "NAN" ∨
          (fraction.headD CodePoint.nul).isDigit ∧ isFraction fraction))
    else (isGrouped whole && isFraction fraction) ||
      (isSexagesimal whole && fraction.all isDigitOrUnderscore)

/-- Digits of a number from `least` to `most` at the front, and what follows them. -/
def digits? (least most : Nat) (t : Text) : Option (Text × Text) :=
  let digits := (t.take most).takeWhile CodePoint.isDigit
  if digits.length < least then none else some (digits, t.drop digits.length)

/-- What follows a sign at the front. -/
def after? (sign : CodePoint) : Text → Option Text
  | [] => none
  | c :: rest => if c = sign then some rest else none

/-- A time of day with an offset, as texts of digits. -/
structure ClockText where
  hour : Text
  minute : Text
  second : Text
  fraction : Text
  /-- Nothing, the letter `Z`, or a sign with hours and minutes. -/
  offset : Option (Option (Bool × Text × Text))

/-- The offset at the end of a time: nothing, `Z`, or a sign, hours and perhaps minutes. -/
def offset? (t : Text) : Option (Option (Option (Bool × Text × Text))) :=
  match t.dropWhile fun c => c.is ' ' || c.is '\t' with
  | [] => if t.isEmpty then some none else none
  | c :: rest =>
    if c = 'Z' then if rest.isEmpty then some (some none) else none
    else if c = '-' ∨ c = '+' then do
      let (hour, more) ← digits? 1 2 rest
      if more.isEmpty then some (some (some (c = '-', hour, [])))
      else do
        let (minute, last) ← digits? 2 2 (← after? ':' more)
        if last.isEmpty then some (some (some (c = '-', hour, minute))) else none
    else none

/-- A time of day behind a date: the letter `T` or spaces, and the time. -/
def clock? (t : Text) : Option ClockText := do
  let isSpace := fun c : CodePoint => c.is ' ' || c.is '\t'
  let c := t.headD CodePoint.nul
  let time ← if c = 'T' ∨ c = 't' then some t.tail
    else if isSpace c then some (t.dropWhile isSpace) else none
  let (hour, t) ← digits? 1 2 time
  let (minute, t) ← digits? 2 2 (← after? ':' t)
  let (second, t) ← digits? 2 2 (← after? ':' t)
  let (fraction, t) := match after? '.' t with
    | some rest => Numeral.spanDigits rest
    | none => ([], t)
  some ⟨hour, minute, second, fraction, ← offset? t⟩

/-- A date, and what follows it. -/
def date? (t : Text) : Option ((Text × Text × Text) × Text) := do
  let (year, t) ← digits? 4 4 t
  let (month, t) ← digits? 1 2 (← after? '-' t)
  let (day, t) ← digits? 1 2 (← after? '-' t)
  some ((year, month, day), t)

/-- A date with a time, or one alone with two digits for month and day. -/
def isTimestamp (t : Text) : Bool :=
  match date? t with
  | none => false
  | some ((_, month, day), rest) =>
    if rest.isEmpty then month.length == 2 && day.length == 2 else (clock? rest).isSome

/-- Without a line feed at the end. -/
def dropFinalBreak (t : Text) : Text :=
  if Text.endsWith t "\n" then t.dropLast else t

/-- The tag that the text of a plain scalar tells. A line feed at its end makes no difference. -/
def tag (t : Text) : Text :=
  let word := dropFinalBreak t
  if t.isEmpty then Tag.null
  else if word.isEmpty then Tag.string
  else if nullWords.contains word then Tag.null
  else if trueWords.contains word || falseWords.contains word then Tag.boolean
  else if isFloat word then Tag.float
  else if isInteger word then Tag.integer
  else if word = "<<" then Tag.merge
  else if isTimestamp word then Tag.timestamp
  else if word = "=" then Tag.value
  else if word = "!" ∨ word = "&" ∨ word = "*" then Tag.indicator
  else Tag.string

end Plain

end DocPath.Yaml
