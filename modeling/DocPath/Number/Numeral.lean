import DocPath.Number.Binary64
import DocPath.Text.Letters
import DocPath.Text.Quoted

/-! Numbers read from text: integers in a base, and floating-point numbers. Integers of more than
4300 decimal digits are neither read from decimal text nor written to it. -/

namespace DocPath

/-- Why a text is no number, or a number gets no text. -/
inductive NumeralFault where
  /-- The text is no integer in the base. -/
  | notAnInteger (base : Nat) (text : Text)
  | notAFloat (text : Text)
  /-- A decimal integer text with this many digits. -/
  | tooManyDigits (digits : Nat)
  /-- An integer that would take too many digits. -/
  | tooLargeToWrite
  deriving DecidableEq

namespace NumeralFault

/-- How many code points of an unreadable integer text are shown. -/
def shownLength : Nat := 200

def message : NumeralFault → Text
  | notAnInteger base text =>
    .concat ["invalid literal for int() with base ", .ofNat base, ": ",
      text.quoted.take shownLength]
  | notAFloat text => .concat ["could not convert string to float: ", text.quoted]
  | tooManyDigits digits =>
    .concat ["Exceeds the limit (4300 digits) for integer string conversion: value has ",
      .ofNat digits, " digits; use sys.set_int_max_str_digits() to increase the limit"]
  | tooLargeToWrite =>
    "Exceeds the limit (4300 digits) for integer string conversion; use sys.set_int_max_str_digits() to increase the limit"

end NumeralFault

namespace Numeral

/-- The most digits of an integer that is read from or written as decimal text. -/
def digitLimit : Nat := 4300

/-- White space that may stand around a number. -/
def isMargin (c : CodePoint) : Bool := c.isBlank && !(28 ≤ c.val && c.val ≤ 31)

/-- A digit of any script as ASCII digit; other code points past ASCII become a question mark. -/
def asciiDigit (c : CodePoint) : CodePoint :=
  if c.val < 0x7F then c
  else match c.decimalValue? with
    | some n => CodePoint.ofNat (48 + n)
    | none => '?'

/-- The value of digits in a base, most significant first. -/
def value (base : Nat) (digits : Text) : Nat :=
  digits.foldl (fun n c => base * n + c.digitValue) 0

/-- Splits off a sign; `true` is minus. -/
def splitSign : Text → Bool × Text
  | [] => (false, [])
  | c :: rest =>
    if c = '-' then (true, rest)
    else if c = '+' then (false, rest)
    else (false, c :: rest)

/-- The mark of a base behind a leading zero. -/
def baseMark (base : Nat) (c : CodePoint) : Bool :=
  (base == 16 && (c.is 'x' || c.is 'X')) || (base == 8 && (c.is 'o' || c.is 'O')) ||
    (base == 2 && (c.is 'b' || c.is 'B'))

/-- Skips a leading zero with the mark of the base, and one underscore behind it. -/
def skipBaseMark (base : Nat) : Text → Text
  | z :: m :: rest =>
    if z = '0' ∧ baseMark base m then
      match rest with
      | u :: more => if u = '_' then more else rest
      | [] => []
    else z :: m :: rest
  | t => t

/-- Digits of a base at the front, single underscores between them skipped, and what follows.
Underscores elsewhere give `none`. -/
def splitDigits (base : Nat) (afterDigit : Bool) : Text → Option (Text × Text)
  | [] => some ([], [])
  | c :: rest =>
    if c = '_' then
      match rest with
      | d :: _ =>
        if afterDigit && d.digitValue < base then splitDigits base false rest else none
      | [] => none
    else if c.digitValue < base then
      (splitDigits base true rest).map fun p => (c :: p.1, p.2)
    else some ([], c :: rest)

/-- Reads an integer: white space around it, a sign and a mark for the bases 2, 8 and 16 are
allowed. Only bases other than powers of two have a limit of digits. -/
def readInteger (base : Nat) (t : Text) : Except NumeralFault Int :=
  let plain := (t.trim isMargin).map asciiDigit
  let (negative, unsigned) := splitSign plain
  match splitDigits base false (skipBaseMark base unsigned) with
  | none => .error (.notAnInteger base t)
  | some (digits, rest) =>
    if base = 10 ∧ digitLimit < digits.length then .error (.tooManyDigits digits.length)
    else if digits.isEmpty || !rest.isEmpty then .error (.notAnInteger base t)
    else
      let n := value base digits
      .ok (if negative then -n else n)

/-- The decimal text of an integer. -/
def writeInteger (i : Int) : Except NumeralFault Text :=
  let digits := Text.ofNat i.natAbs
  if digitLimit < digits.length then .error .tooLargeToWrite
  else .ok (if i < 0 then '-' :: digits else digits)

/-- Without the underscores, which may stand only between two digits. -/
def dropUnderscores (afterDigit : Bool) : Text → Option Text
  | [] => some []
  | c :: rest =>
    if c = '_' then
      match rest with
      | d :: _ => if afterDigit && d.isDigit then dropUnderscores false rest else none
      | [] => none
    else (dropUnderscores c.isDigit rest).map (c :: ·)

/-- Digits at the front and what follows. -/
def spanDigits (t : Text) : Text × Text := (t.takeWhile CodePoint.isDigit, t.dropWhile CodePoint.isDigit)

/-- The exponent part at the front: its value and what follows. -/
def exponent? : Text → Option (Int × Text)
  | [] => none
  | c :: rest =>
    if c = 'e' ∨ c = 'E' then
      let (negative, unsigned) := splitSign rest
      let (digits, more) := spanDigits unsigned
      if digits.isEmpty then none
      else
        let n : Int := value 10 digits
        some (if negative then -n else n, more)
    else none

/-- The exponent at the front, or zero where there is none, and what follows. -/
def splitExponent (t : Text) : Int × Text := (exponent? t).getD (0, t)

/-- The number of a decimal text split into whole digits, fraction digits and exponent. -/
def decimalNumber (negative : Bool) (whole fraction : Text) (exponent : Int) : Binary64 :=
  let digits := whole ++ fraction
  Binary64.ofDecimal negative (value 10 digits) digits.length (exponent - fraction.length)

/-- The names of the numbers that are not finite, in any case of letters. -/
def named? (negative : Bool) (t : Text) : Option Binary64 :=
  let name := t.lowerLetters
  if name = "inf" ∨ name = "infinity" then some (Binary64.infinity negative)
  else if name = "nan" then some Binary64.notANumber
  else none

/-- An unsigned decimal number or one of the names. -/
def unsignedFloat? (negative : Bool) (t : Text) : Option Binary64 :=
  let (whole, rest) := spanDigits t
  let (fraction, more) := match rest with
    | c :: after => if c = '.' then spanDigits after else ([], rest)
    | [] => ([], [])
  if whole.isEmpty && fraction.isEmpty then named? negative t
  else
    let (exponent, trailing) := splitExponent more
    if trailing.isEmpty then some (decimalNumber negative whole fraction exponent) else none

/-- Reads a floating-point number. -/
def readFloat (t : Text) : Except NumeralFault Binary64 :=
  let plain := (t.trim isMargin).map asciiDigit
  let (negative, unsigned) := splitSign plain
  match (dropUnderscores false unsigned).bind (unsignedFloat? negative) with
  | some x => .ok x
  | none => .error (.notAFloat t)

end Numeral

end DocPath
