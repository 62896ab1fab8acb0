import DocPath.Charset.SingleByte
import DocPath.Text.Letters
import DocPath.Value
import DocPath.Yaml.Base64
import DocPath.Yaml.Tag

/-! The scalars that tagged texts stand for. -/

namespace DocPath.Yaml.Scalar

/-- The truth value of a word, in any case of letters. -/
def boolean (t : Text) : Except Fault Value :=
  let word := Text.lower t
  if Plain.trueWords.contains word then .ok (.bool true)
  else if Plain.falseWords.contains word then .ok (.bool false)
  else .error (.notABoolean word)

/-- Without the underscores. -/
def ungrouped (t : Text) : Text := t.filter (· != (CodePoint.ofChar '_'))

/-- A number text without its sign, and the sign; there must be something behind the sign. -/
def signed (t : Text) : Except Fault (Bool × Text) :=
  if t.isEmpty then .error .emptyNumber
  else .ok (Numeral.splitSign t)

def numeral (base : Nat) (t : Text) : Except Fault Int :=
  (Numeral.readInteger base t).mapError .number

/-- The number with the given digits in base 60. -/
def sixties (digits : List Int) : Int := digits.foldl (fun n d => 60 * n + d) 0

/-- The integer of a text without its sign. -/
def unsignedInteger (t : Text) : Except Fault Int :=
  if t = "0" then .ok 0
  else if Text.startsWith t "0b" then numeral 2 (t.drop 2)
  else if Text.startsWith t "0x" then numeral 16 (t.drop 2)
  else if t.isEmpty then .error .emptyNumber
  else if Text.startsWith t "0" then numeral 8 t
  else if Text.contains t ":" then do
    pure (sixties (← (Text.splitOn ':' t).mapM (numeral 10)))
  else numeral 10 t

def integer (t : Text) : Except Fault Value := do
  let (negative, size) ← signed (ungrouped t)
  let i ← unsignedInteger size
  pure (.int (if negative then -i else i))

/-- The sum of places in base 60, the last place first; `base` is the weight of the next place. -/
def sumSixties (base : Nat) (sum : Binary64) : List Binary64 → Except Fault Binary64
  | [] => .ok sum
  | d :: ds =>
    let weight := Binary64.ofInt base
    if weight = Binary64.infinity false then .error .tooManyPlaces
    else sumSixties (base * 60) (sum.add (d.mul weight)) ds

def number (t : Text) : Except Fault Binary64 := (Numeral.readFloat t).mapError .number

/-- The number of a text in small letters without its sign. -/
def unsignedFloat (t : Text) : Except Fault Binary64 :=
  if t = ".inf" then .ok (Binary64.infinity false)
  else if t = ".nan" then .ok Binary64.notANumber
  else if Text.contains t ":" then do
    sumSixties 1 (Binary64.zero false) (← (Text.splitOn ':' t).mapM number).reverse
  else number t

def float (t : Text) : Except Fault Value := do
  let (negative, size) ← signed (Text.lower (ungrouped t))
  let x ← unsignedFloat size
  pure (.float (if negative then x.neg else x))

/-- The bytes of a text in base 64; `start` is where it stands. -/
def bytes (start : Mark) (t : Text) : Except Fault Value :=
  let fail (problem : Problem) : Except Fault Value :=
    .error (.marked .constructing none problem start)
  match Charset.encodeBy "ascii" .notAscii Charset.asciiByte? 0 t with
  | .error fault => fail (.notAscii fault)
  | .ok _ =>
    match Base64.decode t with
    | .error fault => fail (.base64 fault)
    | .ok bs => .ok (.bytes bs)

def natural (digits : Text) : Nat := Numeral.value 10 digits

/-- Microseconds from the digits behind the point. -/
def microseconds (fraction : Text) : Nat := natural (Text.padRight '0' 6 (fraction.take 6))

/-- An offset in seconds. -/
def offsetSeconds : Option (Bool × Text × Text) → Int
  | none => 0
  | some (negative, hour, minute) =>
    let size : Int := natural hour * 3600 + natural minute * 60
    if negative then -size else size

/-- The date, or date and time, of a text. -/
def timestamp (t : Text) : Except Fault Value :=
  match Plain.date? (Plain.dropFinalBreak t) with
  | none => .error .notATime
  | some ((year, month, day), rest) =>
    if rest.isEmpty then
      match Date.make (natural year) (natural month) (natural day) with
      | .error fault => .error (.time fault)
      | .ok d => .ok (.scalar (.date d))
    else
      match Plain.clock? rest with
      | none => .error .notATime
      | some clock =>
        match DateTime.make (natural year) (natural month) (natural day) (natural clock.hour)
          (natural clock.minute) (natural clock.second) (microseconds clock.fraction)
          (clock.offset.map offsetSeconds) with
        | .error fault => .error (.time fault)
        | .ok d => .ok (.scalar (.dateTime d))

end DocPath.Yaml.Scalar
