import DocPath.Number.Numeral

/-! Decimal numbers with a stated precision, as scalars of a document. -/

namespace DocPath

/-- A decimal number: sign, coefficient and power of ten, or one of the special numbers. -/
inductive Decimal where
  | finite (negative : Bool) (coefficient : Nat) (exponent : Int)
  | infinite (negative : Bool)
  | notANumber (negative signals : Bool) (payload : Text)
  deriving DecidableEq

namespace Decimal

/-- Reads a decimal number. -/
def read? (t : Text) : Option Decimal :=
  let (negative, unsigned) := Numeral.splitSign t
  let name := unsigned.lowerLetters
  if name = "inf" ∨ name = "infinity" then some (.infinite negative)
  else if name.startsWith "nan" then
    let payload := unsigned.drop 3
    if payload.all CodePoint.isDigit then some (.notANumber negative false payload) else none
  else if name.startsWith "snan" then
    let payload := unsigned.drop 4
    if payload.all CodePoint.isDigit then some (.notANumber negative true payload) else none
  else
    let (whole, rest) := Numeral.spanDigits unsigned
    let (fraction, more) := match rest with
      | c :: after => if c = '.' then Numeral.spanDigits after else ([], rest)
      | [] => ([], [])
    let (exponent, trailing) := Numeral.splitExponent more
    if (whole.isEmpty && fraction.isEmpty) || !trailing.isEmpty then none
    else some (.finite negative (Numeral.value 10 (whole ++ fraction)) (exponent - fraction.length))

/-- The digits of a coefficient with a point, and an exponent only where the positional form would
need more than five zeros behind the point or zeros in front of it. -/
def unsignedText (coefficient : Nat) (exponent : Int) : Text :=
  let digits := Text.ofNat coefficient
  let left := exponent + digits.length
  let place := if exponent ≤ 0 ∧ -6 < left then left else 1
  let body : Text :=
    if place ≤ 0 then "0." ++ List.replicate (-place).toNat (CodePoint.ofChar '0') ++ digits
    else if digits.length ≤ place then Text.padRight '0' place.toNat digits
    else digits.take place.toNat ++ "." ++ digits.drop place.toNat
  let power := left - place
  if power = 0 then body
  else body ++ "E" ++ (if power < 0 then "-" else "+") ++ Text.ofNat power.natAbs

def text : Decimal → Text
  | .finite negative c e => (if negative then "-" else "") ++ unsignedText c e
  | .infinite negative => (if negative then "-" else "") ++ "Infinity"
  | .notANumber negative signals payload =>
    (if negative then "-" else "") ++ (if signals then "sNaN" else "NaN") ++ payload

/-- Whether a finite decimal number equals `m * 2 ^ q`, sign apart. -/
def equalsDyadic (coefficient : Nat) (exponent : Int) (m : Nat) (q : Int) : Bool :=
  coefficient * tenPow exponent.toNat * twoPow (-q).toNat ==
    m * twoPow q.toNat * tenPow (-exponent).toNat

/-- Equality of the numbers meant, whatever their precision. -/
def same : Decimal → Decimal → Bool
  | .finite s c e, .finite t d f =>
    c * tenPow (e - min e f).toNat == d * tenPow (f - min e f).toNat && (s == t || c == 0)
  | .infinite s, .infinite t => s == t
  | _, _ => false

/-- Equality with a floating-point number. -/
def sameBinary (d : Decimal) (x : Binary64) : Bool :=
  match d, x.shape with
  | .finite s c e, .finite t m q => equalsDyadic c e m q && (s == t || c == 0)
  | .infinite s, .infinite t => s == t
  | _, _ => false

/-- Equality with an integer. -/
def sameInt (d : Decimal) (i : Int) : Bool :=
  same d (.finite (i < 0) i.natAbs 0)

end Decimal

end DocPath
