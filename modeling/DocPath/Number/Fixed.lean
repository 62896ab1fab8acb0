import DocPath.Number.Shortest

/-! Floating-point numbers written with a given number of digits. -/

namespace DocPath.Binary64

/-- How the digits of a number are laid out. -/
inductive DigitForm where
  /-- With a given number of digits behind the point. -/
  | fixed
  /-- With one digit in front of the point, and an exponent. -/
  | scientific
  /-- With a given number of digits in all, positional unless the exponent is small or large. -/
  | general
  deriving DecidableEq

/-- The natural number nearest to `m * 2 ^ q * 10 ^ places`, a half going to the even neighbour. -/
def scaledDecimal (m : Nat) (q : Int) (places : Int) : Nat :=
  let (a, b) := powerOfTen places
  let (num, den) := if 0 ≤ q then (m * twoPow q.toNat, 1) else (m, twoPow (-q).toNat)
  roundQuotient (num * a) (den * b)

/-- Digits with a point in front of the last `places`. -/
def placePoint (places : Nat) (alwaysPoint : Bool) (n : Nat) : Text :=
  let digits := Text.ofNatPadded (places + 1) n
  let whole := digits.take (digits.length - places)
  if places = 0 then if alwaysPoint then whole ++ "." else whole
  else .concat [whole, ".", digits.drop (digits.length - places)]

/-- The significand of `m * 2 ^ q` with a number of digits behind the first, and its power of ten. -/
def significand (m : Nat) (q : Int) (places : Nat) : Nat × Int :=
  if m = 0 then (0, 0)
  else
    let (num, den) := if 0 ≤ q then (m * twoPow q.toNat, 1) else (m, twoPow (-q).toNat)
    let exponent := decade num den - 1
    let n := scaledDecimal m q (places - exponent)
    if tenPow (places + 1) ≤ n then (n / 10, exponent + 1) else (n, exponent)

/-- Without zeros at the end of a fraction, and without a point that nothing follows. -/
def dropZeros (t : Text) : Text :=
  if Text.contains t "." then
    let kept := (t.reverse.dropWhile (· == (CodePoint.ofChar '0'))).reverse
    if Text.endsWith kept "." then kept.dropLast else kept
  else t

/-- The digits of `m * 2 ^ q`. -/
def digitsText (form : DigitForm) (precision : Nat) (alwaysPoint : Bool) (m : Nat) (q : Int) :
    Text :=
  match form with
  | .fixed => placePoint precision alwaysPoint (scaledDecimal m q precision)
  | .scientific =>
    let (n, e) := significand m q precision
    placePoint precision alwaysPoint n ++ exponentText e
  | .general =>
    let count := max precision 1
    let (n, e) := significand m q (count - 1)
    let tidy := fun t : Text => if alwaysPoint then t else dropZeros t
    if -4 ≤ e ∧ e < count then
      let places := (count - 1 - e).toNat
      tidy (placePoint places alwaysPoint (scaledDecimal m q places))
    else tidy (placePoint (count - 1) alwaysPoint n) ++ exponentText e

/-- A number with a given precision. -/
def withPrecision (form : DigitForm) (precision : Nat) (alwaysPoint : Bool) (x : Binary64) :
    Text :=
  match x.shape with
  | .notANumber => "nan"
  | .infinite s => if s then "-inf" else "inf"
  | .finite s m q =>
    let size := digitsText form precision alwaysPoint m q
    if s then '-' :: size else size

end DocPath.Binary64
