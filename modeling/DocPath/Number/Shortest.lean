import DocPath.Number.Binary64
import DocPath.Text

/-! The shortest decimal that reads back as a floating-point number, and its layout as text. -/

namespace DocPath

namespace Binary64

/-- Decimal digits without leading or trailing zeros and the place of the point: the number is
`0.d₁d₂… * 10 ^ point`. -/
structure Decimal where
  digits : Text
  point : Int
  deriving DecidableEq

/-- `10 ^ e` as numerator and denominator. -/
def powerOfTen (e : Int) : Nat × Nat :=
  if 0 ≤ e then (tenPow e.toNat, 1) else (1, tenPow (-e).toNat)

/-- Whether `10 ^ e` is at most `num / den`. -/
def reaches (num den : Nat) (e : Int) : Bool :=
  let (a, b) := powerOfTen e
  a * den ≤ num * b

/-- The exponent `e` with `10 ^ (e - 1) ≤ num / den < 10 ^ e`. -/
def decade (num den : Nat) : Int :=
  let guess : Int := ((num.log2 : Int) - (den.log2 : Int) - 1) * 30103 / 100000
  if reaches num den (guess + 1) then guess + 2
  else if reaches num den guess then guess + 1
  else guess

/-- A decimal with `count` digits next to `m * 2 ^ q` that lies in the interval of reals rounding to
it, if there is one; of two the nearer, of two equally near the even. The interval has its ends
`high / 4` and `low / 4` units from the significand, which belong to it when `closed`. -/
def gridPoint? (m : Nat) (q : Int) (low : Nat) (closed : Bool) (count : Nat) : Option (Nat × Int) :=
  let (num, den) := if 0 ≤ q then (m * twoPow q.toNat, 1) else (m, twoPow (-q).toNat)
  let exponent := decade num den - count
  let (a, b) := powerOfTen exponent
  -- the value in units of the grid is `value / unit`; the interval is measured in the same units
  let unit := 4 * a * den
  let value := 4 * num * b
  let quarter := if 0 ≤ q then twoPow q.toNat * b else b
  let d := value / unit
  let down := value - d * unit
  let up := unit - down
  let downIn := if closed then down ≤ low * quarter else down < low * quarter
  let upIn := if closed then up ≤ 2 * quarter else up < 2 * quarter
  if downIn && upIn then
    if down < up then some (d, exponent)
    else if up < down then some (d + 1, exponent)
    else some (d + d % 2, exponent)
  else if downIn then some (d, exponent)
  else if upIn then some (d + 1, exponent)
  else none

/-- The first hit among the grids of 1, 2, … 17 digits. -/
def firstGridPoint (m : Nat) (q : Int) (low : Nat) (closed : Bool) : Nat → Nat → Nat × Int
  | 0, count => (gridPoint? m q low closed count).getD (m, q)
  | left + 1, count =>
    match gridPoint? m q low closed count with
    | some p => p
    | none => firstGridPoint m q low closed left (count + 1)

/-- The fewest digits that read back as `m * 2 ^ q`, and of these the nearest. -/
def shortest (m : Nat) (q : Int) : Decimal :=
  let low := if m = twoPow 52 ∧ -1074 < q then 1 else 2
  let (d, e) := firstGridPoint m q low (m % 2 == 0) 16 1
  let all := Text.ofNat d
  let digits := (all.reverse.dropWhile (· == (CodePoint.ofChar '0'))).reverse
  ⟨digits, all.length + e⟩

/-- The choices in writing a floating-point number that differ between formats. -/
structure Layout where
  notANumber : Text
  infinity : Text
  /-- Follows a significand of one digit in front of an exponent. -/
  wholeSignificand : Text

/-- The exponent of a scientific layout: signed, at least two digits. -/
def exponentText (e : Int) : Text :=
  'e' :: (if e < 0 then '-' else '+') :: Text.ofNatPadded 2 e.natAbs

/-- Positional from `1e-4` up to below `1e16`, scientific elsewhere. -/
def Decimal.layout (wholeSignificand : Text) (d : Decimal) : Text :=
  let count : Int := d.digits.length
  if -4 < d.point ∧ d.point ≤ 16 then
    if d.point ≤ 0 then "0." ++ List.replicate (-d.point).toNat (CodePoint.ofChar '0') ++ d.digits
    else if count ≤ d.point then Text.padRight '0' d.point.toNat d.digits ++ ".0"
    else d.digits.take d.point.toNat ++ "." ++ d.digits.drop d.point.toNat
  else
    let significand := match d.digits with
      | [] => "0"
      | [c] => c :: wholeSignificand
      | c :: rest => c :: '.' :: rest
    significand ++ exponentText (d.point - 1)

/-- A floating-point number as text in a given layout. -/
def layout (l : Layout) (x : Binary64) : Text :=
  match x.shape with
  | .notANumber => l.notANumber
  | .infinite s => if s then '-' :: l.infinity else l.infinity
  | .finite s m q =>
    let size : Text := if m = 0 then "0.0" else (shortest m q).layout l.wholeSignificand
    if s then '-' :: size else size

/-- The layout outside documents: `nan`, `inf`, `1e+16`. -/
def plainLayout : Layout := ⟨"nan", "inf", ""⟩

end Binary64

end DocPath
