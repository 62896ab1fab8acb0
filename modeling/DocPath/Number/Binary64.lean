/-! Floating-point numbers of 64 bits, with exact rounding. All arithmetic is on natural numbers, so
that every result can be computed inside a proof. -/

namespace DocPath

/-- Two to the power of a number. -/
def twoPow (n : Nat) : Nat := Nat.pow 2 n

/-- Ten to the power of a number. -/
def tenPow (n : Nat) : Nat := Nat.pow 10 n

/-- A floating-point number of IEEE 754 with 64 bits, given by them. -/
structure Binary64 where
  bits : BitVec 64
  deriving DecidableEq

namespace Binary64

/-- What the bits stand for. A finite number is `significand * 2 ^ exponent`, with
`exponent ≥ -1074` as small as the format allows. -/
inductive Shape where
  | notANumber
  | infinite (negative : Bool)
  | finite (negative : Bool) (significand : Nat) (exponent : Int)
  deriving DecidableEq

def isNegative (x : Binary64) : Bool := twoPow 63 ≤ x.bits.toNat

def exponentField (x : Binary64) : Nat := x.bits.toNat / twoPow 52 % 2048

def fractionField (x : Binary64) : Nat := x.bits.toNat % twoPow 52

def shape (x : Binary64) : Shape :=
  let e := x.exponentField
  let f := x.fractionField
  if e = 2047 then if f = 0 then .infinite x.isNegative else .notANumber
  else if e = 0 then .finite x.isNegative f (-1074)
  else .finite x.isNegative (twoPow 52 + f) (e - 1075)

def ofFields (negative : Bool) (rest : Nat) : Binary64 :=
  ⟨BitVec.ofNat 64 (if negative then twoPow 63 + rest else rest)⟩

def infinity (negative : Bool) : Binary64 := ofFields negative (2047 * twoPow 52)

def notANumber : Binary64 := ofFields false (2047 * twoPow 52 + twoPow 51)

def zero (negative : Bool) : Binary64 := ofFields negative 0

/-- The nearest natural number to a quotient, a half going to the even neighbour. -/
def roundQuotient (num den : Nat) : Nat :=
  let n := num / den
  let r := num % den
  if 2 * r < den then n
  else if den < 2 * r then n + 1
  else n + n % 2

/-- The quotient `num / (den * 2 ^ q)` as numerator and denominator. -/
def scaled (num den : Nat) (q : Int) : Nat × Nat :=
  if 0 ≤ q then (num, den * twoPow q.toNat) else (num * twoPow (-q).toNat, den)

/-- The exponent at which `num / den` has a significand of 53 bits, but at least -1074. -/
def exponentFor (num den : Nat) : Int :=
  let guess : Int := (num.log2 : Int) - (den.log2 : Int) - 52
  let (n, d) := scaled num den guess
  let exact := if n < d * twoPow 52 then guess - 1 else guess
  max exact (-1074)

/-- The number nearest to `num / den`, ties to even; too large ones become infinite. -/
def ofQuotient (negative : Bool) (num den : Nat) : Binary64 :=
  if num = 0 then zero negative
  else
    let q := exponentFor num den
    let (n, d) := scaled num den q
    let fields := (q + 1074).toNat * twoPow 52 + roundQuotient n d
    if 2047 * twoPow 52 ≤ fields then infinity negative else ofFields negative fields

/-- The number nearest to `m * 2 ^ q`. -/
def ofDyadic (negative : Bool) (m : Nat) (q : Int) : Binary64 :=
  if 0 ≤ q then ofQuotient negative (m * twoPow q.toNat) 1
  else ofQuotient negative m (twoPow (-q).toNat)

/-- The number nearest to `digits * 10 ^ exponent`, where `digits` has at most `size` decimal digits.
Exponents beyond all finite numbers are not multiplied out. -/
def ofDecimal (negative : Bool) (digits size : Nat) (exponent : Int) : Binary64 :=
  if digits = 0 then zero negative
  else if 400 < exponent then infinity negative
  else if exponent + size < -400 then zero negative
  else if 0 ≤ exponent then ofQuotient negative (digits * tenPow exponent.toNat) 1
  else ofQuotient negative digits (tenPow (-exponent).toNat)

/-- The number nearest to an integer. -/
def ofInt (i : Int) : Binary64 := ofQuotient (i < 0) i.natAbs 1

def neg (x : Binary64) : Binary64 :=
  match x.shape with
  | .notANumber => x
  | _ => ofFields (!x.isNegative) (x.bits.toNat % twoPow 63)

def mul (x y : Binary64) : Binary64 :=
  let negative := x.isNegative != y.isNegative
  match x.shape, y.shape with
  | .notANumber, _ | _, .notANumber => notANumber
  | .infinite _, .finite _ 0 _ | .finite _ 0 _, .infinite _ => notANumber
  | .infinite _, _ | _, .infinite _ => infinity negative
  | .finite _ m p, .finite _ n q => ofDyadic negative (m * n) (p + q)

def add (x y : Binary64) : Binary64 :=
  match x.shape, y.shape with
  | .notANumber, _ | _, .notANumber => notANumber
  | .infinite a, .infinite b => if a = b then infinity a else notANumber
  | .infinite a, _ => infinity a
  | _, .infinite b => infinity b
  | .finite a m p, .finite b n q =>
    let low := min p q
    let left : Int := m * twoPow (p - low).toNat
    let right : Int := n * twoPow (q - low).toNat
    let sum := (if a then -left else left) + (if b then -right else right)
    if sum = 0 then zero (a && b) else ofDyadic (sum < 0) sum.natAbs low

def isZero (x : Binary64) : Bool := x.bits.toNat % twoPow 63 == 0

def isNaN (x : Binary64) : Bool := x.shape == .notANumber

/-- Equality of the numbers meant: zeros are equal whatever their sign, and nothing equals a NaN. -/
def same (x y : Binary64) : Bool :=
  !x.isNaN && (x.bits == y.bits || (x.isZero && y.isZero))

/-- The integer equal to a number, if there is one. -/
def toInt? (x : Binary64) : Option Int :=
  match x.shape with
  | .finite s m q =>
    let sign : Int := if s then -1 else 1
    if 0 ≤ q then some (sign * (m * twoPow q.toNat : Nat))
    else if m % twoPow (-q).toNat = 0 then some (sign * (m / twoPow (-q).toNat : Nat))
    else none
  | _ => none

end Binary64

end DocPath
