import DocPath.Yaml.Fault

/-! Bytes in base 64. -/

namespace DocPath.Yaml.Base64

def alphabet : Text := "ABCDEFGHIJKLMNOPQRSTUVWXYZabcdefghijklmnopqrstuvwxyz0123456789+/"

/-- The value of a digit. -/
def value? (c : CodePoint) : Option Nat := alphabet.findIdx? (· == c)

def digit (n : Nat) : CodePoint := alphabet[n]?.getD '='

/-- Reads digits from a place in a group of four on: `bits` is what is left of the digits before, and
`count` the number of bytes so far. Signs that are no digits are passed over. An equals sign ends the
text if the group is complete with the `padding` met since the last digit. -/
def decodeFrom (place bits padding count : Nat) : Text → Except Base64Fault (List UInt8)
  | [] =>
    if place = 0 then .ok []
    else if place = 1 then .error (.strayDigit (count / 3 * 4 + 1))
    else .error .padding
  | c :: rest =>
    if c = '=' then
      if 2 ≤ place ∧ 4 ≤ place + padding + 1 then .ok []
      else decodeFrom place bits (if 2 ≤ place then padding + 1 else padding) count rest
    else
      match value? c with
      | none => decodeFrom place bits padding count rest
      | some v =>
        if place = 0 then decodeFrom 1 v 0 count rest
        else if place = 1 then
          (decodeFrom 2 (v % 16) 0 (count + 1) rest).map ((bits * 4 + v / 16).toUInt8 :: ·)
        else if place = 2 then
          (decodeFrom 3 (v % 4) 0 (count + 1) rest).map ((bits * 16 + v / 4).toUInt8 :: ·)
        else (decodeFrom 0 0 0 (count + 1) rest).map ((bits * 64 + v).toUInt8 :: ·)

def decode (t : Text) : Except Base64Fault (List UInt8) := decodeFrom 0 0 0 0 t

/-- The digits of bytes, the last group filled up with equals signs. -/
def digits : List UInt8 → Text
  | [] => []
  | [a] =>
    let n := a.toNat
    [digit (n / 4), digit (n % 4 * 16), '=', '=']
  | [a, b] =>
    let n := a.toNat * 256 + b.toNat
    [digit (n / 1024), digit (n / 16 % 64), digit (n % 16 * 4), '=']
  | a :: b :: c :: rest =>
    let n := (a.toNat * 256 + b.toNat) * 256 + c.toNat
    digit (n / 262144) :: digit (n / 4096 % 64) :: digit (n / 64 % 64) :: digit (n % 64) ::
      digits rest

/-- How many bytes stand on one line. -/
def lineSize : Nat := 57

/-- The digits of bytes in lines; the fuel bounds their number. -/
def lines : Nat → List UInt8 → List Text
  | 0, _ => []
  | fuel + 1, bs =>
    if bs.isEmpty then []
    else digits (bs.take lineSize) :: lines fuel (bs.drop lineSize)

end DocPath.Yaml.Base64
