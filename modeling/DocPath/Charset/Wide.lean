import DocPath.Charset

/-! UTF-16 and UTF-32. -/

namespace DocPath.Charset

namespace Utf16

def charset (order : Option ByteOrder) : Text :=
  "utf-16" ++ ((order.map ByteOrder.tag).getD [])

/-- The number that two bytes make in a byte order. -/
def unit (order : ByteOrder) (a b : UInt8) : Nat :=
  match order with
  | .little => b.toNat * 256 + a.toNat
  | .big => a.toNat * 256 + b.toNat

def unitBytes (order : ByteOrder) (n : Nat) : List UInt8 :=
  match order with
  | .little => [(n % 256).toUInt8, (n / 256).toUInt8]
  | .big => [(n / 256).toUInt8, (n % 256).toUInt8]

def isHigh (n : Nat) : Bool := 0xD800 ≤ n && n ≤ 0xDBFF

def isLow (n : Nat) : Bool := 0xDC00 ≤ n && n ≤ 0xDFFF

/-- The code point of a high and a low surrogate. -/
def joined (high low : Nat) : CodePoint :=
  CodePoint.ofNat (0x10000 + (high - 0xD800) * 0x400 + (low - 0xDC00))

/-- Reads units in a byte order; `place` counts the bytes before them. -/
def decodeFrom (order : ByteOrder) (place : Nat) : List UInt8 → Except DecodeFault Text
  | [] => .ok []
  | [a] => .error ⟨charset (some order), a, place, place + 1, .truncated⟩
  | a :: b :: rest =>
    let n := unit order a b
    if isHigh n then
      match rest with
      | [] => .error ⟨charset (some order), a, place, place + 2, .unexpectedEnd⟩
      | [_] => .error ⟨charset (some order), a, place, place + 3, .unexpectedEnd⟩
      | c :: d :: more =>
        let m := unit order c d
        if isLow m then (decodeFrom order (place + 4) more).map (joined n m :: ·)
        else .error ⟨charset (some order), a, place, place + 2, .unpairedHighSurrogate⟩
    else if isLow n then
      .error ⟨charset (some order), a, place, place + 2, .loneLowSurrogate⟩
    else (decodeFrom order (place + 2) rest).map (CodePoint.ofNat n :: ·)

/-- Reads bytes; without a byte order a mark in front tells it. -/
def decode (order : Option ByteOrder) (bs : List UInt8) : Except DecodeFault Text :=
  match order, bs with
  | some o, bs => decodeFrom o 0 bs
  | none, a :: b :: rest =>
    if unit .little a b = 0xFEFF then decodeFrom .little 2 rest
    else if unit .big a b = 0xFEFF then decodeFrom .big 2 rest
    else decodeFrom .little 0 bs
  | none, bs => decodeFrom .little 0 bs

def pointBytes (order : ByteOrder) (c : CodePoint) : List UInt8 :=
  if c.val < 0x10000 then unitBytes order c.val
  else
    let n := c.val - 0x10000
    unitBytes order (0xD800 + n / 0x400) ++ unitBytes order (0xDC00 + n % 0x400)

def encodeFrom (name : Text) (order : ByteOrder) (place : Nat) :
    Text → Except EncodeFault (List UInt8)
  | [] => .ok []
  | c :: rest =>
    if c.isSurrogate then .error ⟨name, c, place, place + 1, .surrogate⟩
    else (encodeFrom name order (place + 1) rest).map (pointBytes order c ++ ·)

def encode (order : Option ByteOrder) (t : Text) : Except EncodeFault (List UInt8) :=
  match order with
  | some o => encodeFrom (charset order) o 0 t
  | none => (encodeFrom (charset order) .little 0 t).map (unitBytes .little 0xFEFF ++ ·)

end Utf16

namespace Utf32

def charset (order : Option ByteOrder) : Text :=
  "utf-32" ++ ((order.map ByteOrder.tag).getD [])

def unit (order : ByteOrder) (a b c d : UInt8) : Nat :=
  match order with
  | .little => ((d.toNat * 256 + c.toNat) * 256 + b.toNat) * 256 + a.toNat
  | .big => ((a.toNat * 256 + b.toNat) * 256 + c.toNat) * 256 + d.toNat

def unitBytes (order : ByteOrder) (n : Nat) : List UInt8 :=
  let little := [(n % 256).toUInt8, (n / 256 % 256).toUInt8, (n / 65536 % 256).toUInt8,
    (n / 16777216).toUInt8]
  match order with
  | .little => little
  | .big => little.reverse

def decodeFrom (order : ByteOrder) (place : Nat) : List UInt8 → Except DecodeFault Text
  | [] => .ok []
  | a :: b :: c :: d :: rest =>
    let n := unit order a b c d
    if 0x10FFFF < n then
      .error ⟨charset (some order), a, place, place + 4, .beyondCodePoints⟩
    else if (CodePoint.ofNat n).isSurrogate then
      .error ⟨charset (some order), a, place, place + 4, .surrogate⟩
    else (decodeFrom order (place + 4) rest).map (CodePoint.ofNat n :: ·)
  | a :: rest => .error ⟨charset (some order), a, place, place + 1 + rest.length, .truncated⟩

def decode (order : Option ByteOrder) (bs : List UInt8) : Except DecodeFault Text :=
  match order, bs with
  | some o, bs => decodeFrom o 0 bs
  | none, a :: b :: c :: d :: rest =>
    if unit .little a b c d = 0xFEFF then decodeFrom .little 4 rest
    else if unit .big a b c d = 0xFEFF then decodeFrom .big 4 rest
    else decodeFrom .little 0 bs
  | none, bs => decodeFrom .little 0 bs

def encodeFrom (name : Text) (order : ByteOrder) (place : Nat) :
    Text → Except EncodeFault (List UInt8)
  | [] => .ok []
  | c :: rest =>
    if c.isSurrogate then .error ⟨name, c, place, place + 1, .surrogate⟩
    else (encodeFrom name order (place + 1) rest).map (unitBytes order c.val ++ ·)

def encode (order : Option ByteOrder) (t : Text) : Except EncodeFault (List UInt8) :=
  match order with
  | some o => encodeFrom (charset order) o 0 t
  | none => (encodeFrom (charset order) .little 0 t).map (unitBytes .little 0xFEFF ++ ·)

end Utf32

end DocPath.Charset
