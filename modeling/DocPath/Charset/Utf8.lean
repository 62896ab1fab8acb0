import DocPath.Charset.SingleByte

/-! UTF-8. -/

namespace DocPath.Charset.Utf8

/-- What follows a first byte: how many more bytes, and the range of the first of them. The others
are from 0x80 to 0xBF. -/
structure Lead where
  more : Nat
  low : Nat
  high : Nat
  deriving DecidableEq

def lead? (b : Nat) : Option Lead :=
  if b < 0x80 then some ⟨0, 0x80, 0xBF⟩
  else if b < 0xC2 then none
  else if b < 0xE0 then some ⟨1, 0x80, 0xBF⟩
  else if b < 0xF0 then
    some ⟨2, if b = 0xE0 then 0xA0 else 0x80, if b = 0xED then 0x9F else 0xBF⟩
  else if b < 0xF5 then
    some ⟨3, if b = 0xF0 then 0x90 else 0x80, if b = 0xF4 then 0x8F else 0xBF⟩
  else none

def isTail (b : UInt8) : Bool := 0x80 ≤ b.toNat && b.toNat ≤ 0xBF

/-- The code point of a first byte with the number of bytes behind it, and of these bytes. -/
def point (more : Nat) (first : UInt8) (tails : List UInt8) : CodePoint :=
  let head :=
    if more = 0 then first.toNat
    else if more = 1 then first.toNat % 32
    else if more = 2 then first.toNat % 16
    else first.toNat % 8
  CodePoint.ofNat (tails.foldl (fun n b => n * 64 + b.toNat % 64) head)

def fault (first : UInt8) (start stop : Nat) (reason : DecodeReason) : Except DecodeFault Text :=
  .error ⟨"utf-8", first, start, stop, reason⟩

/-- Reads bytes; `place` counts the bytes before them. A fault covers the bytes that could have begun
a character. -/
def decodeFrom (place : Nat) : List UInt8 → Except DecodeFault Text
  | [] => .ok []
  | a :: rest =>
    match lead? a.toNat with
    | none => fault a place (place + 1) .invalidStart
    | some ⟨0, _, _⟩ => (decodeFrom (place + 1) rest).map (point 0 a [] :: ·)
    | some ⟨more, low, high⟩ =>
      match rest with
      | [] => fault a place (place + 1) .unexpectedEnd
      | b :: rest =>
        if b.toNat < low || high < b.toNat then fault a place (place + 1) .invalidContinuation
        else if more = 1 then (decodeFrom (place + 2) rest).map (point 1 a [b] :: ·)
        else
          match rest with
          | [] => fault a place (place + 2) .unexpectedEnd
          | c :: rest =>
            if !isTail c then fault a place (place + 2) .invalidContinuation
            else if more = 2 then (decodeFrom (place + 3) rest).map (point 2 a [b, c] :: ·)
            else
              match rest with
              | [] => fault a place (place + 3) .unexpectedEnd
              | d :: rest =>
                if !isTail d then fault a place (place + 3) .invalidContinuation
                else (decodeFrom (place + 4) rest).map (point 3 a [b, c, d] :: ·)

/-- The bytes of a code point. -/
def bytes (c : CodePoint) : List UInt8 :=
  let n := c.val
  if n < 0x80 then [n.toUInt8]
  else if n < 0x800 then [(0xC0 + n / 64).toUInt8, (0x80 + n % 64).toUInt8]
  else if n < 0x10000 then
    [(0xE0 + n / 4096).toUInt8, (0x80 + n / 64 % 64).toUInt8, (0x80 + n % 64).toUInt8]
  else
    [(0xF0 + n / 262144).toUInt8, (0x80 + n / 4096 % 64).toUInt8, (0x80 + n / 64 % 64).toUInt8,
      (0x80 + n % 64).toUInt8]

/-- Writes code points; `place` counts those before them. A run of surrogates is a fault. -/
def encodeFrom (place : Nat) : Text → Except EncodeFault (List UInt8)
  | [] => .ok []
  | c :: rest =>
    if c.isSurrogate then
      .error ⟨"utf-8", c, place, place + 1 + runLength CodePoint.isSurrogate rest, .surrogate⟩
    else (encodeFrom (place + 1) rest).map (bytes c ++ ·)

end DocPath.Charset.Utf8
