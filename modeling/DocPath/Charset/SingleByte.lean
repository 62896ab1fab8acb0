import DocPath.Charset

/-! Character sets of one byte per character. -/

namespace DocPath.Charset

/-- How many code points at the front of a text a condition accepts. -/
def runLength (p : CodePoint → Bool) (t : Text) : Nat := (t.takeWhile p).length

/-- Writes each code point by a map; a run of code points without image is a fault. -/
def encodeBy (charset : Text) (reason : EncodeReason) (byte? : CodePoint → Option UInt8)
    (place : Nat) : Text → Except EncodeFault (List UInt8)
  | [] => .ok []
  | c :: rest =>
    match byte? c with
    | some b => (encodeBy charset reason byte? (place + 1) rest).map (b :: ·)
    | none =>
      let stop := place + 1 + runLength (fun d => (byte? d).isNone) rest
      .error ⟨charset, c, place, stop, reason⟩

/-- Reads each byte by a map. -/
def decodeBy (charset : Text) (reason : DecodeReason) (point? : UInt8 → Option CodePoint)
    (place : Nat) : List UInt8 → Except DecodeFault Text
  | [] => .ok []
  | b :: rest =>
    match point? b with
    | some c => (decodeBy charset reason point? (place + 1) rest).map (c :: ·)
    | none => .error ⟨charset, b, place, place + 1, reason⟩

def asciiByte? (c : CodePoint) : Option UInt8 := if c.val < 128 then some c.val.toUInt8 else none

def asciiPoint? (b : UInt8) : Option CodePoint :=
  if b.toNat < 128 then some (CodePoint.ofNat b.toNat) else none

def latinByte? (c : CodePoint) : Option UInt8 := if c.val < 256 then some c.val.toUInt8 else none

def latinPoint? (b : UInt8) : Option CodePoint := some (CodePoint.ofNat b.toNat)

/-- What the bytes from 128 to 159 stand for in Windows-1252; five stand for nothing. -/
def windowsSpecials : List (Nat × Nat) :=
  [(0x80, 0x20AC), (0x82, 0x201A), (0x83, 0x0192), (0x84, 0x201E), (0x85, 0x2026), (0x86, 0x2020),
    (0x87, 0x2021), (0x88, 0x02C6), (0x89, 0x2030), (0x8A, 0x0160), (0x8B, 0x2039), (0x8C, 0x0152),
    (0x8E, 0x017D), (0x91, 0x2018), (0x92, 0x2019), (0x93, 0x201C), (0x94, 0x201D), (0x95, 0x2022),
    (0x96, 0x2013), (0x97, 0x2014), (0x98, 0x02DC), (0x99, 0x2122), (0x9A, 0x0161), (0x9B, 0x203A),
    (0x9C, 0x0153), (0x9E, 0x017E), (0x9F, 0x0178)]

def windowsByte? (c : CodePoint) : Option UInt8 :=
  if c.val < 0x80 || (0xA0 ≤ c.val && c.val < 0x100) then some c.val.toUInt8
  else (windowsSpecials.find? fun e => e.2 == c.val).map fun e => e.1.toUInt8

def windowsPoint? (b : UInt8) : Option CodePoint :=
  if b.toNat < 0x80 || 0xA0 ≤ b.toNat then some (CodePoint.ofNat b.toNat)
  else (windowsSpecials.find? fun e => e.1 == b.toNat).map fun e => CodePoint.ofNat e.2

end DocPath.Charset
