import DocPath.Text.Quoted

/-! Character sets: their names, and the ways in which bytes or texts fail to fit them. -/

namespace DocPath

/-- The order of the bytes of a unit. -/
inductive ByteOrder where
  | little
  | big
  deriving DecidableEq

/-- How the name of a character set tells the order. -/
def ByteOrder.tag : ByteOrder → Text
  | .little => "-le"
  | .big => "-be"

/-- A character set. Without a byte order the wide ones are marked by U+FEFF in front: it is written in
little order, and bytes without the mark are read so. The signed form of UTF-8 has the mark, too. -/
inductive Charset where
  | ascii
  | latin1
  | windows1252
  | utf8 (signed : Bool)
  | utf16 (order : Option ByteOrder)
  | utf32 (order : Option ByteOrder)
  deriving DecidableEq

inductive DecodeReason where
  | notAscii
  | undefinedByte
  | invalidStart
  | invalidContinuation
  | unexpectedEnd
  | truncated
  | loneLowSurrogate
  | unpairedHighSurrogate
  | surrogate
  | beyondCodePoints
  deriving DecidableEq

def DecodeReason.text : DecodeReason → Text
  | notAscii => "ordinal not in range(128)"
  | undefinedByte => "character maps to <undefined>"
  | invalidStart => "invalid start byte"
  | invalidContinuation => "invalid continuation byte"
  | unexpectedEnd => "unexpected end of data"
  | truncated => "truncated data"
  | loneLowSurrogate => "illegal encoding"
  | unpairedHighSurrogate => "illegal UTF-16 surrogate"
  | surrogate => "code point in surrogate code point range(0xd800, 0xe000)"
  | beyondCodePoints => "code point not in range(0x110000)"

/-- Bytes from `start` to before `stop` that a character set cannot read; `first` is the first. -/
structure DecodeFault where
  charset : Text
  first : UInt8
  start : Nat
  stop : Nat
  reason : DecodeReason
  deriving DecidableEq

def DecodeFault.message (f : DecodeFault) : Text :=
  let place : Text :=
    if f.stop = f.start + 1 then
      .concat ["byte 0x", .hex 2 f.first.toNat, " in position ", .ofNat f.start]
    else .concat ["bytes in position ", .ofNat f.start, "-", .ofNat (f.stop - 1)]
  .concat ["'", f.charset, "' codec can't decode ", place, ": ", f.reason.text]

inductive EncodeReason where
  | notAscii
  | notLatin
  | undefinedCharacter
  | surrogate
  deriving DecidableEq

def EncodeReason.text : EncodeReason → Text
  | notAscii => "ordinal not in range(128)"
  | notLatin => "ordinal not in range(256)"
  | undefinedCharacter => "character maps to <undefined>"
  | surrogate => "surrogates not allowed"

/-- Code points from `start` to before `stop` that a character set cannot write; `first` is the first. -/
structure EncodeFault where
  charset : Text
  first : CodePoint
  start : Nat
  stop : Nat
  reason : EncodeReason
  deriving DecidableEq

def EncodeFault.message (f : EncodeFault) : Text :=
  let place : Text :=
    if f.stop = f.start + 1 then
      .concat ["character '", f.first.escape, "' in position ", .ofNat f.start]
    else .concat ["characters in position ", .ofNat f.start, "-", .ofNat (f.stop - 1)]
  .concat ["'", f.charset, "' codec can't encode ", place, ": ", f.reason.text]

/-- Why a name gives no character set. -/
inductive CharsetFault where
  | unknown (name : Text)
  /-- The name of a transformation of bytes or texts that is no character set. -/
  | noCharset (name : Text) (toBytes : Bool)
  | nulInName
  deriving DecidableEq

def CharsetFault.message : CharsetFault → Text
  | unknown name => .concat ["unknown encoding: ", name]
  | noCharset name toBytes =>
    .concat ["'", name, "' is not a text encoding; use codecs.",
      if toBytes then "encode()" else "decode()", " to handle arbitrary codecs"]
  | nulInName => "embedded null character"

namespace Charset

/-- The words of a name in small letters with underscores between them; all but letters, digits and
points separates words. -/
def canonical (afterWord pending : Bool) : Text → Text
  | [] => []
  | c :: rest =>
    if c.isDigit || c.isLetter || c.is '.' then
      let word := c.lowerLetter :: canonical true false rest
      if pending && afterWord then '_' :: word else word
    else canonical afterWord true rest

/-- The names of the character sets in canonical form. -/
def names : List (Charset × List String) :=
  [(ascii, ["ascii", "646", "ansi_x3.4_1968", "ansi_x3_4_1968", "ansi_x3.4_1986", "cp367", "csascii",
      "ibm367", "iso646_us", "iso_646.irv_1991", "iso_ir_6", "us", "us_ascii"]),
    (latin1, ["latin_1", "8859", "cp819", "csisolatin1", "ibm819", "iso8859", "iso8859_1",
      "iso_8859_1", "iso_8859_1_1987", "iso_ir_100", "l1", "latin", "latin1"]),
    (windows1252, ["cp1252", "1252", "windows_1252"]),
    (utf8 false, ["utf_8", "u8", "utf", "utf8", "utf8_ucs2", "utf8_ucs4", "cp65001"]),
    (utf8 true, ["utf_8_sig"]),
    (utf16 none, ["utf_16", "u16", "utf16"]),
    (utf16 (some .little), ["utf_16_le", "unicodelittleunmarked", "utf_16le"]),
    (utf16 (some .big), ["utf_16_be", "unicodebigunmarked", "utf_16be"]),
    (utf32 none, ["utf_32", "u32", "utf32"]),
    (utf32 (some .little), ["utf_32_le", "utf_32le"]),
    (utf32 (some .big), ["utf_32_be", "utf_32be"])]

/-- The names of transformations that are no character sets, in canonical form. -/
def transformationNames : List String :=
  ["base64_codec", "base64", "base_64", "bz2_codec", "bz2", "hex_codec", "hex", "quopri_codec",
    "quopri", "quoted_printable", "quotedprintable", "rot_13", "rot13", "uu_codec", "uu",
    "zlib_codec", "zip", "zlib"]

/-- The character set of a name. -/
def named (toBytes : Bool) (name : Text) : Except CharsetFault Charset :=
  if name.contains [CodePoint.nul] then .error .nulInName
  else
    let word := canonical false false name
    let hasName (ns : List String) : Bool := ns.any fun n => word == Text.ofString n
    match names.find? fun e => hasName e.2 with
    | some e => .ok e.1
    | none =>
      if hasName transformationNames then .error (.noCharset name toBytes)
      else .error (.unknown name)

end Charset

end DocPath
