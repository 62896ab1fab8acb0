import DocPath.Charset.Utf8
import DocPath.Charset.Wide

/-! Texts to bytes and back in any character set. -/

namespace DocPath.Charset

/-- Without the mark of a signed text, if it is there. -/
def dropSignature : List UInt8 → List UInt8
  | 0xEF :: 0xBB :: 0xBF :: rest => rest
  | bs => bs

/-- The text of bytes. -/
def decode : Charset → List UInt8 → Except DecodeFault Text
  | ascii, bs => decodeBy "ascii" .notAscii asciiPoint? 0 bs
  | latin1, bs => decodeBy "latin-1" .notAscii latinPoint? 0 bs
  | windows1252, bs => decodeBy "charmap" .undefinedByte windowsPoint? 0 bs
  | utf8 false, bs => Utf8.decodeFrom 0 bs
  | utf8 true, bs => Utf8.decodeFrom 0 (dropSignature bs)
  | utf16 order, bs => Utf16.decode order bs
  | utf32 order, bs => Utf32.decode order bs

/-- The bytes of a text. -/
def encode : Charset → Text → Except EncodeFault (List UInt8)
  | ascii, t => encodeBy "ascii" .notAscii asciiByte? 0 t
  | latin1, t => encodeBy "latin-1" .notLatin latinByte? 0 t
  | windows1252, t => encodeBy "charmap" .undefinedCharacter windowsByte? 0 t
  | utf8 false, t => Utf8.encodeFrom 0 t
  | utf8 true, t => (Utf8.encodeFrom 0 t).map (0xEF :: 0xBB :: 0xBF :: ·)
  | utf16 order, t => Utf16.encode order t
  | utf32 order, t => Utf32.encode order t

end DocPath.Charset
