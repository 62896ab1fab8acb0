import DocPath.Charset.Transcode
import DocPath.ContentType
import DocPath.Json.Reader
import DocPath.Json.Writer
import DocPath.Value.Normal
import DocPath.Yaml.Layout
import DocPath.Yaml.Reader

/-! Payloads: documents as they are sent, in the format and the character set that a content type names. -/

namespace DocPath

/-- What carries a document: text, or bytes that are text in some character set. -/
inductive Payload where
  | text (t : Text)
  | bytes (bs : List UInt8)

/-- Why a payload is not read, or a document not written. -/
inductive PayloadFault where
  | format (contentType : Text)
  | charset (fault : CharsetFault)
  | decoding (fault : DecodeFault)
  | encoding (fault : EncodeFault)
  | json (source : Text) (fault : Json.Fault)
  | yaml (source : Text) (fault : Yaml.Fault)
  | unwritableJson (fault : Json.Unwritable)
  | unwritableYaml (fault : Yaml.Unwritable)
  /-- Some part of the document contains itself. -/
  | endless
  deriving DecidableEq

def PayloadFault.message : PayloadFault → Text
  | format contentType =>
    .concat ["unsupported content type ", contentType.quoted,
      "; expected a JSON or YAML media type"]
  | charset fault => fault.message
  | decoding fault => fault.message
  | encoding fault => fault.message
  | json source fault => fault.message source
  | yaml source fault => fault.message source
  | unwritableJson fault => fault.message
  | unwritableYaml fault => fault.message
  | endless => []

namespace ContentType

/-- The format of a content type, which must name one. -/
def format (contentType : Text) : Except PayloadFault Format :=
  match format? contentType with
  | some f => .ok f
  | none => .error (.format contentType)

/-- The character set of a content type; `toBytes` tells what it is wanted for. -/
def charsetFor (toBytes : Bool) (contentType : Text) : Except PayloadFault Charset :=
  (Charset.named toBytes (charset contentType)).mapError .charset

end ContentType

namespace Payload

/-- The unit in which the size of a payload is given. -/
def unit : Payload → Text
  | text _ => "characters"
  | bytes _ => "bytes"

def size : Payload → Nat
  | text t => t.length
  | bytes bs => bs.length

/-- The text of a payload. No bytes are no text in every character set, known or not. -/
def toText (contentType : Text) : Payload → Except PayloadFault Text
  | text t => .ok t
  | bytes bs =>
    match ContentType.charsetFor false contentType with
    | .error (.charset .nulInName) => .error (.charset .nulInName)
    | .error fault => if bs.isEmpty then .ok [] else .error fault
    | .ok charset => if bs.isEmpty then .ok [] else (charset.decode bs).mapError .decoding

/-- Reads a text in a format. -/
def readText (format : ContentType.Format) (t : Text) : Except PayloadFault Value :=
  match format with
  | .json => (Json.read t).mapError (.json t)
  | .yaml => (Yaml.read t).mapError (.yaml t)

/-- The document of a payload. The keys of its mappings are texts, none twice in a mapping. -/
def decode (contentType : Text) (p : Payload) : Except PayloadFault Value := do
  let format ← ContentType.format contentType
  readText format (← p.toText contentType)

/-- Writes a value in normal form. -/
def writeText (format : ContentType.Format) (style : Json.Style) (v : Value) :
    Except PayloadFault Text :=
  match format with
  | .json => (Json.write style v).mapError .unwritableJson
  | .yaml => (Yaml.write v).mapError .unwritableYaml

/-- The bytes of a document. -/
def encode (style : Json.Style) (contentType : Text) (document : Value) :
    Except PayloadFault (List UInt8) := do
  let format ← ContentType.format contentType
  match document.normal? with
  | none => .error .endless
  | some v =>
    let t ← writeText format style v
    let charset ← ContentType.charsetFor true contentType
    (charset.encode t).mapError .encoding

end Payload

end DocPath
