import DocPath.Config
import DocPath.ErrorKind
import DocPath.Log.Level
import DocPath.Payload
import DocPath.Query
import DocPath.Stash

/-! Everything that an operation on documents, stashes, settings or the logger can fail with: its cause, its
message and its kind. -/

namespace DocPath

inductive Failure where
  | path (fault : Path.Fault)
  | query (fault : Query.Fault)
  | stash (fault : Stash.Fault)
  | key (fault : Value.KeyFault)
  | number (fault : NumeralFault)
  | payload (fault : PayloadFault)
  | level (fault : Log.LevelFault)
  /-- A document that is neither mapping nor sequence. -/
  | noCollection (type : TypeName)
  /-- A document to be written that is no mapping. -/
  | noMapping
  /-- A content type that is no text. -/
  | noContentType (type : TypeName)
  /-- A content type that is a byte string. -/
  | bytesAsContentType
  | invalidSettings (faults : List (Setting × SettingFault))
  | unknownSettings (names : List Text)
  | noSuchSetting (name : Text)
  /-- A name under which nothing is held. -/
  | unnamed (name : Text)
  deriving DecidableEq

namespace Failure

def ofOverride : Config.OverrideFault → Failure
  | .unknown names => unknownSettings names
  | .invalid faults => invalidSettings faults

def message : Failure → Text
  | path fault => fault.message
  | query fault => fault.message
  | stash fault =>
    match fault with
    | .absent _ => fault.message.quoted
    | _ => fault.message
  | key fault => fault.message
  | number fault => fault.message
  | payload fault => fault.message
  | level fault => fault.message
  | noCollection type => .concat ["expected a top-level object or array, got ", type.name]
  | noMapping => "only an ObjectPath created from a mapping can be serialized"
  | noContentType type => .concat ["'", type.qualified, "' object has no attribute 'split'"]
  | bytesAsContentType => "a bytes-like object is required, not 'str'"
  | invalidSettings _ => []
  | unknownSettings names =>
    .concat ["unknown objpath config fields: [", .join ", " (names.map Text.quoted), "]"]
  | noSuchSetting name => .concat ["\"ObjectPathConfig\" object has no field \"", name, "\""]
  | unnamed name => name.quoted

end Failure

def Query.Fault.errorKind : Query.Fault → ErrorKind
  | .uncountable => .overflow
  | .number _ => .value
  | _ => .invalidPath

def Stash.Fault.errorKind : Stash.Fault → ErrorKind
  | .emptyKey => .value
  | .readOnly => .type
  | .absent _ => .stashLookup

def CharsetFault.errorKind : CharsetFault → ErrorKind
  | .nulInName => .value
  | .unknown _ | .noCharset .. => .lookup

def Json.Fault.errorKind : Json.Fault → ErrorKind
  | .syntaxError .. => .jsonDecode
  | .duplicateName _ | .number _ => .value

def Yaml.Stage.errorKind : Yaml.Stage → ErrorKind
  | .scanning => .scanner
  | .parsing => .grammar
  | .composing => .composer
  | .constructing => .constructor

def Yaml.Fault.errorKind : Yaml.Fault → ErrorKind
  | .unacceptable .. => .reader
  | .marked stage .. => stage.errorKind
  | .duplicateKey .. | .number _ | .time _ | .textAsEntries => .value
  | .noCodePoint n => if twoPow 31 ≤ n then .overflow else .value
  | .notABoolean _ => .key
  | .notATime => .member
  | .timeWithoutText | .itemAsEntry _ => .type
  | .emptyNumber => .index
  | .tooManyPlaces => .overflow
  | .endless => .recursion

def PayloadFault.errorKind : PayloadFault → ErrorKind
  | .format _ => .unsupportedContentType
  | .charset fault => fault.errorKind
  | .decoding _ => .unicodeDecode
  | .encoding _ => .unicodeEncode
  | .json _ fault => fault.errorKind
  | .yaml _ fault => fault.errorKind
  | .unwritableJson fault =>
    match fault with
    | .value _ | .key .. => .type
    | .number _ => .value
  | .unwritableYaml fault =>
    match fault with
    | .value _ => .representer
    | .number _ => .value
  | .endless => .recursion

def Log.LevelFault.errorKind : Log.LevelFault → ErrorKind
  | .type _ => .type
  | .unknownName _ | .number _ => .value

def Failure.kind : Failure → ErrorKind
  | .path _ => .value
  | .query fault => fault.errorKind
  | .stash fault => fault.errorKind
  | .key _ => .type
  | .number _ => .value
  | .payload fault => fault.errorKind
  | .level fault => fault.errorKind
  | .noCollection _ => .value
  | .noMapping => .unsupportedOperation
  | .noContentType _ => .member
  | .bytesAsContentType => .type
  | .invalidSettings _ => .validation
  | .unknownSettings _ => .type
  | .noSuchSetting _ => .value
  | .unnamed _ => .key

end DocPath
