import DocPath.Text.Quoted

/-! The kinds of errors by which callers tell failures apart. Every kind is also of the kinds above it, so
that an unsuitable path can be met as an error of this library or as one of an unsuitable value. -/

namespace DocPath

inductive ErrorKind where
  | objectPath
  | invalidPath
  | unsupportedOperation
  | unsupportedContentType
  | stashLookup
  | value
  | type
  | lookup
  | key
  | index
  | member
  | arithmetic
  | overflow
  | runtime
  | notImplemented
  | recursion
  | unicode
  | unicodeDecode
  | unicodeEncode
  | jsonDecode
  | yaml
  | markedYaml
  | reader
  | scanner
  | grammar
  | composer
  | constructor
  | representer
  | validation
  deriving DecidableEq

namespace ErrorKind

def name : ErrorKind → Text
  | objectPath => "ObjectPathError"
  | invalidPath => "InvalidPathError"
  | unsupportedOperation => "UnsupportedOperationError"
  | unsupportedContentType => "UnsupportedContentTypeError"
  | stashLookup => "StashLookupError"
  | value => "ValueError"
  | type => "TypeError"
  | lookup => "LookupError"
  | key => "KeyError"
  | index => "IndexError"
  | member => "AttributeError"
  | arithmetic => "ArithmeticError"
  | overflow => "OverflowError"
  | runtime => "RuntimeError"
  | notImplemented => "NotImplementedError"
  | recursion => "RecursionError"
  | unicode => "UnicodeError"
  | unicodeDecode => "UnicodeDecodeError"
  | unicodeEncode => "UnicodeEncodeError"
  | jsonDecode => "JSONDecodeError"
  | yaml => "YAMLError"
  | markedYaml => "MarkedYAMLError"
  | reader => "ReaderError"
  | scanner => "ScannerError"
  | grammar => "ParserError"
  | composer => "ComposerError"
  | constructor => "ConstructorError"
  | representer => "RepresenterError"
  | validation => "ValidationError"

/-- The kinds above a kind, the nearest first. -/
def above : ErrorKind → List ErrorKind
  | invalidPath | unsupportedContentType => [objectPath, value]
  | unsupportedOperation => [objectPath, notImplemented, runtime]
  | stashLookup => [objectPath, key, lookup]
  | key | index => [lookup]
  | overflow => [arithmetic]
  | notImplemented | recursion => [runtime]
  | unicode | jsonDecode | validation => [value]
  | unicodeDecode | unicodeEncode => [unicode, value]
  | markedYaml | reader | representer => [yaml]
  | scanner | grammar | composer | constructor => [markedYaml, yaml]
  | objectPath | value | type | lookup | member | arithmetic | runtime | yaml => []

/-- Whether an error of one kind is of another. -/
def isA (k other : ErrorKind) : Bool := k == other || k.above.contains other

/-- The kinds that the library adds to those that callers know already. -/
def own : List ErrorKind :=
  [objectPath, invalidPath, unsupportedOperation, unsupportedContentType, stashLookup]

/-- The kind of the library with a name. -/
def ownNamed? (t : Text) : Option ErrorKind := own.find? (·.name == t)

/-- The names of what every error belongs to. -/
def general : List Text := ["Exception", "BaseException", "object"]

/-- The names of a kind and of all above it, up to those that every error belongs to. -/
def lineage (k : ErrorKind) : List Text :=
  (k :: k.above).map name ++ general

/-- Whether errors of a kind show their message between quotation marks: those about keys. -/
def quotes (k : ErrorKind) : Bool := k.isA key

/-- What an error shows of its arguments: nothing, a single one, or all of them in a row. -/
def shown (k : ErrorKind) : List Text → Text
  | [] => []
  | [t] => if k.quotes then t.quoted else t
  | ts => .concat ["(", .join ", " (ts.map Text.quoted), ")"]

end ErrorKind

end DocPath
