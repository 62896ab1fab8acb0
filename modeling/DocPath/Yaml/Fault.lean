import DocPath.Charset
import DocPath.Number.Numeral
import DocPath.Time
import DocPath.Yaml.Mark

/-! What can be wrong with a YAML text, and what was being read when it turned out. -/

namespace DocPath.Yaml

/-- The kinds of nodes. -/
inductive NodeKind where
  | scalar
  | sequence
  | mapping
  deriving DecidableEq

def NodeKind.text : NodeKind → Text
  | scalar => "scalar"
  | sequence => "sequence"
  | mapping => "mapping"

/-- The stage of reading in which a fault shows. -/
inductive Stage where
  | scanning
  | parsing
  | composing
  | constructing
  deriving DecidableEq

/-- What was being read. -/
inductive Context where
  | nextToken
  | simpleKey
  | directive
  | directiveAddress
  | alias
  | anchor
  | tag
  | tagAddress
  | blockScalar
  | quotedScalar
  | doubleQuotedScalar
  | node
  | blockNode
  | flowNode
  | blockCollection
  | blockMapping
  | flowSequence
  | flowMapping
  | firstAnchor (name : Text)
  | firstDocument
  | mapping
  | orderedMap
  | pairs
  deriving DecidableEq

def Context.text : Context → Text
  | nextToken => "while scanning for the next token"
  | simpleKey => "while scanning a simple key"
  | directive => "while scanning a directive"
  | directiveAddress => "while parsing a directive"
  | .alias => "while scanning an alias"
  | anchor => "while scanning an anchor"
  | tag => "while scanning a tag"
  | tagAddress => "while parsing a tag"
  | blockScalar => "while scanning a block scalar"
  | quotedScalar => "while scanning a quoted scalar"
  | doubleQuotedScalar => "while scanning a double-quoted scalar"
  | node => "while parsing a node"
  | blockNode => "while parsing a block node"
  | flowNode => "while parsing a flow node"
  | blockCollection => "while parsing a block collection"
  | blockMapping => "while parsing a block mapping"
  | flowSequence => "while parsing a flow sequence"
  | flowMapping => "while parsing a flow mapping"
  | firstAnchor name => .concat ["found duplicate anchor ", name.quoted, "; first occurrence"]
  | firstDocument => "expected a single document in the stream"
  | mapping => "while constructing a mapping"
  | orderedMap => "while constructing an ordered map"
  | pairs => "while constructing pairs"

/-- What a scanner needs at a place where another code point stands. -/
inductive Wanted where
  | name
  | digit
  | digitOrPoint
  | digitOrBlank
  | blank
  | commentOrBreak
  | exclamation
  | closingAngle
  | address
  | addressEscape
  | blockIndicators
  | hexDigits (count : Nat)
  deriving DecidableEq

def Wanted.text : Wanted → Text
  | name => "alphabetic or numeric character"
  | digit => "a digit"
  | digitOrPoint => "a digit or '.'"
  | digitOrBlank => "a digit or ' '"
  | blank => "' '"
  | commentOrBreak => "a comment or a line break"
  | exclamation => "'!'"
  | closingAngle => "'>'"
  | address => "URI"
  | addressEscape => "URI escape sequence of 2 hexadecimal numbers"
  | blockIndicators => "chomping or indentation indicators"
  | hexDigits count => .concat ["escape sequence of ", .ofNat count, " hexadecimal numbers"]

/-- Why bytes in base 64 cannot be read. -/
inductive Base64Fault where
  | padding
  /-- One digit more than a multiple of four. -/
  | strayDigit (count : Nat)
  deriving DecidableEq

def Base64Fault.text : Base64Fault → Text
  | padding => "Incorrect padding"
  | strayDigit count =>
    .concat ["Invalid base64-encoded string: number of data characters (", .ofNat count,
      ") cannot be 1 more than a multiple of 4"]

/-- What is wrong. Tokens are given by their names. -/
inductive Problem where
  | noColon
  | noToken (found : CodePoint)
  | sequenceEntry
  | mappingKey
  | mappingValue
  | expected (wanted : Wanted) (found : CodePoint)
  | zeroIndentation
  | unknownEscape (found : CodePoint)
  | endOfStream
  | documentSeparator
  | addressBytes (fault : DecodeFault)
  | repeatedVersion
  | otherVersion
  | repeatedHandle (handle : Text)
  | unknownHandle (handle : Text)
  | noDocumentStart (found : Text)
  | noContent (found : Text)
  | noBlockEnd (found : Text)
  | noFlowEnd (close : CodePoint) (found : Text)
  | unknownAlias (name : Text)
  | secondAnchor
  | secondDocument
  | unknownTag (tag : Text)
  | recursiveNode
  | wrongKind (wanted found : NodeKind)
  | unhashableKey
  | mergeItem (found : NodeKind)
  | mergeValue (found : NodeKind)
  | notAscii (fault : EncodeFault)
  | base64 (fault : Base64Fault)
  | noSequence (found : NodeKind)
  | noSingleMapping (found : NodeKind)
  | itemCount (count : Nat)
  deriving DecidableEq

/-- Why a text is not read as a YAML document. -/
inductive Fault where
  /-- A control character or the like. -/
  | unacceptable (found : CodePoint) (position : Nat)
  | marked (stage : Stage) (context : Option (Context × Option Mark)) (problem : Problem)
      (mark : Mark)
  /-- A mapping with two keys that are written alike. -/
  | duplicateKey (key : Text) (mark : Mark)
  | number (fault : NumeralFault)
  | time (fault : TimeFault)
  /-- An escape for a number past the last code point. -/
  | noCodePoint (number : Nat)
  /-- A text tagged as truth value that is none. -/
  | notABoolean (text : Text)
  /-- A text tagged as time that is none. -/
  | notATime
  /-- A node without a text of its own tagged as time. -/
  | timeWithoutText
  /-- A number without any digit or sign. -/
  | emptyNumber
  /-- A number in base 60 with more places than a floating-point number can tell. -/
  | tooManyPlaces
  /-- A sequence tagged as mapping, by the kind of its first item. -/
  | itemAsEntry (kind : NodeKind)
  /-- A scalar tagged as mapping. -/
  | textAsEntries
  /-- A scalar that leads back to itself. -/
  | endless
  deriving DecidableEq

def Problem.text : Problem → Text
  | noColon => "could not find expected ':'"
  | noToken found => .concat ["found character ", Text.quoted [found], " that cannot start any token"]
  | sequenceEntry => "sequence entries are not allowed here"
  | mappingKey => "mapping keys are not allowed here"
  | mappingValue => "mapping values are not allowed here"
  | expected wanted found => .concat ["expected ", wanted.text, ", but found ", Text.quoted [found]]
  | zeroIndentation => "expected indentation indicator in the range 1-9, but found 0"
  | unknownEscape found => .concat ["found unknown escape character ", Text.quoted [found]]
  | endOfStream => "found unexpected end of stream"
  | documentSeparator => "found unexpected document separator"
  | addressBytes fault => fault.message
  | repeatedVersion => "found duplicate YAML directive"
  | otherVersion => "found incompatible YAML document (version 1.* is required)"
  | repeatedHandle handle => .concat ["duplicate tag handle ", handle.quoted]
  | unknownHandle handle => .concat ["found undefined tag handle ", handle.quoted]
  | noDocumentStart found => .concat ["expected '<document start>', but found ", found.quoted]
  | noContent found => .concat ["expected the node content, but found ", found.quoted]
  | noBlockEnd found => .concat ["expected <block end>, but found ", found.quoted]
  | noFlowEnd close found => .concat ["expected ',' or '", [close], "', but got ", found.quoted]
  | unknownAlias name => .concat ["found undefined alias ", name.quoted]
  | secondAnchor => "second occurrence"
  | secondDocument => "but found another document"
  | unknownTag tag => .concat ["could not determine a constructor for the tag ", tag.quoted]
  | recursiveNode => "found unconstructable recursive node"
  | wrongKind wanted found => .concat ["expected a ", wanted.text, " node, but found ", found.text]
  | unhashableKey => "found unhashable key"
  | mergeItem found => .concat ["expected a mapping for merging, but found ", found.text]
  | mergeValue found =>
    .concat ["expected a mapping or list of mappings for merging, but found ", found.text]
  | notAscii fault => .concat ["failed to convert base64 data into ascii: ", fault.message]
  | base64 fault => .concat ["failed to decode base64 data: ", fault.text]
  | noSequence found => .concat ["expected a sequence, but found ", found.text]
  | noSingleMapping found => .concat ["expected a mapping of length 1, but found ", found.text]
  | itemCount count =>
    .concat ["expected a single mapping item, but found ", .ofNat count, " items"]

/-- The lines of a message: what was being read and from where on, what is wrong and where. The first
place is left out if it is the second. -/
def markedMessage (source : Text) (context : Option (Context × Option Mark)) (problem : Problem)
    (mark : Mark) : Text :=
  let contextLines : List Text := match context with
    | none => []
    | some (c, none) => [c.text]
    | some (c, some m) =>
      if m.line = mark.line ∧ m.column = mark.column then [c.text] else [c.text, m.shown source]
  Text.join "\n" (contextLines ++ [problem.text, mark.shown source])

/-- The type of nodes of a kind. -/
def NodeKind.typeName : NodeKind → Text
  | scalar => "ScalarNode"
  | sequence => "SequenceNode"
  | mapping => "MappingNode"

/-- The message about a source that was not read. -/
def Fault.message (source : Text) : Fault → Text
  | unacceptable found position =>
    .concat ["unacceptable character #x", .hex 4 found.val,
      ": special characters are not allowed\n  in \"<unicode string>\", position ",
      .ofNat position]
  | marked _ context problem mark => markedMessage source context problem mark
  | duplicateKey key mark =>
    .concat ["duplicate key ", key.quoted, " in YAML mapping", mark.shown source]
  | number fault => fault.message
  | time fault => fault.message
  | noCodePoint n =>
    if twoPow 31 ≤ n then "Python int too large to convert to C int"
    else "chr() arg not in range(0x110000)"
  | notABoolean text => text.quoted
  | notATime => "'NoneType' object has no attribute 'groupdict'"
  | timeWithoutText => "expected string or bytes-like object, got 'list'"
  | emptyNumber => "string index out of range"
  | tooManyPlaces => "int too large to convert to float"
  | itemAsEntry kind => .concat ["cannot unpack non-iterable ", kind.typeName, " object"]
  | textAsEntries => "not enough values to unpack (expected 2, got 1)"
  | endless => []

end DocPath.Yaml
