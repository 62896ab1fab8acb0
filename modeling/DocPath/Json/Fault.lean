import DocPath.Number.Numeral

/-! What can be wrong with a JSON text. -/

namespace DocPath.Json

/-- A breach of the grammar of JSON. -/
inductive Problem where
  | byteOrderMark
  | value
  | name
  | colon
  | comma
  | extra
  | control
  | unterminated
  | escape
  | hexEscape
  deriving DecidableEq

/-- Why a text is not read as a JSON document. -/
inductive Fault where
  /-- A breach of the grammar with this many code points left to read. -/
  | syntaxError (problem : Problem) (left : Nat)
  /-- An object with two members of one name. -/
  | duplicateName (name : Text)
  | number (fault : NumeralFault)
  deriving DecidableEq

def Problem.text : Problem → Text
  | .byteOrderMark => "Unexpected UTF-8 BOM (decode using utf-8-sig)"
  | .value => "Expecting value"
  | .name => "Expecting property name enclosed in double quotes"
  | .colon => "Expecting ':' delimiter"
  | .comma => "Expecting ',' delimiter"
  | .extra => "Extra data"
  | .control => "Invalid control character at"
  | .unterminated => "Unterminated string starting at"
  | .escape => "Invalid \\escape"
  | .hexEscape => "Invalid \\uXXXX escape"

/-- Line and column of a place, counted from one; only line feeds end lines. -/
def lineAndColumn (source : Text) (place : Nat) : Nat × Nat :=
  let before := source.take place
  let column := (before.reverse.takeWhile (· != (CodePoint.ofChar '\n'))).length
  (before.count (CodePoint.ofChar '\n') + 1, column + 1)

/-- The message about a breach of the grammar in a source. -/
def Problem.message (source : Text) (left : Nat) (p : Problem) : Text :=
  let place := source.length - left
  let (line, column) := lineAndColumn source place
  .concat [p.text, ": line ", .ofNat line, " column ", .ofNat column, " (char ", .ofNat place, ")"]

/-- The message about a source that was not read. -/
def Fault.message (source : Text) : Fault → Text
  | .syntaxError problem left => problem.message source left
  | .duplicateName name => .concat ["duplicate key ", name.quoted, " in JSON object"]
  | .number fault => fault.message

end DocPath.Json
