import DocPath.Node
import DocPath.Path
import DocPath.Text.Letters
import DocPath.Value.Key
import DocPath.Value.Render

/-! Walking a document along a path, one segment at a time. -/

namespace DocPath

/-- What a stash is to a walk: the value kept under a name, if there is one. -/
abbrev Store := Text → Option Value

/-- Holds every name in small letters; its value is the name in capitals. -/
def Store.capitals : Store := fun key => if Text.isSmall key then some (.text (Text.upper key)) else none

namespace Query

/-- The segment that asks for the first key of a mapping. -/
def anyKey : Text := "_arbitrary_key_"

/-- Why a segment cannot be applied to the node that it meets. -/
inductive Fault where
  | noObject (key : Text) (type : TypeName)
  | emptyMapping
  /-- The segment that asks for a first key is itself a key. -/
  | anyKeyPresent
  | notNumeric (key : Text)
  | outOfBounds (size : Nat) (key : Text)
  /-- A sequence with more items than can be counted. -/
  | uncountable
  | number (fault : NumeralFault)
  deriving DecidableEq

namespace Fault

def message : Fault → Text
  | noObject key type =>
    .concat ["no object found for [", key, "] within object of type [", type.qualified, "]"]
  | emptyMapping => .concat ["requested [", anyKey, "] but the map was empty"]
  | anyKeyPresent =>
    .concat ["requested meta-key [", anyKey, "] but the map unexpectedly contains this key"]
  | notNumeric key => .concat ["element was a list, but [", key, "] was not numeric"]
  | outOfBounds size key =>
    .concat ["element was a list with ", .ofNat size, " elements, but [", key,
      "] was out of bounds"]
  | uncountable => "Python int too large to convert to C ssize_t"
  | number fault => fault.message

end Fault

/-- Something worth noting on a walk. -/
inductive Event where
  | substituted (segment replacement : Text)
  | missed (path segment : Text)
  deriving DecidableEq

def Event.message : Event → Text
  | .substituted segment replacement =>
    .concat ["substituted stashed segment [", segment, "] with [", replacement, "]"]
  | .missed path segment =>
    .concat ["path ", path.quoted, ": no value for segment [", segment, "]"]

/-- An optional sign and at least one digit. -/
def isIndex (key : Text) : Bool :=
  let digits := (Numeral.splitSign key).2
  !digits.isEmpty && digits.all CodePoint.isDigit

/-- The most items that can be counted. -/
def sizeLimit : Nat := twoPow 63 - 1

/-- The item of a sequence at a written index. Only indices with no more digits than the size needs
are read; longer ones are out of bounds. -/
def item (items : Items) (key : Text) : Except Fault Value :=
  if !isIndex key then .error (.notNumeric key)
  else if sizeLimit < items.size then .error .uncountable
  else
    let written := (Numeral.splitSign key).2.dropWhile (· == (CodePoint.ofChar '0'))
    if (Text.ofNat items.size).length < written.length then
      .error (.outOfBounds items.size key)
    else match Numeral.readInteger 10 key with
      | .error fault => .error (.number fault)
      | .ok index =>
        match if index < 0 then none else items.get? index.toNat with
        | some v => .ok v
        | none => .error (.outOfBounds items.size key)

/-- The value of an entry. -/
def valueAt? (entries : List (Value × Value)) (key : Text) : Option Value :=
  (entries.find? fun e => e.1.sameKey (.text key)).map (·.2)

/-- The first key of a mapping. -/
def firstKey (entries : List (Value × Value)) : Except Fault Value :=
  match entries with
  | [] => .error .emptyMapping
  | (key, _) :: _ => if (valueAt? entries anyKey).isSome then .error .anyKeyPresent else .ok key

/-- What lies at a key below a node; null if a mapping has no such key. -/
def step (current : Value) (key : Text) : Except Fault Value :=
  match current.node with
  | .null => .ok .null
  | .mapping entries =>
    if key = anyKey then firstKey entries else .ok ((valueAt? entries key).getD .null)
  | .sequence items => item items key
  | .scalar type => .error (.noObject key type)

/-- The key for a segment: the name of its value in the store, or else the segment itself. -/
def key (store : Store) (segment : Text) : Except Fault (Text × List Event) :=
  match store segment with
  | none => .ok (segment, [])
  | some v =>
    match v.asName with
    | .error fault => .error (.number fault)
    | .ok name => .ok (name, [.substituted segment name])

/-- Follows segments from a value. The events are those up to the end of the walk, whether it
succeeds or fails; nothing happens any more once null is met. -/
def walk (store : Store) (path : Text) (current : Value) :
    List Text → List Event × Except Fault Value
  | [] => ([], .ok current)
  | segment :: rest =>
    if current = .null then ([], .ok .null)
    else
      match key store segment with
      | .error fault => ([], .error fault)
      | .ok (name, events) =>
        match step current name with
        | .error fault => (events, .error fault)
        | .ok next =>
          let noted := if next = .null then events ++ [.missed path segment] else events
          let (more, outcome) := walk store path next rest
          (noted ++ more, outcome)

/-- The value at a path in a document, with the events of the walk. -/
def trace (store : Store) (document : Value) (path : Text) : List Event × Except Fault Value :=
  walk store path document (Path.parse path)

/-- The value at a path in a document. -/
def evaluate (store : Store) (document : Value) (path : Text) : Except Fault Value :=
  (trace store document path).2

end Query

end DocPath
