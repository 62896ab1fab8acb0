import DocPath.Value

/-! Values as keys of mappings and elements of sets. Keys are equal if they mean the same number, text
or collection, whatever their types: 1, 1.0 and true are one key. -/

namespace DocPath

namespace Scalar

/-- The integer that a truth value or integer counts as. -/
def integer? : Scalar → Option Int
  | .bool b => some (if b then 1 else 0)
  | .int i => some i
  | _ => none

/-- The time in microseconds on a common scale, for times with an offset. -/
def instant (d : DateTime) : Int :=
  let y : Int := d.date.year - 1
  let leaps := y.fdiv 4 - y.fdiv 100 + y.fdiv 400
  let inMonths : Nat := (List.range (d.date.month - 1)).foldl
    (fun days m => days + Date.daysIn d.date.year (m + 1)) 0
  let days := 365 * y + leaps + inMonths + d.date.day
  let seconds := days * 86400 + d.hour * 3600 + d.minute * 60 + d.second - d.offset.getD 0
  seconds * 1000000 + d.microsecond

/-- Equality of two scalars as keys. -/
def sameKey (a b : Scalar) : Bool :=
  match a, b with
  | .float x, .float y => x.same y
  | .decimal x, .decimal y => x.same y
  | .decimal x, .float y | .float y, .decimal x => x.sameBinary y
  | .dateTime x, .dateTime y =>
    x.offset.isSome == y.offset.isSome && instant x == instant y
  | a, b =>
    match a.integer?, b.integer? with
    | some i, some j => i == j
    | some i, none | none, some i =>
      match a, b with
      | .float x, _ | _, .float x => x.toInt? == some i
      | .decimal x, _ | _, .decimal x => x.sameInt i
      | _, _ => false
    | none, none => a == b

end Scalar

namespace Value

mutual

/-- Equality of two values as keys. -/
def sameKey : Value → Value → Bool
  | .null, .null => true
  | .scalar a, .scalar b => a.sameKey b
  | .range a b c, .range d e f => a == d && b == e && c == f
  | .tuple xs, .tuple ys => sameKeys xs ys
  | .set _ xs, .set _ ys => xs.length == ys.length && allAmong xs ys
  | .anchor _ v, w => sameKey v w
  | v, .anchor _ w => v == w
  | _, _ => false

def sameKeys : List Value → List Value → Bool
  | [], [] => true
  | x :: xs, y :: ys => sameKey x y && sameKeys xs ys
  | _, _ => false

def allAmong : List Value → List Value → Bool
  | [], _ => true
  | x :: xs, ys => ys.any (fun y => sameKey x y) && allAmong xs ys

end

/-- Whether a value can be a key: lists and other changeable sequences, mappings, changeable sets and changeable
bytes cannot. -/
def isKey : Value → Bool
  | .list _ | .sequence .. | .map .. | .set false _ | .scalar (.byteArray _) => false
  | .anchor _ v => isKey v
  | _ => true

/-- Why a value cannot be a key. -/
inductive KeyFault where
  | changeable (type : TypeName)
  /-- A number that stands for an error when it is used. -/
  | signalingNumber
  deriving DecidableEq

def KeyFault.message : KeyFault → Text
  | .changeable type => .concat ["unhashable type: '", type.qualified, "'"]
  | .signalingNumber => "Cannot hash a signaling NaN value."

mutual

/-- The first part of a value that keeps it from being a key. -/
def keyFault? : Value → Option KeyFault
  | .tuple xs => anyKeyFault? xs
  | .anchor _ v => keyFault? v
  | .scalar (.decimal (.notANumber _ true _)) => some .signalingNumber
  | v => if v.isKey then none else some (.changeable v.refusedAs)

def anyKeyFault? : List Value → Option KeyFault
  | [] => none
  | x :: xs => (keyFault? x).or (anyKeyFault? xs)

end

/-- Adds an entry. A key that is there already keeps its place and gets the new value. -/
def insertEntry (entries : List (Value × Value)) (key value : Value) : List (Value × Value) :=
  match entries with
  | [] => [(key, value)]
  | (k, v) :: rest =>
    if sameKey k key then (k, value) :: rest else (k, v) :: insertEntry rest key value

/-- The mapping that results from entries in order. -/
def entriesOf (pairs : List (Value × Value)) : List (Value × Value) :=
  pairs.foldl (fun es p => insertEntry es p.1 p.2) []

def insertElement (elements : List Value) (x : Value) : List Value :=
  if elements.any (sameKey · x) then elements else elements ++ [x]

/-- Places an integer among ascending ones. -/
def insertAscending (i : Int) : List Int → List Int
  | [] => [i]
  | j :: js => if i ≤ j then i :: j :: js else j :: insertAscending i js

/-- The elements of a set: each once, integers in ascending order if there are no others. -/
def elementsOf (values : List Value) : List Value :=
  let elements := values.foldl insertElement []
  let integers := elements.filterMap fun v =>
    match v with
    | .int i => some i
    | _ => none
  if integers.length = elements.length then
    (integers.foldr insertAscending []).map .int
  else elements

end Value

end DocPath
