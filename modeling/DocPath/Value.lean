import DocPath.Number.Decimal
import DocPath.Time

/-! Values of documents: null, scalars, sequences, mappings and sets. A part of a document that is
reached in several ways carries an anchor with a label; inside such a part an alias with the label
stands for the part itself, so that documents without end are finite values. -/

namespace DocPath

/-- A scalar other than null. -/
inductive Scalar where
  | bool (b : Bool)
  | int (i : Int)
  | float (x : Binary64)
  | text (t : Text)
  | bytes (bs : List UInt8)
  | byteArray (bs : List UInt8)
  | date (d : Date)
  | dateTime (d : DateTime)
  | decimal (d : Decimal)
  deriving DecidableEq

/-- The name of a type and of the module that defines it, which is empty for the built-in types. -/
structure TypeName where
  home : Text
  name : Text
  deriving DecidableEq

/-- The name with the module in front, if there is one. -/
def TypeName.qualified (t : TypeName) : Text :=
  if t.home.isEmpty then t.name else t.home ++ "." ++ t.name

/-- A type of changeable sequences that are no lists. -/
structure SequenceType where
  type : TypeName
  /-- The name under which its values are refused as keys and where a text is wanted. -/
  refusedAs : TypeName
  /-- What is shown in front of the items. -/
  opening : Text
  /-- What is shown behind the items. -/
  closing : Text
  deriving DecidableEq

/-- Queues with two ends. -/
def SequenceType.queue : SequenceType := ⟨⟨"collections", "deque"⟩, ⟨"collections", "deque"⟩, "deque([", "])"⟩

/-- Lists in a class that others are derived from. -/
def SequenceType.userList : SequenceType := ⟨⟨"collections", "UserList"⟩, ⟨"", "UserList"⟩, "[", "]"⟩

/-- A value of a document. Mappings and sets keep the order of insertion; a mapping is marked if its
type promises that order. -/
inductive Value where
  | null
  | scalar (s : Scalar)
  | range (start stop step : Int)
  | list (items : List Value)
  | tuple (items : List Value)
  | sequence (type : SequenceType) (items : List Value)
  | map (ordered : Bool) (entries : List (Value × Value))
  | set (frozen : Bool) (elements : List Value)
  | anchor (label : Nat) (content : Value)
  | alias (label : Nat)

namespace Value

@[match_pattern] abbrev bool (b : Bool) : Value := .scalar (.bool b)
@[match_pattern] abbrev int (i : Int) : Value := .scalar (.int i)
@[match_pattern] abbrev float (x : Binary64) : Value := .scalar (.float x)
@[match_pattern] abbrev text (t : Text) : Value := .scalar (.text t)
@[match_pattern] abbrev bytes (bs : List UInt8) : Value := .scalar (.bytes bs)

instance : Inhabited Value := ⟨null⟩

mutual

/-- Equality of values can be decided. -/
def decideEq : (a b : Value) → Decidable (a = b)
  | .null, .null => isTrue rfl
  | .scalar s, .scalar t =>
    if h : s = t then isTrue (h ▸ rfl) else isFalse fun e => h (Value.scalar.inj e)
  | .range a b c, .range d e f =>
    if h : a = d ∧ b = e ∧ c = f then isTrue (by obtain ⟨rfl, rfl, rfl⟩ := h; rfl)
    else isFalse fun q => h (Value.range.inj q)
  | .list xs, .list ys =>
    match decideEqAll xs ys with
    | isTrue h => isTrue (h ▸ rfl)
    | isFalse h => isFalse fun e => h (Value.list.inj e)
  | .tuple xs, .tuple ys =>
    match decideEqAll xs ys with
    | isTrue h => isTrue (h ▸ rfl)
    | isFalse h => isFalse fun e => h (Value.tuple.inj e)
  | .sequence s xs, .sequence t ys =>
    match decEq s t, decideEqAll xs ys with
    | isTrue h, isTrue g => isTrue (by subst h; subst g; rfl)
    | isFalse h, _ => isFalse fun e => h (Value.sequence.inj e).1
    | _, isFalse g => isFalse fun e => g (Value.sequence.inj e).2
  | .map o xs, .map p ys =>
    match decEq o p, decideEqEntries xs ys with
    | isTrue h, isTrue g => isTrue (by subst h; subst g; rfl)
    | isFalse h, _ => isFalse fun e => h (Value.map.inj e).1
    | _, isFalse g => isFalse fun e => g (Value.map.inj e).2
  | .set o xs, .set p ys =>
    match decEq o p, decideEqAll xs ys with
    | isTrue h, isTrue g => isTrue (by subst h; subst g; rfl)
    | isFalse h, _ => isFalse fun e => h (Value.set.inj e).1
    | _, isFalse g => isFalse fun e => g (Value.set.inj e).2
  | .anchor l v, .anchor m w =>
    match decEq l m, decideEq v w with
    | isTrue h, isTrue g => isTrue (by subst h; subst g; rfl)
    | isFalse h, _ => isFalse fun e => h (Value.anchor.inj e).1
    | _, isFalse g => isFalse fun e => g (Value.anchor.inj e).2
  | .alias l, .alias m =>
    if h : l = m then isTrue (h ▸ rfl) else isFalse fun e => h (Value.alias.inj e)
  | .null, .scalar .. | .null, .range .. | .null, .list .. | .null, .tuple .. | .null, .sequence ..
  | .null, .map .. | .null, .set .. | .null, .anchor .. | .null, .alias .. => isFalse nofun
  | .scalar .., .null | .scalar .., .range .. | .scalar .., .list .. | .scalar .., .tuple ..
  | .scalar .., .sequence .. | .scalar .., .map .. | .scalar .., .set .. | .scalar .., .anchor ..
  | .scalar .., .alias .. => isFalse nofun
  | .range .., .null | .range .., .scalar .. | .range .., .list .. | .range .., .tuple ..
  | .range .., .sequence .. | .range .., .map .. | .range .., .set .. | .range .., .anchor ..
  | .range .., .alias .. => isFalse nofun
  | .list .., .null | .list .., .scalar .. | .list .., .range .. | .list .., .tuple ..
  | .list .., .sequence .. | .list .., .map .. | .list .., .set .. | .list .., .anchor ..
  | .list .., .alias .. => isFalse nofun
  | .tuple .., .null | .tuple .., .scalar .. | .tuple .., .range .. | .tuple .., .list ..
  | .tuple .., .sequence .. | .tuple .., .map .. | .tuple .., .set .. | .tuple .., .anchor ..
  | .tuple .., .alias .. => isFalse nofun
  | .sequence .., .null | .sequence .., .scalar .. | .sequence .., .range ..
  | .sequence .., .list .. | .sequence .., .tuple .. | .sequence .., .map ..
  | .sequence .., .set .. | .sequence .., .anchor .. | .sequence .., .alias .. => isFalse nofun
  | .map .., .null | .map .., .scalar .. | .map .., .range .. | .map .., .list ..
  | .map .., .tuple .. | .map .., .sequence .. | .map .., .set .. | .map .., .anchor ..
  | .map .., .alias .. => isFalse nofun
  | .set .., .null | .set .., .scalar .. | .set .., .range .. | .set .., .list ..
  | .set .., .tuple .. | .set .., .sequence .. | .set .., .map .. | .set .., .anchor ..
  | .set .., .alias .. => isFalse nofun
  | .anchor .., .null | .anchor .., .scalar .. | .anchor .., .range .. | .anchor .., .list ..
  | .anchor .., .tuple .. | .anchor .., .sequence .. | .anchor .., .map .. | .anchor .., .set ..
  | .anchor .., .alias .. => isFalse nofun
  | .alias .., .null | .alias .., .scalar .. | .alias .., .range .. | .alias .., .list ..
  | .alias .., .tuple .. | .alias .., .sequence .. | .alias .., .map .. | .alias .., .set ..
  | .alias .., .anchor .. => isFalse nofun

def decideEqAll : (xs ys : List Value) → Decidable (xs = ys)
  | [], [] => isTrue rfl
  | x :: xs, y :: ys =>
    match decideEq x y, decideEqAll xs ys with
    | isTrue h, isTrue g => isTrue (by subst h; subst g; rfl)
    | isFalse h, _ => isFalse fun e => h (List.cons.inj e).1
    | _, isFalse g => isFalse fun e => g (List.cons.inj e).2
  | [], _ :: _ | _ :: _, [] => isFalse nofun

def decideEqEntries : (xs ys : List (Value × Value)) → Decidable (xs = ys)
  | [], [] => isTrue rfl
  | (k, x) :: xs, (l, y) :: ys =>
    match decideEq k l, decideEq x y, decideEqEntries xs ys with
    | isTrue h, isTrue i, isTrue g => isTrue (by subst h; subst i; subst g; rfl)
    | isFalse h, _, _ => isFalse fun e => h (Prod.mk.inj (List.cons.inj e).1).1
    | _, isFalse i, _ => isFalse fun e => i (Prod.mk.inj (List.cons.inj e).1).2
    | _, _, isFalse g => isFalse fun e => g (List.cons.inj e).2
  | [], _ :: _ | _ :: _, [] => isFalse nofun

end

instance : DecidableEq Value := decideEq

/-- The text of a textual value. -/
def text? : Value → Option Text
  | .text t => some t
  | _ => none

end Value

def Scalar.type : Scalar → TypeName
  | .bool _ => ⟨"", "bool"⟩
  | .int _ => ⟨"", "int"⟩
  | .float _ => ⟨"", "float"⟩
  | .text _ => ⟨"", "str"⟩
  | .bytes _ => ⟨"", "bytes"⟩
  | .byteArray _ => ⟨"", "bytearray"⟩
  | .date _ => ⟨"datetime", "date"⟩
  | .dateTime _ => ⟨"datetime", "datetime"⟩
  | .decimal _ => ⟨"decimal", "Decimal"⟩

/-- The type of a value. A lone alias has none of its own and counts as a list. -/
def Value.type : Value → TypeName
  | .null => ⟨"", "NoneType"⟩
  | .scalar s => s.type
  | .range .. => ⟨"", "range"⟩
  | .list _ => ⟨"", "list"⟩
  | .tuple _ => ⟨"", "tuple"⟩
  | .sequence t _ => t.type
  | .map false _ => ⟨"", "dict"⟩
  | .map true _ => ⟨"collections", "OrderedDict"⟩
  | .set false _ => ⟨"", "set"⟩
  | .set true _ => ⟨"", "frozenset"⟩
  | .anchor _ v => v.type
  | .alias _ => ⟨"", "list"⟩

/-- The type of a value as it is named where the value is refused as a key or where a text is wanted. -/
def Value.refusedAs : Value → TypeName
  | .sequence t _ => t.refusedAs
  | .anchor _ v => v.refusedAs
  | v => v.type

end DocPath
