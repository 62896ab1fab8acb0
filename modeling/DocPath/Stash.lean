import DocPath.Value.Key

/-! Stashes: values kept under names between the steps of a scenario, in the order in which the names
came up first. -/

namespace DocPath

/-- A table of values by name. One that is read-only refuses every change. -/
structure Stash where
  entries : Table Value := []
  readOnly : Bool := false
  deriving DecidableEq

namespace Stash

inductive Fault where
  | emptyKey
  | readOnly
  | absent (key : Text)
  deriving DecidableEq

def Fault.message : Fault → Text
  | .emptyKey => "stash key must be non-empty"
  | .readOnly => "the empty stash is read-only"
  | .absent key => .concat ["stash does not hold [", key, "]"]

/-- The stash that is used where none is given. -/
def empty : Stash := ⟨[], true⟩

def find? (s : Stash) (key : Text) : Option Value := s.entries.lookup key

def get (s : Stash) (key : Text) : Except Fault Value :=
  match s.find? key with
  | some v => .ok v
  | none => .error (.absent key)

def holds (s : Stash) (key : Text) : Bool := (s.find? key).isSome

def insert (s : Stash) (key : Text) (value : Value) : Except Fault Stash :=
  if s.readOnly then .error .readOnly
  else if key.isEmpty then .error .emptyKey
  else .ok { s with entries := Table.put key value s.entries }

def clear (s : Stash) : Except Fault Stash :=
  if s.readOnly then .error .readOnly else .ok { s with entries := [] }

/-- A stash with the given entries; of two with one key the later gives the value. -/
def ofList (entries : List (Text × Value)) : Stash := ⟨Table.ofEntries entries, false⟩

def keys (s : Stash) : List Text := s.entries.map (·.1)

def size (s : Stash) : Nat := s.entries.length

/-- The entries as a mapping. -/
def toValue (s : Stash) : Value := .map false (s.entries.map fun e => (.text e.1, e.2))

/-- Whether a value of any type is one of the keys. -/
def member (s : Stash) (key : Value) : Except Value.KeyFault Bool :=
  match key.keyFault? with
  | some fault => .error fault
  | none => .ok (s.entries.any fun e => (Value.text e.1).sameKey key)

end Stash

end DocPath
