import DocPath.Value.Link

/-! The four kinds of nodes that a path can meet, and values as truth values. -/

namespace DocPath

/-- The items of a sequence, by place. -/
inductive Items where
  | listed (items : List Value)
  | progression (start step : Int) (size : Nat)

namespace Items

def size : Items → Nat
  | listed items => items.length
  | progression _ _ n => n

/-- The item at a place counted from zero. -/
def get? (i : Nat) : Items → Option Value
  | listed items => items[i]?
  | progression start step n => if i < n then some (.int (start + step * i)) else none

end Items

/-- What a value is to a path. -/
inductive Node where
  | null
  | mapping (entries : List (Value × Value))
  | sequence (items : Items)
  | scalar (type : TypeName)

/-- How many steps lead from `start` to before `stop`. -/
def stepCount (start stop step : Int) : Nat :=
  if 0 < step then ((stop - start + step - 1).fdiv step).toNat
  else if step < 0 then ((start - stop - step - 1).fdiv (-step)).toNat
  else 0

/-- Texts, byte strings and sets are scalars. -/
def Value.node (v : Value) : Node :=
  match v.opened with
  | .null => .null
  | .map _ es => .mapping es
  | .list xs | .tuple xs | .sequence _ xs => .sequence (.listed xs)
  | .range a b c => .sequence (.progression a c (stepCount a b c))
  | w => .scalar w.type

namespace Node

/-- The name of the kind. -/
def kind : Node → Text
  | null => "null"
  | mapping _ => "mapping"
  | sequence _ => "sequence"
  | scalar _ => "scalar"

end Node

/-- Whether a value is a mapping. -/
def Value.isMapping (v : Value) : Bool :=
  match v.node with
  | .mapping _ => true
  | _ => false

def Scalar.isTrue : Scalar → Bool
  | .bool b => b
  | .int i => i != 0
  | .float x => !x.isZero
  | .text t => !t.isEmpty
  | .bytes bs | .byteArray bs => !bs.isEmpty
  | .date _ | .dateTime _ => true
  | .decimal (.finite _ c _) => c != 0
  | .decimal _ => true

/-- Nothing, zero and what is empty are false. -/
def Value.isTrue : Value → Bool
  | .null => false
  | .scalar s => s.isTrue
  | .range a b c => stepCount a b c != 0
  | .list xs | .tuple xs | .sequence _ xs | .set _ xs => !xs.isEmpty
  | .map _ es => !es.isEmpty
  | .anchor _ v => v.isTrue
  | .alias _ => true

end DocPath
