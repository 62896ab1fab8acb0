import DocPath.Value.Link

/-! The normal form in which documents are written: tuples are lists and every mapping is a plain one. Keys,
the elements of sets and sequences of other types are left alone. -/

namespace DocPath.Value

mutual

def normalize : Value → Value
  | .list xs => .list (normalizeAll xs)
  | .tuple xs => .list (normalizeAll xs)
  | .map _ es => .map false (normalizeEntries es)
  | .anchor l v => .anchor l (normalize v)
  | v => v

def normalizeAll : List Value → List Value
  | [] => []
  | v :: vs => normalize v :: normalizeAll vs

def normalizeEntries : List (Value × Value) → List (Value × Value)
  | [] => []
  | (k, v) :: es => (k, normalize v) :: normalizeEntries es

end

/-- The normal form of a value; none if some part contains itself. -/
def normal? (v : Value) : Option Value := if v.isCyclic then none else some v.normalize

end DocPath.Value
