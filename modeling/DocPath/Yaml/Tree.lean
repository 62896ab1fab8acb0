import DocPath.Value.Link
import DocPath.Value.Render
import DocPath.Yaml.Base64
import DocPath.Yaml.Tag

/-! The nodes that are written for a value. -/

namespace DocPath.Yaml

inductive Tree where
  | scalar (tag text : Text)
  /-- A scalar that is written literally, line by line. -/
  | literal (tag : Text) (lines : List Text)
  | sequence (items : List Tree)
  | mapping (tag : Text) (entries : List (Tree × Tree))
  /-- A part that may occur again under its label. -/
  | shared (label : Nat) (part : Tree)

/-- Why a value has no YAML form. -/
inductive Unwritable where
  | value (v : Value)
  | number (fault : NumeralFault)
  deriving DecidableEq

def Unwritable.message : Unwritable → Text
  | .value v =>
    match v.shown with
    | .ok t => .concat ["('cannot represent an object', ", t, ")"]
    | .error fault => fault.message
  | .number fault => fault.message

namespace Tree

/-- The layout of floating-point numbers: `.nan`, `.inf`, `1.0e+16`. -/
def floatLayout : Binary64.Layout := ⟨".nan", ".inf", ".0"⟩

def ofScalar : Scalar → Except Unwritable Tree
  | .bool b => .ok (.scalar Tag.boolean (if b then "true" else "false"))
  | .int i =>
    match Numeral.writeInteger i with
    | .ok t => .ok (.scalar Tag.integer t)
    | .error fault => .error (.number fault)
  | .float x => .ok (.scalar Tag.float (x.layout floatLayout))
  | .text t => .ok (.scalar Tag.string t)
  | .bytes bs => .ok (.literal Tag.binary (Base64.lines bs.length bs))
  | .byteArray bs => .error (.value (.scalar (.byteArray bs)))
  | .date d => .ok (.scalar Tag.timestamp d.text)
  | .dateTime d => .ok (.scalar Tag.timestamp (d.text " "))
  | .decimal d => .error (.value (.scalar (.decimal d)))

mutual

/-- The tree of a value without cycles. -/
def ofValue : Value → Except Unwritable Tree
  | .null => .ok (.scalar Tag.null "null")
  | .scalar s => ofScalar s
  | .list xs => do pure (.sequence (← ofItems xs))
  | .tuple xs => do pure (.sequence (← ofItems xs))
  | .map _ es => do pure (.mapping Tag.mapping (← ofEntries es))
  | .set false xs => do
    pure (.mapping Tag.set ((← ofItems xs).map fun t => (t, .scalar Tag.null "null")))
  | .anchor l v => do
    let part ← ofValue v
    pure (if v.hasIdentity then .shared l part else part)
  | v => .error (.value v)

def ofItems : List Value → Except Unwritable (List Tree)
  | [] => .ok []
  | x :: xs => do
    let t ← ofValue x
    pure (t :: (← ofItems xs))

def ofEntries : List (Value × Value) → Except Unwritable (List (Tree × Tree))
  | [] => .ok []
  | (k, v) :: es => do
    let key ← ofValue k
    let value ← ofValue v
    pure ((key, value) :: (← ofEntries es))

end

mutual

/-- The labels of shared parts in order. What is in a part counts at its first place only; `seen` are the
labels met before. -/
def labels (seen : List Nat) : Tree → List Nat
  | .sequence ts => labelsAll seen ts
  | .mapping _ es => labelsEntries seen es
  | .shared l t => if seen.contains l then [l] else l :: labels (l :: seen) t
  | _ => []

def labelsAll (seen : List Nat) : List Tree → List Nat
  | [] => []
  | t :: ts =>
    let first := labels seen t
    first ++ labelsAll (first ++ seen) ts

def labelsEntries (seen : List Nat) : List (Tree × Tree) → List Nat
  | [] => []
  | (k, v) :: es =>
    let first := labels seen k
    let second := labels (first ++ seen) v
    first ++ second ++ labelsEntries (second ++ first ++ seen) es

end

/-- The labels that come up a second time, in the order in which they do. -/
def secondTime (seen numbered : List Nat) : List Nat → List Nat
  | [] => []
  | l :: ls =>
    if seen.contains l && !numbered.contains l then l :: secondTime seen (l :: numbered) ls
    else secondTime (l :: seen) numbered ls

/-- The labels of the parts that occur more than once, in the order in which they get their anchors. -/
def anchored (t : Tree) : List Nat := secondTime [] [] (labels [] t)

end Tree

end DocPath.Yaml
