import DocPath.Value.Key
import DocPath.Value.Link
import DocPath.Value.Render
import DocPath.Yaml.Node
import DocPath.Yaml.Scalar

/-! The values that the nodes of a document mean. Sequences and sets may contain themselves, so they are
filled only after the mapping around them is complete; all collections are known by their numbers. Merging
a mapping into another changes its entries for good: the merge keys are replaced by what they merge. -/

namespace DocPath.Yaml

/-- How the keys of mappings are read. -/
inductive KeyRule where
  /-- As names, of which no two in a mapping are equal. -/
  | names
  /-- As values that can be keys; the last of two equal ones counts. -/
  | values
  deriving DecidableEq

/-- What is known while the values of nodes are being made. -/
structure Making where
  /-- The entries of the mappings that have been merged or have had others merged into them. -/
  entries : List (Nat × List (Node × Node))
  /-- The numbers of `=` keys that count as texts. -/
  texts : List Nat
  /-- The values that are made. -/
  done : List (Nat × Value)
  /-- The nodes whose values are being made. -/
  active : List Nat
  /-- The contents of sequences, mappings and sets so far. -/
  contents : List (Nat × Value)
  /-- The nodes that are still to be filled, in order. -/
  pending : List Node
  /-- The number of nodes; no node has this number or a larger one. -/
  size : Nat

abbrev Make := StateT Making (Except Fault)

/-- A document with a rule for keys. -/
structure Source where
  rule : KeyRule
  anchored : List (Nat × Node)

namespace Node

/-- The number, tag and start of a node; aliases are followed before. -/
def head : Node → Head
  | scalar h _ => h
  | sequence h _ => h
  | mapping h _ => h
  | .alias id => ⟨id, [], default⟩

def kind : Node → NodeKind
  | sequence .. => .sequence
  | mapping .. => .mapping
  | _ => .scalar

end Node

namespace Make

/-- The node that an alias stands for; any other node itself. -/
def follow (src : Source) (n : Node) : Node :=
  match n with
  | .alias id => (src.anchored.lookup id).getD n
  | n => n

def failAt {α : Type} (m : Mark) (problem : Problem) : Make α :=
  throw (.marked .constructing none problem m)

def failWithin {α : Type} (context : Context) (start m : Mark) (problem : Problem) : Make α :=
  throw (.marked .constructing (some (context, some start)) problem m)

/-- The tag of a node as it is now. -/
def tagOf (n : Node) : Make Text := do
  let h := n.head
  if h.tag = Tag.value ∧ (← get).texts.contains h.id then pure Tag.string else pure h.tag

/-- The entries of a mapping as they are now. -/
def entriesOf (h : Head) (own : List (Node × Node)) : Make (List (Node × Node)) := do
  pure (((← get).entries.lookup h.id).getD own)

def setEntries (h : Head) (es : List (Node × Node)) : Make Unit :=
  modify fun s => { s with entries := (h.id, es) :: s.entries }

/-- Splits entries at the first merge key. -/
def splitAtMerge (src : Source) : List (Node × Node) →
    Option (List (Node × Node) × Node × List (Node × Node))
  | [] => none
  | (k, v) :: rest =>
    if (follow src k).head.tag = Tag.merge then some ([], v, rest)
    else (splitAtMerge src rest).map fun p => ((k, v) :: p.1, p.2)

/-- From now on `=` keys among the entries count as texts. -/
def noteTexts (src : Source) (es : List (Node × Node)) : Make Unit :=
  modify fun s =>
    let ids := es.filterMap fun e =>
      let h := (follow src e.1).head
      if h.tag = Tag.value then some h.id else none
    { s with texts := ids ++ s.texts }

/-- The entries of several mappings, those of the last listed first; `flat` gives the entries of one. -/
def mergeAll (src : Source) (flat : Head → List (Node × Node) → Make (List (Node × Node)))
    (h : Head) : List Node → Make (List (Node × Node))
  | [] => pure []
  | item :: items => do
    match follow src item with
    | .mapping g own =>
      let es ← flat g own
      let more ← mergeAll src flat h items
      pure (more ++ es)
    | n => failWithin .mapping h.start n.head.start (.mergeItem n.kind)

/-- The entries that a merge key with the given value brings in. Of several mappings the first listed
comes last, so that its entries win. -/
def merge (src : Source) (flat : Head → List (Node × Node) → Make (List (Node × Node)))
    (h : Head) (source : Node) : Make (List (Node × Node)) :=
  match follow src source with
  | .mapping g own => flat g own
  | .sequence _ items => mergeAll src flat h items
  | n => failWithin .mapping h.start n.head.start (.mergeValue n.kind)

/-- Replaces the merge keys of a mapping by what they merge, which comes in front of its other entries.
`merged` was met before, and the first `passed` entries have been looked at. The result is the entries
as they are then. Fuel is spent on merge keys only. -/
def flattenFrom (src : Source) :
    Nat → Head → List (Node × Node) → List (Node × Node) → Nat → Make (List (Node × Node))
  | 0, _, _, _, _ => throw .endless
  | fuel + 1, h, own, merged, passed => do
    let es ← entriesOf h own
    match splitAtMerge src (es.drop passed) with
    | none =>
      noteTexts src es
      if merged.isEmpty then pure es
      else
        setEntries h (merged ++ es)
        pure (merged ++ es)
    | some (before, source, after) =>
      setEntries h (es.take passed ++ before ++ after)
      let more ← merge src (fun g own => flattenFrom src fuel g own [] 0) h source
      flattenFrom src fuel h own (merged ++ more) (passed + before.length)

/-- The entries of a mapping without merge keys. -/
def flatten (src : Source) (fuel : Nat) (h : Head) (own : List (Node × Node)) :
    Make (List (Node × Node)) :=
  flattenFrom src fuel h own [] 0

/-- The text of a scalar; of a mapping the text at its `=` key. -/
def textOf (src : Source) : Nat → Node → Make Text
  | 0, _ => throw .endless
  | fuel + 1, n => do
    let n := follow src n
    match n with
    | .scalar _ t => pure t
    | .mapping h own =>
      let es ← entriesOf h own
      let texts := (← get).texts
      let isValue (e : Node × Node) : Bool :=
        let g := (follow src e.1).head
        g.tag == Tag.value && !texts.contains g.id
      match es.find? isValue with
      | some e => textOf src fuel e.2
      | none => failAt h.start (.wrongKind .scalar .mapping)
    | n => failAt n.head.start (.wrongKind .scalar n.kind)

/-- The scalar that a text with a tag of the core schema means. -/
def scalarOf (n : Node) (tag t : Text) : Except Fault Value :=
  if tag = Tag.null then .ok .null
  else if tag = Tag.boolean then Scalar.boolean t
  else if tag = Tag.integer then Scalar.integer t
  else if tag = Tag.float then Scalar.float t
  else if tag = Tag.binary then Scalar.bytes n.head.start t
  else if tag = Tag.timestamp then
    match n with
    | .mapping .. => .error .timeWithoutText
    | _ => (Scalar.timestamp t).map (.anchor n.head.id)
  else .ok (.text t)

def isScalarTag (tag : Text) : Bool :=
  [Tag.null, Tag.boolean, Tag.integer, Tag.float, Tag.binary, Tag.timestamp, Tag.string].contains tag

/-- Whether nodes with a tag are filled later than they are made. -/
def isFilledTag (rule : KeyRule) (tag : Text) : Bool :=
  [Tag.sequence, Tag.set, Tag.orderedMap, Tag.pairs].contains tag ||
    (rule == .values && tag == Tag.mapping)

/-- Sets the content of a sequence, mapping or set. -/
def setContent (id : Nat) (v : Value) : Make Unit :=
  modify fun s => { s with contents := (id, v) :: s.contents }

/-- A value with everything in place that is known so far. -/
def current (v : Value) : Make Value := do
  let s ← get
  -- of the contents given for one number the latest counts
  pure (v.unfold s.contents)

/-- The name that a key stands for. -/
def nameOf (v : Value) : Make Text := do
  match (← current v).asName with
  | .ok name => pure name
  | .error fault => throw (.number fault)

/-- Whether a value can be a key, given what the numbers in it stand for. -/
def canBeKey (v : Value) : Make Bool := do
  match v with
  | .alias _ => pure false
  | v => pure v.isKey

/-- What a node is filled with before anything is known of its content. -/
def emptyContent (tag : Text) : Value :=
  if tag = Tag.set then .set false [] else if tag = Tag.mapping then .map false [] else .list []

/-- The context of faults in a list of pairs. -/
def pairsContext (tag : Text) : Context := if tag = Tag.orderedMap then .orderedMap else .pairs

/-- Refuses entries with a name that was met before; `key` gives the value of a key. -/
def checkNames (src : Source) (key : Node → Make Value) (seen : List Text) :
    List (Node × Node) → Make Unit
  | [] => pure ()
  | (k, _) :: es => do
    if (← tagOf (follow src k)) = Tag.merge then checkNames src key seen es
    else
      let name ← nameOf (← key k)
      if seen.contains name then throw (.duplicateKey name (follow src k).head.start)
      else checkNames src key (name :: seen) es

/-- Entries whose keys are names. -/
def namedEntries (key value : Node → Make Value) : List (Node × Node) → Make (List (Value × Value))
  | [] => pure []
  | (k, v) :: es => do
    let name ← nameOf (← key k)
    let x ← value v
    pure ((.text name, x) :: (← namedEntries key value es))

/-- A mapping whose keys are names. Names that are written twice are refused; a name that is merged in
is overridden by a written one. -/
def namedMapping (src : Source) (fuel : Nat) (key value : Node → Make Value) :
    Node → Make Value
  | .mapping h own => do
    checkNames src key [] (← entriesOf h own)
    let es ← namedEntries key value (← flatten src fuel h own)
    pure (.map false (Value.entriesOf es))
  | .sequence _ [] => pure (.map false [])
  | .sequence _ (item :: _) => throw (.itemAsEntry (follow src item).kind)
  | .scalar _ [] => pure (.map false [])
  | _ => throw .textAsEntries

/-- Entries whose keys are values. -/
def keyedEntries (src : Source) (value : Node → Make Value) (h : Head) :
    List (Node × Node) → Make (List (Value × Value))
  | [] => pure []
  | (k, v) :: es => do
    let key ← value k
    if !(← canBeKey key) then
      failWithin .mapping h.start (follow src k).head.start .unhashableKey
    else
      let x ← value v
      pure ((key, x) :: (← keyedEntries src value h es))

/-- The number of the part at a place of a node, for parts that are no nodes themselves. -/
def partId (size id place : Nat) : Nat := size * (place + 1) + id

/-- Gives the part at a place of a node a number of its own. -/
def newPart (id place : Nat) (content : Value) : Make Value := do
  let part := partId (← get).size id place
  setContent part content
  pure (.alias part)

/-- Adds pairs to those that a list has already. Each comes from a mapping with one entry. -/
def fillPairs (src : Source) (value : Node → Make Value) (context : Context) (h : Head)
    (before : List Value) : List Node → Make Unit
  | [] => pure ()
  | item :: items => do
    match follow src item with
    | .mapping g own =>
      match ← entriesOf g own with
      | [(k, v)] =>
        let key ← value k
        let x ← value v
        let pairs := before ++ [← newPart h.id before.length (.tuple [key, x])]
        setContent h.id (.list pairs)
        fillPairs src value context h pairs items
      | es => failWithin context h.start g.start (.itemCount es.length)
    | n => failWithin context h.start n.head.start (.noSingleMapping n.kind)

/-- Fills a sequence, a set or a list of pairs. -/
def fill (src : Source) (fuel : Nat) (value : Node → Make Value) (n : Node) : Make Unit := do
  let h := n.head
  let tag ← tagOf n
  if tag = Tag.sequence then
    match n with
    | .sequence _ items => setContent h.id (.list (← items.mapM value))
    | n => failAt h.start (.wrongKind .sequence n.kind)
  else if tag = Tag.set ∨ tag = Tag.mapping then
    match n with
    | .mapping _ own =>
      let es ← keyedEntries src value h (← flatten src fuel h own)
      if tag = Tag.set then
        setContent h.id (.set false (Value.elementsOf (es.map (·.1)).eraseDups))
      else setContent h.id (.map false (Value.entriesOf es))
    | n => failAt h.start (.wrongKind .mapping n.kind)
  else
    match n with
    | .sequence _ items => fillPairs src value (pairsContext tag) h [] items
    | n => failWithin (pairsContext tag) h.start h.start (.noSequence n.kind)

mutual

/-- The value of a node. With `deep`, everything in it is filled at once. -/
def value (src : Source) : Nat → Bool → Node → Make Value
  | 0, _, _ => throw .endless
  | fuel + 1, deep, n => do
    let n := follow src n
    let h := n.head
    match (← get).done.lookup h.id with
    | some v => pure v
    | none =>
      if (← get).active.contains h.id then failAt h.start .recursiveNode
      else
        modify fun s => { s with active := h.id :: s.active }
        let v ← make src fuel deep n (← tagOf n)
        modify fun s =>
          { s with done := (h.id, v) :: s.done, active := s.active.filter (· != h.id) }
        pure v

/-- Makes the value of a node with a tag. -/
def make (src : Source) : Nat → Bool → Node → Text → Make Value
  | 0, _, _, _ => throw .endless
  | fuel + 1, deep, n, tag => do
    let h := n.head
    if isScalarTag tag then
      match scalarOf n tag (← textOf src fuel n) with
      | .ok v => pure v
      | .error fault => throw fault
    else if isFilledTag src.rule tag then
      setContent h.id (emptyContent tag)
      if deep then fill src fuel (value src fuel true) n
      else modify fun s => { s with pending := s.pending ++ [n] }
      pure (.alias h.id)
    else if tag = Tag.mapping then
      let content ← namedMapping src fuel (value src fuel true) (value src fuel deep) n
      setContent h.id content
      pure (.alias h.id)
    else failAt h.start (.unknownTag tag)

end

/-- Fills what is still to be filled, in order. -/
def fillPending (src : Source) (fuel : Nat) : Nat → Make Unit
  | 0 => pure ()
  | left + 1 => do
    match (← get).pending with
    | [] => pure ()
    | n :: rest =>
      modify fun s => { s with pending := rest }
      fill src fuel (value src fuel false) n
      fillPending src fuel left

end Make

/-- More than the depth of any chain of nodes and entries in a document. -/
def Document.depth (d : Document) : Nat := 8 * d.size + 16

/-- The value of a document; null if it has no root. -/
def Document.value (rule : KeyRule) (d : Document) : Except Fault Value :=
  match d.root with
  | none => .ok .null
  | some root =>
    let src : Source := ⟨rule, d.anchored⟩
    let run : Make Value := do
      let v ← Make.value src d.depth false root
      Make.fillPending src d.depth (d.size + 1)
      Make.current v
    (run ⟨[], [], [], [], [], [], d.size⟩).map fun p => p.1.pruned

end DocPath.Yaml
