import DocPath.Yaml.Tag
import DocPath.Yaml.Tokens

/-! The nodes of a YAML document, composed from its tokens. Every node has a number; an alias is the
number of the node that it stands for. -/

namespace DocPath.Yaml

/-- What every node has: its number, its tag and where it begins. -/
structure Head where
  id : Nat
  tag : Text
  start : Mark

inductive Node where
  | scalar (head : Head) (text : Text)
  | sequence (head : Head) (items : List Node)
  | mapping (head : Head) (entries : List (Node × Node))
  | alias (id : Nat)

instance : Inhabited Node := ⟨.alias 0⟩

/-- A document: its root, if it has one, the nodes with anchors by their numbers, and how many nodes
there are. -/
structure Document where
  root : Option Node
  anchored : List (Nat × Node)
  size : Nat

/-- Tokens that are being composed. -/
structure Composition where
  tokens : List Token
  fault : Option Fault
  /-- What the handles of tags stand for. -/
  handles : List (Text × Text)
  /-- How many nodes there are so far. -/
  count : Nat
  /-- The number of the node with an anchor, and where it begins. -/
  anchors : List (Text × Nat × Mark)
  anchored : List (Nat × Node)

abbrev Compose := StateT Composition (Except Fault)

namespace Compose

/-- The next token. -/
def peek : Compose Token := fun s =>
  match s.tokens with
  | t :: _ => .ok (t, s)
  | [] => .error (s.fault.getD .endless)

/-- Takes the next token. -/
def take : Compose Token := fun s =>
  match s.tokens with
  | t :: rest => .ok (t, { s with tokens := rest })
  | [] => .error (s.fault.getD .endless)

def failParsing {α : Type} (context : Option (Context × Option Mark)) (problem : Problem)
    (m : Mark) : Compose α :=
  throw (.marked .parsing context problem m)

/-- A number for a new node. Aliases are counted, too. -/
def newId : Compose Nat := fun s => .ok (s.count, { s with count := s.count + 1 })

/-- The handles that need no directive. -/
def defaultHandles : List (Text × Text) := [("!", "!"), ("!!", "tag:yaml.org,2002:")]

/-- The version and the handles of the directives here, each given once. -/
def directives : Nat → Bool → List (Text × Text) → Compose (List (Text × Text))
  | 0, _, handles => pure handles
  | fuel + 1, versioned, handles => do
    let t ← peek
    match t.kind with
    | .directive d =>
      let _ ← take
      match d with
      | .version major _ =>
        if versioned then failParsing none .repeatedVersion t.start
        else if major ≠ 1 then failParsing none .otherVersion t.start
        else directives fuel true handles
      | .handle name address =>
        if (handles.lookup name).isSome then failParsing none (.repeatedHandle name) t.start
        else directives fuel versioned (handles ++ [(name, address)])
      | .other _ => directives fuel versioned handles
    | _ => pure handles

/-- What may stand in front of a node: its anchor and its tag, and where the first of them begins. -/
structure Properties where
  anchor : Option Text
  tag : Option Text
  start : Option Mark

/-- The full tag of a handle and a suffix. -/
def fullTag (start : Mark) (tagStart : Mark) : Option Text → Text → Compose Text
  | none, suffix => pure suffix
  | some handle, suffix => do
    match (← get).handles.lookup handle with
    | some address => pure (address ++ suffix)
    | none => failParsing (some (.node, some start)) (.unknownHandle handle) tagStart

/-- The properties in front of a node, in either order. -/
def properties : Compose Properties := do
  let first ← peek
  match first.kind with
  | .anchor name =>
    let _ ← take
    let second ← peek
    match second.kind with
    | .tag handle suffix =>
      let _ ← take
      pure ⟨some name, some (← fullTag first.start second.start handle suffix), some first.start⟩
    | _ => pure ⟨some name, none, some first.start⟩
  | .tag handle suffix =>
    let _ ← take
    let second ← peek
    match second.kind with
    | .anchor name =>
      let _ ← take
      pure ⟨some name, some (← fullTag first.start first.start handle suffix), some first.start⟩
    | _ => pure ⟨none, some (← fullTag first.start first.start handle suffix), some first.start⟩
  | _ => pure ⟨none, none, none⟩

/-- Numbers a new node and notes its anchor, which must be new. -/
def declare (anchor : Option Text) (start : Mark) : Compose Nat := do
  let id ← newId
  match anchor with
  | none => pure id
  | some name =>
    match (← get).anchors.lookup name with
    | some (_, earlier) =>
      throw (.marked .composing (some (.firstAnchor name, some earlier)) .secondAnchor start)
    | none =>
      modify fun s => { s with anchors := (name, id, start) :: s.anchors }
      pure id

/-- Keeps a node that has an anchor. -/
def keep (anchor : Option Text) (id : Nat) (n : Node) : Compose Node := do
  if anchor.isSome then modify fun s => { s with anchored := (id, n) :: s.anchored }
  pure n

/-- The tag of a collection: its own, or that of its kind. -/
def collectionTag (own : Option Text) (kindTag : Text) : Text :=
  match own with
  | none => kindTag
  | some tag => if tag = Tag.nonSpecific then kindTag else tag

/-- The tag of a scalar: its own, or what its text tells if it is plain, or that of texts. -/
def scalarTag (own : Option Text) (plain : Bool) (text : Text) : Text :=
  match own with
  | none => if plain then Plain.tag text else Tag.string
  | some tag => if tag = Tag.nonSpecific then Plain.tag text else tag

/-- A scalar without text. -/
def emptyScalar (m : Mark) : Compose Node := do
  pure (.scalar ⟨← newId, Tag.null, m⟩ [])

/-- Where a node stands, which decides in which forms it may be written. -/
inductive Form where
  | flow
  | block
  /-- In a block mapping, where sequences need no indentation of their own. -/
  | blockValue
  deriving DecidableEq

def Form.context : Form → Context
  | .flow => .flowNode
  | .block => .blockNode
  | .blockValue => .blockNode

/-- Whether a node is missing where one of these tokens is next. -/
def endsEntry : TokenKind → Bool
  | .key | .value | .blockEnd => true
  | _ => false

mutual

/-- The node here. The fuel bounds the tokens that are read. -/
def node : Nat → Form → Compose Node
  | 0, _ => throw .endless
  | fuel + 1, form => do
    let first ← peek
    match first.kind with
    | .alias name =>
      let _ ← take
      let _ ← newId
      match (← get).anchors.lookup name with
      | some (id, _) => pure (.alias id)
      | none => throw (.marked .composing none (.unknownAlias name) first.start)
    | _ =>
      let p ← properties
      let t ← peek
      let start := p.start.getD t.start
      let collection (kindTag : Text) : Compose Head := do
        pure ⟨← declare p.anchor start, collectionTag p.tag kindTag, start⟩
      match t.kind, form with
      | .blockEntry, .blockValue =>
        let head ← collection Tag.sequence
        keep p.anchor head.id (.sequence head (← looseItems fuel))
      | .scalar text plain, _ =>
        let _ ← take
        let id ← declare p.anchor start
        keep p.anchor id (.scalar ⟨id, scalarTag p.tag plain text, start⟩ text)
      | .flowSequenceStart, _ =>
        let head ← collection Tag.sequence
        let _ ← take
        keep p.anchor head.id (.sequence head (← flowItems fuel t.start true))
      | .flowMappingStart, _ =>
        let head ← collection Tag.mapping
        let _ ← take
        keep p.anchor head.id (.mapping head (← flowEntries fuel t.start true))
      | .blockSequenceStart, .block | .blockSequenceStart, .blockValue =>
        let head ← collection Tag.sequence
        let _ ← take
        keep p.anchor head.id (.sequence head (← blockItems fuel t.start))
      | .blockMappingStart, .block | .blockMappingStart, .blockValue =>
        let head ← collection Tag.mapping
        let _ ← take
        keep p.anchor head.id (.mapping head (← blockEntries fuel t.start))
      | kind, _ =>
        if p.anchor.isSome || p.tag.isSome then
          let id ← declare p.anchor start
          keep p.anchor id (.scalar ⟨id, scalarTag p.tag true [], start⟩ [])
        else failParsing (some (form.context, some start)) (.noContent kind.name) t.start

/-- The items of a block sequence and its end. -/
def blockItems : Nat → Mark → Compose (List Node)
  | 0, _ => throw .endless
  | fuel + 1, opening => do
    let t ← peek
    match t.kind with
    | .blockEntry =>
      let _ ← take
      let item ← match (← peek).kind with
        | .blockEntry | .blockEnd => emptyScalar t.stop
        | _ => node fuel .block
      pure (item :: (← blockItems fuel opening))
    | .blockEnd =>
      let _ ← take
      pure []
    | kind =>
      failParsing (some (.blockCollection, some opening)) (.noBlockEnd kind.name) t.start

/-- The items of a sequence without indentation of its own. -/
def looseItems : Nat → Compose (List Node)
  | 0 => throw .endless
  | fuel + 1 => do
    let t ← peek
    match t.kind with
    | .blockEntry =>
      let _ ← take
      let next ← peek
      let item ← if next.kind = .blockEntry ∨ endsEntry next.kind then emptyScalar t.stop
        else node fuel .block
      pure (item :: (← looseItems fuel))
    | _ => pure []

/-- A key or value of a block mapping behind its sign, which stops at the given place. -/
def blockPart : Nat → Mark → Compose Node
  | 0, _ => throw .endless
  | fuel + 1, stop => do
    if endsEntry (← peek).kind then emptyScalar stop else node fuel .blockValue

/-- The entries of a block mapping and its end. -/
def blockEntries : Nat → Mark → Compose (List (Node × Node))
  | 0, _ => throw .endless
  | fuel + 1, opening => do
    let t ← peek
    match t.kind with
    | .key =>
      let _ ← take
      let key ← blockPart fuel t.stop
      let colon ← peek
      let value ← match colon.kind with
        | .value => do
          let _ ← take
          blockPart fuel colon.stop
        | _ => emptyScalar colon.start
      pure ((key, value) :: (← blockEntries fuel opening))
    | .blockEnd =>
      let _ ← take
      pure []
    | kind => failParsing (some (.blockMapping, some opening)) (.noBlockEnd kind.name) t.start

/-- A key or value of a flow mapping behind its sign. -/
def flowPart : Nat → Mark → List TokenKind → Compose Node
  | 0, _, _ => throw .endless
  | fuel + 1, stop, ends => do
    if ends.contains (← peek).kind then emptyScalar stop else node fuel .flow

/-- The value behind a key inside a flow collection with the given closing sign. -/
def flowValue : Nat → TokenKind → Compose Node
  | 0, _ => throw .endless
  | fuel + 1, close => do
    let colon ← peek
    match colon.kind with
    | .value =>
      let _ ← take
      flowPart fuel colon.stop [.flowEntry, close]
    | _ => emptyScalar colon.start

/-- The comma in front of all but the first part of a flow collection. -/
def separator (context : Context) (opening : Mark) (close : CodePoint) (first : Bool) :
    Compose Unit := do
  let t ← peek
  if first then pure ()
  else if t.kind = .flowEntry then
    let _ ← take
    pure ()
  else failParsing (some (context, some opening)) (.noFlowEnd close t.kind.name) t.start

/-- The items of a flow sequence and its end. A key makes a mapping with one entry. -/
def flowItems : Nat → Mark → Bool → Compose (List Node)
  | 0, _, _ => throw .endless
  | fuel + 1, opening, first => do
    if (← peek).kind = .flowSequenceEnd then
      let _ ← take
      pure []
    else
      separator .flowSequence opening ']' first
      let t ← peek
      match t.kind with
      | .key =>
        let id ← newId
        let _ ← take
        let key ← flowPart fuel t.stop [.value, .flowEntry, .flowSequenceEnd]
        let value ← flowValue fuel .flowSequenceEnd
        pure (.mapping ⟨id, Tag.mapping, t.start⟩ [(key, value)] ::
          (← flowItems fuel opening false))
      | .flowSequenceEnd =>
        let _ ← take
        pure []
      | _ =>
        let item ← node fuel .flow
        pure (item :: (← flowItems fuel opening false))

/-- The entries of a flow mapping and its end. -/
def flowEntries : Nat → Mark → Bool → Compose (List (Node × Node))
  | 0, _, _ => throw .endless
  | fuel + 1, opening, first => do
    if (← peek).kind = .flowMappingEnd then
      let _ ← take
      pure []
    else
      separator .flowMapping opening '\x7d' first
      let t ← peek
      match t.kind with
      | .key =>
        let _ ← take
        let key ← flowPart fuel t.stop [.value, .flowEntry, .flowMappingEnd]
        let value ← flowValue fuel .flowMappingEnd
        pure ((key, value) :: (← flowEntries fuel opening false))
      | .flowMappingEnd =>
        let _ ← take
        pure []
      | _ =>
        let key ← node fuel .flow
        let value ← emptyScalar (← peek).start
        pure ((key, value) :: (← flowEntries fuel opening false))

end

/-- Past the ends of documents. -/
def skipEnds : Nat → Compose Unit
  | 0 => pure ()
  | fuel + 1 => do
    if (← peek).kind = .documentEnd then
      let _ ← take
      skipEnds fuel

/-- The start of an explicit document: where its directives begin, or nothing at the end of the text. -/
def documentStart (fuel : Nat) : Compose (Option Mark) := do
  skipEnds fuel
  let t ← peek
  if t.kind = .streamEnd then pure none
  else
    let own ← directives fuel false []
    let extra := defaultHandles.filter fun h => (own.lookup h.1).isNone
    modify fun s => { s with handles := own ++ extra }
    let sign ← peek
    if sign.kind = .documentStart then
      let _ ← take
      pure (some t.start)
    else failParsing none (.noDocumentStart sign.kind.name) sign.start

/-- Whether the content of a document is missing where one of these tokens is next. -/
def endsDocument : TokenKind → Bool
  | .directive _ | .documentStart | .documentEnd | .streamEnd => true
  | _ => false

/-- The root of the document here, if there is one. -/
def root (fuel : Nat) : Compose (Option Node) := do
  let t ← peek
  if endsDocument t.kind ∧ t.kind ≠ .documentEnd then
    match ← documentStart fuel with
    | none => pure none
    | some _ =>
      let content ← peek
      if endsDocument content.kind then pure (some (← emptyScalar content.start))
      else pure (some (← node fuel .block))
  else pure (some (← node fuel .block))

/-- Where a node begins. -/
def startOf (anchored : List (Nat × Node)) : Node → Mark
  | .scalar h _ => h.start
  | .sequence h _ => h.start
  | .mapping h _ => h.start
  | .alias id =>
    match anchored.lookup id with
    | some (.scalar h _) => h.start
    | some (.sequence h _) => h.start
    | some (.mapping h _) => h.start
    | _ => default

/-- The only document of a stream. -/
def document (fuel : Nat) : Compose Document := do
  let _ ← take
  match ← root fuel with
  | none => pure ⟨none, [], 0⟩
  | some n =>
    let _ ← if (← peek).kind = .documentEnd then discard take else pure ()
    let s ← get
    match ← documentStart fuel with
    | none => pure ⟨some n, s.anchored, s.count⟩
    | some second =>
      throw (.marked .composing (some (.firstDocument, some (startOf s.anchored n))) .secondDocument
        second)

end Compose

/-- Composes the tokens of a text with a single document. -/
def Document.ofTokens (t : Tokens) : Except Fault Document :=
  (Compose.document (4 * t.tokens.length + 4)
    ⟨t.tokens, t.fault, Compose.defaultHandles, 0, [], []⟩).map (·.1)

end DocPath.Yaml
