import DocPath.Failure

/-! Documents: values that parts are read from by path, and their way from and to payloads. -/

namespace DocPath

structure Document where
  root : Value
  deriving DecidableEq

/-- The items of a sequence as a list. -/
def Items.toList : Items → List Value
  | .listed items => items
  | .progression start step n => (List.range n).map fun (i : Nat) => .int (start + step * i)

namespace Document

/-- The document of a value that was read. A sequence becomes a list, a byte string the list of its
bytes; anything else but a mapping is refused. -/
def ofRoot (v : Value) : Except Failure Document :=
  match v.node with
  | .mapping _ => .ok ⟨v⟩
  | .sequence items => .ok ⟨.list items.toList⟩
  | _ =>
    match v.opened with
    | .bytes bs | .scalar (.byteArray bs) => .ok ⟨.list (bs.map fun b => .int b.toNat)⟩
    | w => .error (.noCollection w.type)

/-- A stated content type, or the one of the settings if none or an empty one is stated. -/
def contentType (stated : Option Text) (settings : Config) : Except Failure Text :=
  match stated with
  | some (c :: t) => .ok (c :: t)
  | _ =>
    match settings.contentType with
    | .text t => .ok t
    | .bytes _ | .scalar (.byteArray _) => .error .bytesAsContentType
    | v => .error (.noContentType v.refusedAs)

/-- What is noted before a payload is read. -/
def readingMessage (format : ContentType.Format) (p : Payload) : Text :=
  .concat ["decoding ", format.name, " document of ", .ofNat p.size, " ", p.unit]

/-- Reads a payload of a stated content type. The message is there once the format is known, whether
reading succeeds or fails. -/
def ofPayload (settings : Config) (stated : Option Text) (p : Payload) :
    Option Text × Except Failure Document :=
  match contentType stated settings with
  | .error fault => (none, .error fault)
  | .ok t =>
    match ContentType.format t with
    | .error fault => (none, .error (.payload fault))
    | .ok format =>
      (some (readingMessage format p),
        match p.decode t with
        | .error fault => .error (.payload fault)
        | .ok v => ofRoot v)

/-- The header that states the content type of a response. -/
def contentTypeHeader : Text := "Content-Type"

/-- The last value of a header, by its exact name. -/
def header? (name : Text) (headers : List (Text × Text)) : Option Text :=
  headers.reverse.lookup name

/-- Reads the body of a response. -/
def ofResponse (settings : Config) (headers : List (Text × Text)) (body : Payload) :
    Option Text × Except Failure Document :=
  ofPayload settings (header? contentTypeHeader headers) body

/-- The layout of JSON that the settings ask for. -/
def style (settings : Config) : Json.Style :=
  if settings.pretty.isTrue then .indented else .compact

/-- Writes a document, which must be a mapping. -/
def toBytes (settings : Config) (stated : Option Text) (d : Document) :
    Except Failure (List UInt8) :=
  if d.root.isMapping then do
    let t ← contentType stated settings
    (Payload.encode (style settings) t d.root).mapError .payload
  else .error .noMapping

/-- The value at a path, with the messages of the walk. -/
def evaluate (store : Store) (d : Document) (path : Text) : List Text × Except Failure Value :=
  let (events, outcome) := Query.trace store d.root path
  (events.map Query.Event.message, outcome.mapError .query)

/-- A document as a call that makes it. -/
def shown (d : Document) : Except Failure Text :=
  match d.root.shown with
  | .ok t => .ok (.concat ["ObjectPath(", t, ")"])
  | .error fault => .error (.number fault)

end Document

end DocPath
