import DocPath.Config.Scope
import DocPath.Document
import DocPath.Log.Logger
import DocPath.Stash.Operation

/-! Sessions: documents and stashes under names, settings, and a logger with its consoles. Every action has
an answer, and may leave messages in the log and text on a console. -/

namespace DocPath

structure Session where
  documents : Table Document := []
  stashes : Table Stash := [("EMPTY", Stash.empty)]
  settings : Scope := {}
  logger : Log.Logger := {}
  /-- The consoles in use, and whether they show colours. -/
  consoles : Table Bool := []
  output : Log.Output := {}

namespace Session

inductive Action where
  | hold (document : Text) (value : Value)
  | read (document : Text) (payload : Payload) (contentType : Option Text)
  | receive (document : Text) (payload : Payload) (headers : List (Text × Text))
  /-- Evaluates a path with a stash; the value may be held as a document and be kept in a stash. -/
  | evaluate (document path : Text) (stash into : Option Text) (keepAs : Option (Text × Text))
  | evaluateValue (value : Value) (path : Text)
  | root (document : Text)
  | showDocument (document : Text)
  | write (document : Text) (contentType : Option Text)
  | newStash (stash : Text) (entries : List (Text × Value))
  | onStash (stash : Text) (operation : Stash.Operation)
  | enterSettings (overrides : List (Text × Value))
  | leaveSettings
  | assignSetting (name : Text) (value : Value)
  | settings
  | configureLogging (console : Option (Text × Bool))
  | logger
  | log (level : Int) (template : Text) (values : List Value)

/-- What an action answers. -/
inductive Answer where
  | value (v : Value)
  | logger (l : Log.Logger)

/-- A message on its way to the logger. -/
structure Message where
  level : Int
  template : Text
  values : List Value

/-- A message for those who look for faults. -/
def Message.debug (text : Text) : Message := ⟨Log.debug, text, []⟩

/-- What an action leads to. -/
structure Effect where
  session : Session
  answer : Except Failure Answer
  messages : List Message := []

def document (s : Session) (name : Text) : Except Failure Document :=
  match s.documents.lookup name with
  | some d => .ok d
  | none => .error (.unnamed name)

def stash (s : Session) (name : Text) : Except Failure Stash :=
  match s.stashes.lookup name with
  | some t => .ok t
  | none => .error (.unnamed name)

def hold (s : Session) (name : Text) (d : Document) : Session :=
  { s with documents := Table.put name d s.documents }

def putStash (s : Session) (name : Text) (t : Stash) : Session :=
  { s with stashes := Table.put name t s.stashes }

/-- The effect of an action that changes nothing. -/
def answered (s : Session) (answer : Except Failure Value) : Effect := ⟨s, answer.map .value, []⟩

/-- The effect of an action that leads to another session or fails. -/
def become (s : Session) (outcome : Except Failure (Session × Value)) : Effect :=
  match outcome with
  | .ok (t, v) => ⟨t, .ok (.value v), []⟩
  | .error fault => ⟨s, .error fault, []⟩

/-- Holds a document that was read. -/
def afterReading (s : Session) (name : Text) (r : Option Text × Except Failure Document) : Effect :=
  let messages := (r.1.map Message.debug).toList
  match r.2 with
  | .ok d => ⟨s.hold name d, .ok (.value d.root), messages⟩
  | .error fault => ⟨s, .error fault, messages⟩

/-- Keeps a value in a stash. -/
def keep (s : Session) (name key : Text) (v : Value) : Except Failure Session := do
  let t ← s.stash name
  let (t, _) ← t.apply (.insert key v)
  pure (s.putStash name t)

/-- Uses the value of a path: holds it first, then keeps it. What was held stays so if it cannot be
kept. -/
def useValue (s : Session) (into : Option Text) (keepAs : Option (Text × Text)) (v : Value) :
    Session × Except Failure Answer :=
  let s := match into with
    | some name => s.hold name ⟨v⟩
    | none => s
  match keepAs with
  | none => (s, .ok (.value v))
  | some (name, key) =>
    match s.keep name key v with
    | .ok t => (t, .ok (.value v))
    | .error fault => (s, .error fault)

/-- The document and the store for a path. -/
def source (s : Session) (document : Text) (stash : Option Text) :
    Except Failure (Document × Store) := do
  let d ← s.document document
  let t ← match stash with
    | some name => s.stash name
    | none => pure Stash.empty
  pure (d, t.find?)

/-- Evaluates a path. -/
def evaluate (s : Session) (document path : Text) (stash into : Option Text)
    (keepAs : Option (Text × Text)) : Effect :=
  match s.source document stash with
  | .error fault => ⟨s, .error fault, []⟩
  | .ok (d, store) =>
    let (texts, outcome) := d.evaluate store path
    let messages := texts.map Message.debug
    match outcome with
    | .error fault => ⟨s, .error fault, messages⟩
    | .ok v =>
      let (t, answer) := s.useValue into keepAs v
      ⟨t, answer, messages⟩

/-- The colours of a console, which are settled when it is first named. -/
def colors (s : Session) (name : Text) (colored : Bool) : Bool :=
  (s.consoles.lookup name).getD colored

/-- Attaches a console and takes over the level of the settings. -/
def configureLogging (s : Session) (console : Option (Text × Bool)) : Effect :=
  let (target, s) : Option Log.Target × Session := match console with
    | none => (none, s)
    | some (name, colored) =>
      let colored := s.colors name colored
      (some (.console name colored), { s with consoles := Table.put name colored s.consoles })
  let (l, outcome) := s.logger.configure target s.settings.current.logLevel
  ⟨{ s with logger := l },
    match outcome with
    | .ok () => .ok (.logger l)
    | .error fault => .error (.level fault),
    []⟩

def settingsValue (s : Session) : Value := s.settings.current.toValue

/-- A session with other settings, which are the answer. -/
def withSettings (s : Session) (scope : Scope) : Session × Value :=
  let t := { s with settings := scope }
  (t, t.settingsValue)

/-- The effect of an action. -/
def effect (s : Session) : Action → Effect
  | .hold name v => ⟨s.hold name ⟨v⟩, .ok (.value .null), []⟩
  | .read name p contentType =>
    s.afterReading name (Document.ofPayload s.settings.current contentType p)
  | .receive name p headers =>
    s.afterReading name (Document.ofResponse s.settings.current headers p)
  | .evaluate name path stash into keepAs => s.evaluate name path stash into keepAs
  | .evaluateValue v path =>
    let (texts, outcome) := (Document.mk v).evaluate Stash.empty.find? path
    ⟨s, outcome.map .value, texts.map Message.debug⟩
  | .root name => s.answered ((s.document name).map (·.root))
  | .showDocument name => s.answered do
    let d ← s.document name
    pure (.text (← d.shown))
  | .write name contentType => s.answered do
    let d ← s.document name
    pure (.bytes (← d.toBytes s.settings.current contentType))
  | .newStash name entries => ⟨s.putStash name (Stash.ofList entries), .ok (.value .null), []⟩
  | .onStash name operation => s.become do
    let t ← s.stash name
    let (t, v) ← t.apply operation
    pure (s.putStash name t, v)
  | .enterSettings overrides => s.become do
    pure (s.withSettings (← s.settings.enter overrides))
  | .leaveSettings => s.become (.ok (s.withSettings s.settings.leave))
  | .assignSetting name v => s.become do
    pure (s.withSettings (← s.settings.assign name v))
  | .settings => s.answered (.ok s.settingsValue)
  | .configureLogging console => s.configureLogging console
  | .logger => ⟨s, .ok (.logger s.logger), []⟩
  | .log level template values => ⟨s, .ok (.value .null), [⟨level, template, values⟩]⟩

/-- What can be seen of an action: its answer, the records in the log, and what was written where. -/
structure Reply where
  answer : Except Failure Answer
  records : List Log.Record
  written : List (Log.Target × Text)

/-- Performs an action. Its messages go to the logger that was in place before. -/
def step (s : Session) (a : Action) : Session × Reply :=
  let e := s.effect a
  let records := e.messages.filterMap fun m => s.logger.record? m.level m.template m.values
  let (output, written) := s.logger.written e.session.output records
  ({ e.session with output := output }, ⟨e.answer, records, written⟩)

/-- Performs actions one after the other. -/
def run (s : Session) : List Action → List Reply
  | [] => []
  | a :: rest =>
    let (t, reply) := s.step a
    reply :: run t rest

end Session

end DocPath
