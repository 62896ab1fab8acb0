import DocPath.Charset.Utf8
import DocPath.Number.Decimal
import DocPath.Text.Letters
import DocPath.Value.Key

/-! Settings: their defaults, the sources that they are read from, and the check of their values. A setting
can also be assigned without a check, so every setting holds a value of any type. -/

namespace DocPath

/-- The names of the settings. -/
inductive Setting where
  | contentType
  | logLevel
  | pretty
  deriving DecidableEq

namespace Setting

def name : Setting → Text
  | contentType => "default_content_type"
  | logLevel => "log_level"
  | pretty => "pretty"

/-- The settings in the order of their names. -/
def all : List Setting := [contentType, logLevel, pretty]

def named? (t : Text) : Option Setting := all.find? (·.name == t)

/-- The setting of a name in any case of letters. -/
def namedLoosely? (t : Text) : Option Setting := named? (Text.lowerLetters t)

end Setting

/-- What is wrong with the value of a setting. -/
inductive SettingFault where
  | notText
  | emptyText
  | notUnicode
  | notBoolean
  | unreadableBoolean
  | notALevel
  deriving DecidableEq

namespace SettingFault

/-- The name of the fault. -/
def kind : SettingFault → Text
  | notText => "string_type"
  | emptyText => "string_too_short"
  | notUnicode => "string_unicode"
  | notBoolean => "bool_type"
  | unreadableBoolean => "bool_parsing"
  | notALevel => "literal_error"

def message : SettingFault → Text
  | notText => "Input should be a valid string"
  | emptyText => "String should have at least 1 character"
  | notUnicode =>
    "Input should be a valid string, unable to parse raw data as a unicode string"
  | notBoolean => "Input should be a valid boolean"
  | unreadableBoolean => "Input should be a valid boolean, unable to interpret input"
  | notALevel => "Input should be 'DEBUG', 'INFO', 'WARNING', 'ERROR' or 'CRITICAL'"

end SettingFault

/-- A value for each setting. -/
structure Config where
  contentType : Value
  pretty : Value
  logLevel : Value
  deriving DecidableEq

namespace Config

/-- The settings where nothing else is said. -/
def default : Config := ⟨.text "application/json", .bool false, .text "WARNING"⟩

def get (c : Config) : Setting → Value
  | .contentType => c.contentType
  | .pretty => c.pretty
  | .logLevel => c.logLevel

/-- Assigns a value to a setting without a check. -/
def set (c : Config) (s : Setting) (v : Value) : Config :=
  match s with
  | .contentType => { c with contentType := v }
  | .pretty => { c with pretty := v }
  | .logLevel => { c with logLevel := v }

/-- The settings by name. -/
def toValue (c : Config) : Value :=
  .map false ([Setting.contentType, .pretty, .logLevel].map fun s => (.text s.name, c.get s))

/-- A text that is not empty. -/
def checkText (t : Text) : Except SettingFault Value :=
  if t.isEmpty then .error .emptyText else .ok (.text t)

/-- A content type: a text, or bytes that are one. -/
def checkContentType (v : Value) : Except SettingFault Value :=
  match v with
  | .text t => checkText t
  | .bytes bs | .scalar (.byteArray bs) =>
    match Charset.Utf8.decodeFrom 0 bs with
    | .ok t => checkText t
    | .error _ => .error .notUnicode
  | _ => .error .notText

def trueWords : List Text := ["1", "on", "t", "true", "y", "yes"]

def falseWords : List Text := ["0", "off", "f", "false", "n", "no"]

/-- The truth value of a word in any case of letters. -/
def checkWord (t : Text) : Except SettingFault Value :=
  let word := Text.lowerLetters t
  if trueWords.contains word then .ok (.bool true)
  else if falseWords.contains word then .ok (.bool false)
  else .error .unreadableBoolean

/-- The truth value of an integer: only 0 and 1 have one. -/
def checkInteger (i : Int) : Except SettingFault Value :=
  if i = 0 then .ok (.bool false)
  else if i = 1 then .ok (.bool true)
  else if -(twoPow 63 : Int) ≤ i ∧ i < twoPow 63 then .error .unreadableBoolean
  else .error .notBoolean

/-- The integer that equals a number. -/
def integer? : Scalar → Option Int
  | .int i => some i
  | .float x => x.toInt?
  | .decimal (.finite s c e) => (Binary64.ofDecimal s c (Text.ofNat c).length e).toInt?
  | _ => none

/-- A truth value, or a word or number that means one. -/
def checkBoolean (v : Value) : Except SettingFault Value :=
  match v with
  | .bool b => .ok (.bool b)
  | .text t => checkWord t
  | .bytes bs =>
    match Charset.Utf8.decodeFrom 0 bs with
    | .ok t => checkWord t
    | .error _ => .error .unreadableBoolean
  | .scalar s =>
    match integer? s with
    | some i => checkInteger i
    | none => .error .notBoolean
  | _ => .error .notBoolean

/-- The names of the levels that can be set. -/
def levelNames : List Text := ["DEBUG", "INFO", "WARNING", "ERROR", "CRITICAL"]

/-- The name of a level, in any case and with white space around it. -/
def checkLevel (v : Value) : Except SettingFault Value :=
  match v with
  | .text t =>
    let name := Text.upper (Text.strip t)
    if levelNames.contains name then .ok (.text name) else .error .notALevel
  | _ => .error .notALevel

def check : Setting → Value → Except SettingFault Value
  | .contentType => checkContentType
  | .pretty => checkBoolean
  | .logLevel => checkLevel

/-- The faults of the settings, in the order of their names. -/
def faults (c : Config) : List (Setting × SettingFault) :=
  Setting.all.filterMap fun s =>
    match check s (c.get s) with
    | .ok _ => none
    | .error fault => some (s, fault)

/-- The value that a setting gets from its check, or its own if there is a fault. -/
def checkedValue (c : Config) (s : Setting) : Value :=
  match check s (c.get s) with
  | .ok v => v
  | .error _ => c.get s

/-- The settings with checked values, or all faults. -/
def validate (c : Config) : Except (List (Setting × SettingFault)) Config :=
  match c.faults with
  | [] => .ok ⟨c.checkedValue .contentType, c.checkedValue .pretty, c.checkedValue .logLevel⟩
  | faults => .error faults

/-- Stands in front of the names of settings in the environment. -/
def environmentPrefix : Text := "objpath_"

/-- The setting of an environment variable. -/
def ofVariable? (name : Text) : Option Setting :=
  let lower := Text.lowerLetters name
  if lower.startsWith environmentPrefix then Setting.named? (lower.drop environmentPrefix.length)
  else none

/-- Assigns the variables of an environment; others than those of settings are passed over. -/
def readEnvironment (c : Config) (environment : Table Text) : Config :=
  environment.foldl (fun c e =>
    match ofVariable? e.1 with
    | some s => c.set s (.text e.2)
    | none => c) c

/-- Assigns values by name, in any case of letters; unknown names are passed over. -/
def readKeywords (c : Config) (keywords : Table Value) : Config :=
  keywords.foldl (fun c e =>
    match Setting.namedLoosely? e.1 with
    | some s => c.set s e.2
    | none => c) c

/-- The settings of an environment and of keywords, which win over it. -/
def make (environment : List (Text × Text)) (keywords : List (Text × Value)) :
    Except (List (Setting × SettingFault)) Config :=
  ((default.readEnvironment (Table.ofEntries environment)).readKeywords
    (Table.ofEntries keywords)).validate

/-- Why settings cannot be overridden for a while. -/
inductive OverrideFault where
  /-- Names that no setting has, in order. -/
  | unknown (names : List Text)
  | invalid (faults : List (Setting × SettingFault))
  deriving DecidableEq

/-- Places a text among ordered ones, unless it is there. -/
def insertName (t : Text) : List Text → List Text
  | [] => [t]
  | u :: us =>
    if t = u then u :: us else if Text.before t u then t :: u :: us else u :: insertName t us

/-- The names that no setting has, in order. -/
def unknownNames (overrides : List (Text × Value)) : List Text :=
  (overrides.map (·.1)).foldl (fun names n =>
    if (Setting.named? n).isNone then insertName n names else names) []

/-- Assigns values by exact name. -/
def assign (c : Config) (overrides : List (Text × Value)) : Config :=
  overrides.foldl (fun c e =>
    match Setting.named? e.1 with
    | some s => c.set s e.2
    | none => c) c

/-- The settings with some overridden. The check covers all settings, but only the overridden ones get
their checked values. -/
def override (c : Config) (overrides : List (Text × Value)) : Except OverrideFault Config :=
  match unknownNames overrides with
  | [] =>
    match (c.assign overrides).validate with
    | .error faults => .error (.invalid faults)
    | .ok checked =>
      .ok (c.assign (overrides.filterMap fun e =>
        (Setting.named? e.1).map fun s => (e.1, checked.get s)))
  | names => .error (.unknown names)

/-- Whether a name belongs to an assignment that no setting shows. -/
def isPrivate (name : Text) : Bool := name.startsWith "_"

/-- Assigns a value by name without a check. -/
def assignOne? (c : Config) (name : Text) (v : Value) : Option Config :=
  match Setting.named? name with
  | some s => some (c.set s v)
  | none => if isPrivate name then some c else none

end Config

end DocPath
