import DocPath.Value.Render

/-! Writing JSON, on one line or with one item on each. -/

namespace DocPath.Json

/-- Why a value has no JSON form. -/
inductive Unwritable where
  | value (type : TypeName)
  /-- The key of a mapping, and whether the message names its type with the module. -/
  | key (type : TypeName) (withHome : Bool)
  | number (fault : NumeralFault)
  deriving DecidableEq

def Unwritable.message : Unwritable → Text
  | .value type => .concat ["Object of type ", type.name, " is not JSON serializable"]
  | .key type withHome =>
    .concat ["keys must be str, int, float, bool or None, not ",
      if withHome then type.qualified else type.name]
  | .number fault => fault.message

/-- How the parts of a document are laid out. -/
inductive Style where
  /-- All on one line. -/
  | compact
  /-- Every item on a line of its own, with two blanks for each level. -/
  | indented
  deriving DecidableEq

def escaped (c : CodePoint) : Text :=
  if c = '"' then "\\\""
  else if c = '\\' then "\\\\"
  else if c = '\n' then "\\n"
  else if c = '\r' then "\\r"
  else if c = '\t' then "\\t"
  else if c = '\x08' then "\\b"
  else if c = '\x0c' then "\\f"
  else if c.val < 0x20 then '\\' :: 'u' :: Text.hex 4 c.val
  else [c]

/-- A text between quotation marks; all but quotation marks, backslashes and controls stands as it
is. -/
def quote (t : Text) : Text := .concat ["\"", t.flatMap escaped, "\""]

/-- The layout of floating-point numbers: `NaN`, `Infinity`, `1e+16`. -/
def floatLayout : Binary64.Layout := ⟨"NaN", "Infinity", ""⟩

/-- The text of a scalar that is no text. -/
def bare : Scalar → Option (Except Unwritable Text)
  | .bool b => some (.ok (if b then "true" else "false"))
  | .int i => some ((Numeral.writeInteger i).mapError .number)
  | .float x => some (.ok (x.layout floatLayout))
  | _ => none

/-- The name of a member. Numbers, truth values and null are names by their text. -/
def name (style : Style) (key : Value) : Except Unwritable Text :=
  match key with
  | .null => .ok "null"
  | .text t => .ok t
  | .scalar s => (bare s).getD (.error (.key s.type (style == .compact)))
  | v => .error (.key v.type (style == .compact))

/-- Texts between brackets, as a list on the given level of nesting. -/
def bracketed (style : Style) (level : Nat) (opening closing : CodePoint) (parts : List Text) : Text :=
  if parts.isEmpty then [opening, closing]
  else
    match style with
    | .compact => .concat [[opening], .join ", " parts, [closing]]
    | .indented =>
      let line (n : Nat) : Text := '\n' :: List.replicate (2 * n) (CodePoint.ofChar ' ')
      .concat [[opening], line (level + 1), .join (',' :: line (level + 1)) parts, line level,
        [closing]]

mutual

/-- A value on a level of nesting. -/
def writeAt (style : Style) (level : Nat) : Value → Except Unwritable Text
  | .null => .ok "null"
  | .scalar s =>
    match s with
    | .text t => .ok (quote t)
    | s => (bare s).getD (.error (.value s.type))
  | .list xs => do pure (bracketed style level '[' ']' (← writeItems style (level + 1) xs))
  | .tuple xs => do pure (bracketed style level '[' ']' (← writeItems style (level + 1) xs))
  | .map _ es => do
    pure (bracketed style level '\x7b' '\x7d' (← writeMembers style (level + 1) es))
  | .anchor _ v => writeAt style level v
  | v => .error (.value v.type)

def writeItems (style : Style) (level : Nat) : List Value → Except Unwritable (List Text)
  | [] => .ok []
  | x :: xs => do
    let text ← writeAt style level x
    pure (text :: (← writeItems style level xs))

def writeMembers (style : Style) (level : Nat) :
    List (Value × Value) → Except Unwritable (List Text)
  | [] => .ok []
  | (k, v) :: es => do
    let key ← name style k
    let text ← writeAt style level v
    pure (.concat [quote key, ": ", text] :: (← writeMembers style level es))

end

/-- The JSON text of a value without cycles. -/
def write (style : Style) (v : Value) : Except Unwritable Text := writeAt style 0 v

end DocPath.Json
