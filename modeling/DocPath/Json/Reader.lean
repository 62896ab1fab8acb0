import DocPath.Json.Fault
import DocPath.Value.Key

/-! Reading JSON. Beyond the grammar, NaN and the infinities are numbers, and surrogates may stand
alone in escapes. What an object with its members means is a parameter. -/

namespace DocPath.Json

/-- A breach of the grammar at a place, which is told by what is left to read there. -/
def failAt {α : Type} (problem : Problem) (rest : Text) : Except Fault α :=
  .error (.syntaxError problem rest.length)

def isSpace (c : CodePoint) : Bool := c.is ' ' || c.is '\t' || c.is '\n' || c.is '\r'

def skipSpace (t : Text) : Text := t.dropWhile isSpace

/-- What the letter behind a backslash stands for. -/
def unescape? (c : CodePoint) : Option CodePoint :=
  if c = '"' ∨ c = '\\' ∨ c = '/' then some c
  else if c = 'b' then some '\x08'
  else if c = 'f' then some '\x0c'
  else if c = 'n' then some '\n'
  else if c = 'r' then some '\r'
  else if c = 't' then some '\t'
  else none

/-- The number that hexadecimal digits stand for. -/
def hexNumber? (digits : Text) : Option Nat :=
  if digits.all CodePoint.isHexDigit then some (Numeral.value 16 digits) else none

def isHigh (n : Nat) : Bool := 0xD800 ≤ n && n ≤ 0xDBFF

def isLow (n : Nat) : Bool := 0xDC00 ≤ n && n ≤ 0xDFFF

def joinSurrogates (high low : Nat) : CodePoint :=
  CodePoint.ofNat (0x10000 + (high - 0xD800) * 0x400 + (low - 0xDC00))

/-- Puts a code point in front of the text that was read. -/
def prepend (c : CodePoint) (r : Except Fault (Text × Text)) : Except Fault (Text × Text) :=
  r.map fun p => (c :: p.1, p.2)

/-- The text up to the closing quotation mark and what follows it; `start` is what was left to read
at the opening one. An escaped high surrogate joins with an escaped low one behind it. -/
def string (start : Text) : Text → Except Fault (Text × Text)
  | [] => failAt .unterminated start
  | c :: rest =>
    if c = '"' then .ok ([], rest)
    else if c.val < 0x20 then failAt .control (c :: rest)
    else if c = '\\' then
      match rest with
      | [] => failAt .unterminated start
      | x :: tail =>
        if x = 'u' then
          match tail with
          | h₁ :: h₂ :: h₃ :: h₄ :: y :: more =>
            match hexNumber? [h₁, h₂, h₃, h₄] with
            | none => failAt .hexEscape rest
            | some n =>
              match more with
              | z :: l₁ :: l₂ :: l₃ :: l₄ :: w :: after =>
                if isHigh n ∧ y = '\\' ∧ z = 'u' then
                  match hexNumber? [l₁, l₂, l₃, l₄] with
                  | none => failAt .hexEscape more
                  | some m =>
                    if isLow m then prepend (joinSurrogates n m) (string start (w :: after))
                    else prepend (CodePoint.ofNat n)
                      (string start (y :: z :: l₁ :: l₂ :: l₃ :: l₄ :: w :: after))
                else prepend (CodePoint.ofNat n)
                  (string start (y :: z :: l₁ :: l₂ :: l₃ :: l₄ :: w :: after))
              | after => prepend (CodePoint.ofNat n) (string start (y :: after))
          | _ => failAt .hexEscape rest
        else match unescape? x with
          | some d => prepend d (string start tail)
          | none => failAt .escape (c :: rest)
    else prepend c (string start rest)

/-- The whole digits of a number: a lone zero, or digits that do not begin with zero. -/
def splitWhole (t : Text) : Text × Text :=
  match t with
  | [] => ([], [])
  | c :: rest => if c = '0' then ([c], rest) else Numeral.spanDigits t

/-- The fraction of a number, if a point with a digit behind it stands at the front. -/
def splitFraction (t : Text) : Text × Text :=
  match t with
  | c :: rest =>
    let (digits, more) := Numeral.spanDigits rest
    if c ≠ '.' ∨ digits.isEmpty then ([], t) else (digits, more)
  | [] => ([], [])

/-- The number at the front: an integer unless it has a fraction or an exponent. -/
def number (t : Text) : Except Fault (Value × Text) :=
  let (negative, unsigned) := match t with
    | c :: rest => if c = '-' then (true, rest) else (false, t)
    | [] => (false, t)
  let (whole, rest) := splitWhole unsigned
  let (fraction, more) := splitFraction rest
  let exponent := Numeral.exponent? more
  if whole.isEmpty then failAt .value t
  else if fraction.isEmpty && exponent.isNone then
    match Numeral.readInteger 10 (if negative then '-' :: whole else whole) with
    | .ok i => .ok (.int i, rest)
    | .error fault => .error (.number fault)
  else
    let (e, after) := exponent.getD (0, more)
    .ok (.float (Numeral.decimalNumber negative whole fraction e), after)

/-- The words that are values. -/
def words : List (Text × Value) :=
  [("null", .null), ("true", .bool true), ("false", .bool false),
    ("NaN", .float Binary64.notANumber), ("Infinity", .float (Binary64.infinity false)),
    ("-Infinity", .float (Binary64.infinity true))]

/-- The word at the front. -/
def word? (t : Text) : Option (Value × Text) :=
  (words.find? fun w => t.startsWith w.1).map fun w => (w.2, t.drop w.1.length)

/-- Gives the members of an object their meaning. -/
abbrev Finish := List (Text × Value) → Except Fault Value

mutual

/-- The value at the front and what follows it. Each level of nesting takes two units of fuel. -/
def value (finish : Finish) : Nat → Text → Except Fault (Value × Text)
  | 0, t => failAt .value t
  | _, [] => failAt .value []
  | fuel + 1, c :: rest =>
    if c = '"' then (string (c :: rest) rest).map fun p => (.text p.1, p.2)
    else if c = '\x7b' then
      match skipSpace rest with
      | [] => failAt .name []
      | d :: more =>
        if d = '\x7d' then (finish []).map fun v => (v, more)
        else do
          let (entries, after) ← members finish fuel (d :: more)
          pure (← finish entries, after)
    else if c = '[' then
      match skipSpace rest with
      | [] => failAt .value []
      | d :: more =>
        if d = ']' then .ok (.list [], more)
        else (items finish fuel (d :: more)).map fun p => (.list p.1, p.2)
    else
      match word? (c :: rest) with
      | some p => .ok p
      | none => number (c :: rest)

/-- The items of an array, at least one, and what follows the closing bracket. -/
def items (finish : Finish) : Nat → Text → Except Fault (List Value × Text)
  | 0, t => failAt .value t
  | fuel + 1, t => do
    let (v, rest) ← value finish fuel t
    match skipSpace rest with
    | [] => failAt .comma []
    | d :: more =>
      if d = ']' then pure ([v], more)
      else if d = ',' then do
        let (vs, after) ← items finish fuel (skipSpace more)
        pure (v :: vs, after)
      else failAt .comma (d :: more)

/-- The members of an object, at least one, and what follows the closing brace. -/
def members (finish : Finish) : Nat → Text → Except Fault (List (Text × Value) × Text)
  | 0, t => failAt .name t
  | _, [] => failAt .name []
  | fuel + 1, c :: start =>
    if c ≠ '"' then failAt .name (c :: start)
    else do
      let (name, afterName) ← string (c :: start) start
      match skipSpace afterName with
      | [] => failAt .colon []
      | d :: colonRest =>
        if d ≠ ':' then failAt .colon (d :: colonRest)
        else do
          let (v, rest) ← value finish fuel (skipSpace colonRest)
          match skipSpace rest with
          | [] => failAt .comma []
          | d :: more =>
            if d = '\x7d' then pure ([(name, v)], more)
            else if d = ',' then do
              let (entries, after) ← members finish fuel (skipSpace more)
              pure ((name, v) :: entries, after)
            else failAt .comma (d :: more)

end

/-- Reads a document. -/
def readWith (finish : Finish) (t : Text) : Except Fault Value :=
  if t.startsWith [CodePoint.ofNat 0xFEFF] then failAt .byteOrderMark t
  else do
    let (v, rest) ← value finish (2 * t.length + 2) (skipSpace t)
    match skipSpace rest with
    | [] => pure v
    | more => failAt .extra more

/-- The first name that stands before itself in a list. -/
def repeated? : List Text → List Text → Option Text
  | _, [] => none
  | seen, name :: rest => if seen.contains name then some name else repeated? (name :: seen) rest

/-- Refuses objects with two members of one name. -/
def unique : Finish := fun entries =>
  match repeated? [] (entries.map (·.1)) with
  | some name => .error (.duplicateName name)
  | none => .ok (.map false (entries.map fun e => (.text e.1, e.2)))

/-- Of members with one name the last gives the value. -/
def lastWins : Finish := fun entries =>
  .ok (.map false (Value.entriesOf (entries.map fun e => (.text e.1, e.2))))

/-- Reads a document in which no object has two members of one name. -/
def read (t : Text) : Except Fault Value := readWith unique t

end DocPath.Json
