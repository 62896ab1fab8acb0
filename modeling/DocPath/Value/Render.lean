import DocPath.Value
import DocPath.Number.Shortest

/-! Values as text: the form shown inside other values and in messages, and the plain form. -/

namespace DocPath

open Numeral in
/-- A scalar in the form that tells its type. -/
def Scalar.shown : Scalar → Except NumeralFault Text
  | .bool b => .ok (if b then "True" else "False")
  | .int i => writeInteger i
  | .float x => .ok (x.layout Binary64.plainLayout)
  | .text t => .ok t.quoted
  | .bytes bs => .ok (quotedBytes bs)
  | .byteArray bs => .ok (.concat ["bytearray(", quotedBytes bs, ")"])
  | .date d => .ok d.shown
  | .dateTime d => .ok d.shown
  | .decimal d => .ok (.concat ["Decimal('", d.text, "')"])

namespace Value

/-- What an alias shows of the part that it stands for. -/
def placeholder : Value → Text
  | .map .. => "\x7b...\x7d"
  | .tuple _ => "(...)"
  | .set .. => "set(...)"
  | _ => "[...]"

/-- Between braces. -/
def braced (t : Text) : Text := .concat ["\x7b", t, "\x7d"]

mutual

/-- A value in the form that tells its type. The parts around it are given with their labels. -/
def shownWithin (around : List (Nat × Text)) : Value → Except NumeralFault Text
  | .null => .ok "None"
  | .scalar s => s.shown
  | .range a b c => do
    let numbers ← (if c = 1 then [a, b] else [a, b, c]).mapM Numeral.writeInteger
    pure (.concat ["range(", .join ", " numbers, ")"])
  | .list xs => do pure (.concat ["[", .join ", " (← shownAll around xs), "]"])
  | .tuple xs => do
    match ← shownAll around xs with
    | [x] => pure (.concat ["(", x, ",)"])
    | texts => pure (.concat ["(", .join ", " texts, ")"])
  | .sequence t xs => do pure (.concat [t.opening, .join ", " (← shownAll around xs), t.closing])
  | .map false es => do
    pure (braced (.join ", " ((← shownEntries around es).map fun p => .concat [p.1, ": ", p.2])))
  | .map true es => do
    match ← shownEntries around es with
    | [] => pure "OrderedDict()"
    | texts =>
      pure (.concat ["OrderedDict([",
        .join ", " (texts.map fun p => .concat ["(", p.1, ", ", p.2, ")"]), "])"])
  | .set frozen xs => do
    match ← shownAll around xs, frozen with
    | [], false => pure "set()"
    | [], true => pure "frozenset()"
    | texts, false => pure (braced (.join ", " texts))
    | texts, true => pure (.concat ["frozenset(", braced (.join ", " texts), ")"])
  | .anchor l v => shownWithin ((l, v.placeholder) :: around) v
  | .alias l => .ok ((around.lookup l).getD "[...]")

def shownAll (around : List (Nat × Text)) : List Value → Except NumeralFault (List Text)
  | [] => .ok []
  | x :: xs => do pure ((← shownWithin around x) :: (← shownAll around xs))

def shownEntries (around : List (Nat × Text)) :
    List (Value × Value) → Except NumeralFault (List (Text × Text))
  | [] => .ok []
  | (k, v) :: es => do
    let key ← shownWithin around k
    let value ← shownWithin around v
    pure ((key, value) :: (← shownEntries around es))

end

/-- A value in the form that tells its type. -/
def shown (v : Value) : Except NumeralFault Text := shownWithin [] v

/-- The plain form: texts, dates and decimal numbers without any mark of their type. -/
def plain : Value → Except NumeralFault Text
  | .text t => .ok t
  | .scalar (.date d) => .ok d.text
  | .scalar (.dateTime d) => .ok (d.text " ")
  | .scalar (.decimal d) => .ok d.text
  | .anchor l v =>
    match v with
    | .scalar (.date d) => .ok d.text
    | .scalar (.dateTime d) => .ok (d.text " ")
    | v => shown (.anchor l v)
  | v => shown v

/-- The name that a value stands for as a segment of a path or as the key of a mapping. -/
def asName : Value → Except NumeralFault Text
  | .bool b => .ok (if b then "true" else "false")
  | .null => .ok "null"
  | v => plain v

end Value

end DocPath
