import DocPath.Failure

/-! The operations on a stash, each with its answer. -/

namespace DocPath.Stash

inductive Operation where
  | insert (key : Text) (value : Value)
  | holds (key : Text)
  | get (key : Text)
  | clear
  | toValue
  | member (key : Value)
  | keys
  | size
  | shown

/-- A stash as a call that makes it. -/
def shown (s : Stash) : Except NumeralFault Text := do
  let name : Text := if s.readOnly then "_EmptyStash" else "Stash"
  pure (.concat [name, "(", ← s.toValue.shown, ")"])

/-- The stash after an operation, and the answer. -/
def apply (s : Stash) : Operation → Except Failure (Stash × Value)
  | .insert key value =>
    match s.insert key value with
    | .ok t => .ok (t, .null)
    | .error fault => .error (.stash fault)
  | .holds key => .ok (s, .bool (s.holds key))
  | .get key =>
    match s.get key with
    | .ok v => .ok (s, v)
    | .error fault => .error (.stash fault)
  | .clear =>
    match s.clear with
    | .ok t => .ok (t, .null)
    | .error fault => .error (.stash fault)
  | .toValue => .ok (s, s.toValue)
  | .member key =>
    match s.member key with
    | .ok b => .ok (s, .bool b)
    | .error fault => .error (.key fault)
  | .keys => .ok (s, .list (s.keys.map .text))
  | .size => .ok (s, .int s.size)
  | .shown =>
    match s.shown with
    | .ok t => .ok (s, .text t)
    | .error fault => .error (.number fault)

end DocPath.Stash
