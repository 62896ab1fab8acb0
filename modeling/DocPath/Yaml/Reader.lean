import DocPath.Yaml.Meaning

/-! Reading YAML. -/

namespace DocPath.Yaml

/-- Whether a code point may stand in a text. -/
def isAcceptable (c : CodePoint) : Bool :=
  let n := c.val
  n == 9 || n == 10 || n == 13 || (0x20 ≤ n && n ≤ 0x7E) || n == 0x85 || (0xA0 ≤ n && n ≤ 0xD7FF) ||
    (0xE000 ≤ n && n ≤ 0xFFFD) || 0x10000 ≤ n

/-- The first code point that may not stand in a text, and how many come before it. -/
def unacceptable? (place : Nat) : Text → Option (CodePoint × Nat)
  | [] => none
  | c :: rest => if isAcceptable c then unacceptable? (place + 1) rest else some (c, place)

/-- Composes the nodes of a text. -/
def compose (t : Text) : Except Fault Document :=
  match unacceptable? 0 t with
  | some (c, place) => .error (.unacceptable c place)
  | none => Document.ofTokens (Tokens.scan t)

/-- The value of a text with one document at most. -/
def readWith (rule : KeyRule) (t : Text) : Except Fault Value := do (← compose t).value rule

/-- The value of a text; the keys of its mappings are names. -/
def read (t : Text) : Except Fault Value := readWith .names t

end DocPath.Yaml
