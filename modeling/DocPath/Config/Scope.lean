import DocPath.Failure

/-! Scopes of settings: overrides that hold until they are left. -/

namespace DocPath

/-- The settings in force, and those that hold again when the overrides end, the innermost first. -/
structure Scope where
  current : Config := .default
  outer : List Config := []
  deriving DecidableEq

namespace Scope

/-- Overrides settings until the scope is left. -/
def enter (s : Scope) (overrides : List (Text × Value)) : Except Failure Scope :=
  match s.current.override overrides with
  | .ok c => .ok ⟨c, s.current :: s.outer⟩
  | .error fault => .error (.ofOverride fault)

/-- Ends the innermost overrides; assignments since then are lost. -/
def leave (s : Scope) : Scope :=
  match s.outer with
  | [] => s
  | c :: rest => ⟨c, rest⟩

/-- Assigns a setting by name without a check. -/
def assign (s : Scope) (name : Text) (v : Value) : Except Failure Scope :=
  match s.current.assignOne? name v with
  | some c => .ok { s with current := c }
  | none => .error (.noSuchSetting name)

end Scope

end DocPath
