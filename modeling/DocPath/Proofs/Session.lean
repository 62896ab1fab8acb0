import DocPath.Proofs.Text
import DocPath.Session

/-! Runs of a session: where actions lead and what they answer, and the parts of a session that an action leaves
alone. -/

namespace DocPath.Session

/-- The session behind an action. -/
def after (s : Session) (a : Action) : Session := (s.step a).1

/-- What an action answers. -/
def answer (s : Session) (a : Action) : Except Failure Answer := (s.step a).2.answer

/-- The session behind actions. -/
def afterAll (s : Session) (actions : List Action) : Session := actions.foldl after s

variable {s t : Session} {a : Action}

@[simp] lemma afterAll_nil (s : Session) : s.afterAll [] = s := rfl

@[simp] lemma afterAll_cons (s : Session) (a : Action) (rest : List Action) :
    s.afterAll (a :: rest) = (s.after a).afterAll rest := rfl

lemma afterAll_append (s : Session) (actions more : List Action) :
    s.afterAll (actions ++ more) = (s.afterAll actions).afterAll more := List.foldl_append

lemma run_cons (s : Session) (a : Action) (rest : List Action) :
    s.run (a :: rest) = (s.step a).2 :: (s.after a).run rest := rfl

/-- An action without messages prints nothing. -/
lemma after_of_silent (h : (s.effect a).messages = []) : s.after a = (s.effect a).session := by
  rw [after, step, h]
  simp only [List.filterMap_nil, Log.Logger.written_nil]

lemma messages_become (s : Session) (outcome : Except Failure (Session × Value)) : (s.become outcome).messages = [] := by
  cases outcome <;> rfl

lemma become_induction {P : Session → Prop} {outcome : Except Failure (Session × Value)} (hs : P s)
    (h : ∀ t v, outcome = .ok (t, v) → P t) : P (s.become outcome).session := by
  cases outcome with
  | ok p => exact h p.1 p.2 rfl
  | error fault => exact hs

/-- A session without its documents and stashes. -/
structure Surroundings where
  settings : Scope
  logger : Log.Logger
  consoles : Table Bool
  output : Log.Output

def surroundings (s : Session) : Surroundings := ⟨s.settings, s.logger, s.consoles, s.output⟩

lemma surroundings_afterReading (s : Session) (name : Text) (r : Option Text × Except Failure Document) :
    (s.afterReading name r).session.surroundings = s.surroundings := by
  rw [afterReading]
  cases r.2 <;> rfl

lemma surroundings_keep {name key : Text} {v : Value} (h : s.keep name key v = .ok t) :
    t.surroundings = s.surroundings := by
  obtain ⟨stash, -, h⟩ := bind_eq_ok h
  obtain ⟨p, -, h⟩ := bind_eq_ok h
  obtain rfl := Except.ok.inj h
  rfl

lemma surroundings_useValue (s : Session) (into : Option Text) (keepAs : Option (Text × Text)) (v : Value) :
    (s.useValue into keepAs v).1.surroundings = s.surroundings := by
  have hkept (held : Session) : (held.useValue none keepAs v).1.surroundings = held.surroundings := by
    cases keepAs with
    | none => rfl
    | some p =>
      rw [useValue]
      split
      · next hk => exact surroundings_keep hk
      · rfl
  cases into with
  | none => exact hkept s
  | some name => exact hkept (s.hold name ⟨v⟩)

lemma surroundings_evaluate (s : Session) (document path : Text) (stash into : Option Text)
    (keepAs : Option (Text × Text)) :
    (s.evaluate document path stash into keepAs).session.surroundings = s.surroundings := by
  rw [evaluate]
  split
  · rfl
  · dsimp only
    split
    · rfl
    · exact surroundings_useValue s into keepAs _

lemma surroundings_onStash (s : Session) (name : Text) (operation : Stash.Operation) :
    (s.effect (.onStash name operation)).session.surroundings = s.surroundings := by
  refine become_induction (P := fun t => t.surroundings = s.surroundings) rfl fun t v h => ?_
  obtain ⟨stash, -, h⟩ := bind_eq_ok h
  obtain ⟨p, -, h⟩ := bind_eq_ok h
  cases h
  rfl

/-- Whether an action is about the settings or the handlers of the logger. -/
def Action.concernsSurroundings : Action → Bool
  | .enterSettings _ | .leaveSettings | .assignSetting .. | .configureLogging _ => true
  | _ => false

/-- Whatever else is done to a session is done to its documents and stashes. -/
theorem surroundings_effect (s : Session) (h : a.concernsSurroundings = false) :
    (s.effect a).session.surroundings = s.surroundings := by
  cases a with
  | read name p contentType => exact surroundings_afterReading s name _
  | receive name p headers => exact surroundings_afterReading s name _
  | evaluate name path stash into keepAs => exact surroundings_evaluate s name path stash into keepAs
  | onStash name operation => exact surroundings_onStash s name operation
  | enterSettings | leaveSettings | assignSetting | configureLogging => cases h
  | _ => rfl

/-- Its messages are printed then. -/
theorem surroundings_after (s : Session) (h : a.concernsSurroundings = false) :
    (s.after a).surroundings = { s.surroundings with output := (s.after a).output } := by
  rw [← surroundings_effect s h]
  rfl

/-- Nothing is printed before the effect of an action is complete. -/
lemma output_effect (s : Session) (a : Action) : (s.effect a).session.output = s.output := by
  have hscope (outcome : Except Failure Scope) :
      (s.become (outcome >>= fun scope => pure (s.withSettings scope))).session.output = s.output := by
    cases outcome <;> rfl
  have hother (h : a.concernsSurroundings = false) : (s.effect a).session.output = s.output :=
    congrArg Surroundings.output (surroundings_effect s h)
  cases a with
  | enterSettings overrides => exact hscope _
  | assignSetting name v => exact hscope _
  | leaveSettings => rfl
  | configureLogging console => cases console <;> rfl
  | _ => exact hother rfl

end DocPath.Session
