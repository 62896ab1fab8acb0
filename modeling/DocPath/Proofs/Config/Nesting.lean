import DocPath.Proofs.Config.Override
import DocPath.Proofs.Session

/-! Contexts of settings in a session, one inside the other, with any other actions in between: each one that is left
gives back the settings as they were when it was entered. -/

namespace DocPath.Session

open Config

/-- Actions that lead from one session to another and leave all contexts that they enter, and no others. A context
whose entry fails is never left. -/
inductive Nested : Session → List Action → Session → Prop
  | done (s : Session) : Nested s [] s
  | plain {s u : Session} {a : Action} {rest : List Action} (enters : ∀ overrides, a ≠ .enterSettings overrides)
      (leaves : a ≠ .leaveSettings) (next : Nested (s.after a) rest u) : Nested s (a :: rest) u
  | refused {s u : Session} {overrides : List (Text × Value)} {fault : Failure} {rest : List Action}
      (refusal : s.answer (.enterSettings overrides) = .error fault)
      (next : Nested (s.after (.enterSettings overrides)) rest u) : Nested s (.enterSettings overrides :: rest) u
  | context {s t u : Session} {overrides : List (Text × Value)} {reply : Answer} {inner rest : List Action}
      (entry : s.answer (.enterSettings overrides) = .ok reply)
      (body : Nested (s.after (.enterSettings overrides)) inner t)
      (next : Nested (t.after .leaveSettings) rest u) :
      Nested s (.enterSettings overrides :: (inner ++ .leaveSettings :: rest)) u

variable {s t u : Session} {overrides : List (Text × Value)}

section Steps

lemma settings_configureLogging (s : Session) (console : Option (Text × Bool)) :
    (s.configureLogging console).session.settings = s.settings := by
  cases console <;> rfl

/-- An action that neither enters nor leaves a context leaves the outer settings as they are. -/
lemma outer_after {a : Action} (enters : ∀ overrides, a ≠ .enterSettings overrides) (leaves : a ≠ .leaveSettings) :
    (s.after a).settings.outer = s.settings.outer := by
  have hother (h : a.concernsSurroundings = false) : (s.after a).settings.outer = s.settings.outer :=
    congrArg (fun around => around.settings.outer) (surroundings_after s h)
  cases a with
  | configureLogging console => exact congrArg Scope.outer (settings_configureLogging s console)
  | enterSettings overrides => exact absurd rfl (enters overrides)
  | leaveSettings => exact absurd rfl leaves
  | assignSetting name v =>
    refine become_induction (P := fun t => t.settings.outer = s.settings.outer) rfl fun t v h => ?_
    obtain ⟨scope, hscope, h⟩ := bind_eq_ok h
    cases h
    rw [Scope.assign] at hscope
    split at hscope
    · cases hscope
      rfl
    · cases hscope
  | _ => exact hother rfl

/-- Entering is overriding: the settings so far are kept for the end of the context, or nothing changes. -/
lemma enter_cases (s : Session) (overrides : List (Text × Value)) :
    (∃ c reply, s.settings.current.override overrides = .ok c ∧ s.answer (.enterSettings overrides) = .ok reply ∧
      (s.after (.enterSettings overrides)).settings = ⟨c, s.settings.current :: s.settings.outer⟩) ∨
    ∃ f, s.settings.current.override overrides = .error f ∧
      s.answer (.enterSettings overrides) = .error (.ofOverride f) ∧ s.after (.enterSettings overrides) = s := by
  have hafter : s.after (.enterSettings overrides) = (s.effect (.enterSettings overrides)).session :=
    after_of_silent (messages_become s _)
  have hanswer : s.answer (.enterSettings overrides) = (s.effect (.enterSettings overrides)).answer := rfl
  have heffect : s.effect (.enterSettings overrides) =
      s.become (s.settings.enter overrides >>= fun scope => pure (s.withSettings scope)) := rfl
  rw [hafter, hanswer, heffect, Scope.enter]
  cases s.settings.current.override overrides with
  | ok c => exact .inl ⟨c, _, rfl, rfl, rfl⟩
  | error f => exact .inr ⟨f, rfl, rfl, rfl⟩

lemma enter_eq_ok {reply : Answer} (h : s.answer (.enterSettings overrides) = .ok reply) :
    ∃ c, s.settings.current.override overrides = .ok c ∧
      (s.after (.enterSettings overrides)).settings = ⟨c, s.settings.current :: s.settings.outer⟩ := by
  rcases enter_cases s overrides with ⟨c, -, hc, -, hsettings⟩ | ⟨f, -, hanswer, -⟩
  · exact ⟨c, hc, hsettings⟩
  · rw [hanswer] at h
    cases h

lemma enter_eq_error {fault : Failure} (h : s.answer (.enterSettings overrides) = .error fault) :
    s.after (.enterSettings overrides) = s ∧
      ∃ f, s.settings.current.override overrides = .error f ∧ fault = .ofOverride f := by
  rcases enter_cases s overrides with ⟨c, reply, -, hanswer, -⟩ | ⟨f, hf, hanswer, hsame⟩
  · rw [hanswer] at h
    cases h
  · exact ⟨hsame, f, hf, Except.error.inj (h.symm.trans hanswer)⟩

lemma settings_leave (s : Session) : (s.after .leaveSettings).settings = s.settings.leave := rfl

end Steps

/-- Behind well-nested actions the outer settings are those in front of them. -/
theorem Nested.outer {actions : List Action} (h : Nested s actions u) : u.settings.outer = s.settings.outer := by
  induction h with
  | done => rfl
  | plain enters leaves _ ih => exact ih.trans (outer_after enters leaves)
  | refused refusal _ ih =>
    rw [(enter_eq_error refusal).1] at ih
    exact ih
  | @context s t u overrides reply inner rest entry _ _ ihbody ihnext =>
    obtain ⟨c, -, hentered⟩ := enter_eq_ok entry
    rw [ihnext, settings_leave, Scope.leave, ihbody, hentered]

/-- Contexts of settings give back what they found. An entry that fails changes nothing, and fails because of a name that
no setting has or because a setting would not pass its check. Just behind an entry the overridden settings have their
checked values, which no environment can change: for a level the name without blanks around it and in capitals, for a
content type the text itself, and for a truth value that one, or the one that a word means. The others are as they were.
Whatever well-nested actions follow, leaving the context restores all settings. -/
theorem settings_of_contexts (s : Session) (overrides : List (Text × Value)) :
    (∀ fault, s.answer (.enterSettings overrides) = .error fault →
      s.after (.enterSettings overrides) = s ∧
      (fault.kind = .type ∧ (∃ e ∈ overrides, ∀ setting : Setting, e.1 ≠ setting.name) ∨
        fault.kind = .validation ∧ ∃ setting f,
          check setting ((last? overrides setting).getD (s.settings.current.get setting)) = .error f)) ∧
    ∀ reply, s.answer (.enterSettings overrides) = .ok reply →
      (∀ e ∈ overrides, ∃ setting : Setting, e.1 = setting.name) ∧
      (∀ setting v, last? overrides setting = some v →
        check setting v = .ok ((s.after (.enterSettings overrides)).settings.current.get setting)) ∧
      (∀ name, last? overrides .logLevel = some (.text name) →
        (s.after (.enterSettings overrides)).settings.current.logLevel = .text (Text.upper (Text.strip name))) ∧
      (∀ text, last? overrides .contentType = some (.text text) →
        text ≠ [] ∧ (s.after (.enterSettings overrides)).settings.current.contentType = .text text) ∧
      (∀ b, last? overrides .pretty = some (.bool b) →
        (s.after (.enterSettings overrides)).settings.current.pretty = .bool b) ∧
      (∀ text, last? overrides .pretty = some (.text text) →
        Text.lowerLetters text ∈ (["1", "on", "t", "true", "y", "yes"] : List Text) ∧
            (s.after (.enterSettings overrides)).settings.current.pretty = .bool true ∨
          Text.lowerLetters text ∈ (["0", "off", "f", "false", "n", "no"] : List Text) ∧
            (s.after (.enterSettings overrides)).settings.current.pretty = .bool false) ∧
      (∀ setting, last? overrides setting = none →
        (s.after (.enterSettings overrides)).settings.current.get setting = s.settings.current.get setting) ∧
      (∀ environment, ∃ checked, make environment (s.settings.current.keywords ++ overrides) = .ok checked ∧
        ∀ setting v, last? overrides setting = some v →
          (s.after (.enterSettings overrides)).settings.current.get setting = checked.get setting) ∧
      ∀ actions u, Nested (s.after (.enterSettings overrides)) actions u →
        (u.after .leaveSettings).settings = s.settings := by
  refine ⟨fun fault hfault => ?_, fun reply hreply => ?_⟩
  · obtain ⟨hsame, f, hoverride, rfl⟩ := enter_eq_error hfault
    refine ⟨hsame, ?_⟩
    rcases override_eq_error hoverride with ⟨⟨names, rfl⟩, hunknown⟩ | ⟨⟨faults, rfl⟩, hinvalid⟩
    · exact .inl ⟨rfl, hunknown⟩
    · exact .inr ⟨rfl, hinvalid⟩
  · obtain ⟨c, hoverride, hentered⟩ := enter_eq_ok hreply
    obtain ⟨hknown, checked, hvalid, hvalues⟩ := override_eq_ok hoverride
    -- what is stated is assigned as it was checked
    have hchecked (setting : Setting) (v : Value) (hv : last? overrides setting = some v) :
        check setting v = .ok (c.get setting) := by
      have hown := validate_eq_ok.mp hvalid setting
      rw [get_assign, hv] at hown
      rw [hvalues, hv]
      exact hown
    rw [hentered]
    refine ⟨hknown, hchecked, fun name hname => ((checkLevel_text name).mp (hchecked .logLevel _ hname)).2,
      fun text htext => (checkContentType_text text).mp (hchecked .contentType _ htext),
      fun b hb => (Except.ok.inj (hchecked .pretty _ hb)).symm,
      fun text htext => (checkBoolean_text text).mp (hchecked .pretty _ htext), fun setting hnone => ?_,
      fun environment => ?_, fun actions u hnested => ?_⟩
    · show c.get setting = _
      rw [hvalues, hnone]
      rfl
    · refine ⟨checked, (make_keywords _ environment hknown).trans hvalid, fun setting v hv => ?_⟩
      show c.get setting = _
      rw [hvalues, hv]
      rfl
    · rw [settings_leave, Scope.leave, hnested.outer, hentered]

/-- Inside a context a level is assigned that is none, so that an inner context cannot be entered; leaving the outer
one restores all settings. -/
theorem settings_of_contexts_refused :
    let s : Session := {}
    let t := s.after (.enterSettings [("log_level", .text " debug ")])
    t.settings.current.logLevel = .text "DEBUG" ∧
      ∃ u, Nested t [.assignSetting "log_level" (.text "loud"), .enterSettings [("pretty", .bool true)]] u ∧
        u.settings.current.logLevel = .text "loud" ∧ (u.after .leaveSettings).settings = s.settings := by
  intro s t
  have hentered : ∃ reply, s.answer (.enterSettings [("log_level", .text " debug ")]) = .ok reply := ⟨_, rfl⟩
  obtain ⟨reply, hreply⟩ := hentered
  obtain ⟨-, -, hlevel, -, -, -, -, -, hleave⟩ := (settings_of_contexts s _).2 reply hreply
  have hrefused : ∃ fault, (t.after (.assignSetting "log_level" (.text "loud"))).answer
      (.enterSettings [("pretty", .bool true)]) = .error fault := ⟨_, rfl⟩
  obtain ⟨fault, hfault⟩ := hrefused
  have hnested : Nested t [.assignSetting "log_level" (.text "loud"), .enterSettings [("pretty", .bool true)]] _ :=
    .plain nofun nofun (.refused hfault (.done _))
  exact ⟨hlevel " debug " rfl, _, hnested, by rfl, hleave _ _ hnested⟩

end DocPath.Session
