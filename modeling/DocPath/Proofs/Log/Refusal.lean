import DocPath.Proofs.Config.Nesting
import DocPath.Proofs.Config.Sources
import DocPath.Proofs.Log.Handlers

/-! Calls that configure the logger and are refused: when this happens, and what they leave behind. The handler is seen to
before the level, so that a refused call keeps the level but not always the handler and its console. -/

namespace DocPath

open Log

/-- What can be set as a level: an integer, a truth value, or the name of a level. -/
def Value.IsLevel : Value → Prop
  | .int _ | .bool _ => True
  | .text name => name ∈ Log.levelNames.map (·.1)
  | _ => False

namespace Log

variable {v : Value}

lemma levelOf_isOk_iff : (∃ level, levelOf v = .ok level) ↔ v.IsLevel := by
  have hother (hint : ∀ i, v ≠ .int i) (hbool : ∀ b, v ≠ .bool b) (htext : ∀ t, v ≠ .text t) : ¬v.IsLevel := by
    intro h
    unfold Value.IsLevel at h
    split at h
    · exact hint _ rfl
    · exact hbool _ rfl
    · exact htext _ rfl
    · exact h
  fun_cases levelOf v with
  | case1 i => exact iff_of_true ⟨_, rfl⟩ trivial
  | case2 b => exact iff_of_true ⟨_, rfl⟩ trivial
  | case3 name level h => exact iff_of_true ⟨_, rfl⟩ (List.mem_map_of_mem (mem_of_lookup h))
  | case4 name h =>
    refine iff_of_false nofun fun hname => ?_
    obtain ⟨e, he, rfl⟩ := List.mem_map.mp hname
    simpa using List.lookup_eq_none_iff.mp h e he
  | case5 _ hint hbool htext => exact iff_of_false nofun (hother hint hbool htext)
  | case6 _ hint hbool htext => exact iff_of_false nofun (hother hint hbool htext)

namespace Logger

variable {l : Logger} {console : Option Target}

lemma level_attach : (l.attach console).level = l.level := by
  fun_cases attach l console <;> rfl

lemma attach_none {target : Target} (h : l.targets = [target]) : l.attach none = l := by
  obtain ⟨level, targets⟩ := l
  obtain rfl : targets = [target] := h
  rfl

/-- Where the handler writes behind a call: to the console, or else where it did, or else to the standard error stream. -/
lemma targets_attach_of_one {old : Option Target} (h : l.targets = old.toList) :
    (l.attach console).targets = [(console.or old).getD .standardError] := by
  cases old <;> cases console <;> simp_all [attach]

end Logger

lemma isLevel_of_checked (h : Config.Checked .logLevel v) : v.IsLevel := by
  obtain ⟨name, hname, rfl⟩ := h
  have hall : ∀ name ∈ Config.levelNames, name ∈ levelNames.map (·.1) := by decide
  exact hall name hname

end Log

/-- In every context of a scope the logger can be configured. -/
def Scope.Levelled (scope : Scope) : Prop := ∀ c ∈ scope.current :: scope.outer, c.logLevel.IsLevel

namespace Scope.Levelled

open Config

variable {scope scope' : Scope} {overrides : List (Text × Value)} {name : Text} {v : Value}

lemma initial : Levelled {} := by
  intro c hc
  obtain rfl := List.mem_singleton.mp hc
  exact isLevel_of_checked ⟨"WARNING", by decide, rfl⟩

lemma enter (h : scope.Levelled) (henter : scope.enter overrides = .ok scope') : scope'.Levelled := by
  rw [Scope.enter] at henter
  split at henter
  · next c hc =>
    obtain rfl := Except.ok.inj henter
    obtain ⟨-, checked, hvalid, hvalues⟩ := override_eq_ok hc
    refine List.forall_mem_cons.mpr ⟨?_, h⟩
    show (c.get .logLevel).IsLevel
    rw [hvalues]
    split_ifs
    · exact isLevel_of_checked (checked_of_check (validate_eq_ok.mp hvalid .logLevel))
    · exact h _ List.mem_cons_self
  · cases henter

lemma leave (h : scope.Levelled) : scope.leave.Levelled := by
  obtain ⟨current, outer⟩ := scope
  cases outer with
  | nil => exact h
  | cons c rest => exact fun c' hc' => h c' (List.mem_cons_of_mem _ hc')

lemma assign (h : scope.Levelled) (hassign : scope.assign name v = .ok scope')
    (hv : name = Setting.name .logLevel → v.IsLevel) : scope'.Levelled := by
  obtain ⟨hcurrent, houter⟩ := List.forall_mem_cons.mp h
  rw [Scope.assign, assignOne?] at hassign
  split at hassign
  · next c hc =>
    obtain rfl := Except.ok.inj hassign
    refine List.forall_mem_cons.mpr ⟨?_, houter⟩
    split at hc
    · next setting hsetting =>
      obtain rfl := Option.some.inj hc
      show (Config.get _ .logLevel).IsLevel
      rw [get_set]
      split_ifs with hlevel
      · exact hv (hlevel ▸ Setting.named?_eq_some.mp hsetting)
      · exact hcurrent
    · split_ifs at hc
      obtain rfl := Option.some.inj hc
      exact hcurrent
  · cases hassign

end Scope.Levelled

namespace Session

open Config

variable {s : Session} {a : Action} {actions : List Action}

section Calls

variable {console : Option (Text × Bool)}

lemma answer_configureLogging (s : Session) (console : Option (Text × Bool)) :
    s.answer (.configureLogging console) = ((levelOf s.settings.current.logLevel).mapError .level).map fun level =>
      .logger { s.logger.attach (s.passed? (.configureLogging console)) with level := level } := by
  show (s.configureLogging console).answer = _
  cases console <;> simp only [configureLogging, Logger.configure] <;>
    cases levelOf s.settings.current.logLevel <;> rfl

/-- A call is refused exactly if the level in the settings is none. -/
lemma refused_iff : (∃ fault, s.answer (.configureLogging console) = .error fault) ↔
    ¬s.settings.current.logLevel.IsLevel := by
  rw [answer_configureLogging, ← levelOf_isOk_iff]
  cases levelOf s.settings.current.logLevel with
  | ok level => exact iff_of_false (by rintro ⟨fault, h⟩; cases h) fun h => h ⟨level, rfl⟩
  | error fault => exact iff_of_true ⟨_, rfl⟩ (by rintro ⟨level, h⟩; cases h)

lemma logger_of_refused (h : ¬s.settings.current.logLevel.IsLevel) :
    (s.after (.configureLogging console)).logger = s.logger.attach (s.passed? (.configureLogging console)) := by
  rw [logger_configureLogging, Logger.configure]
  cases hlevel : levelOf s.settings.current.logLevel with
  | ok level => exact absurd (levelOf_isOk_iff.mp ⟨level, hlevel⟩) h
  | error fault => rfl

end Calls

lemma settings_become (s : Session) (outcome : Except Failure Scope) :
    let t := (s.become (outcome >>= fun scope => pure (s.withSettings scope))).session
    t.settings = s.settings ∨ outcome = .ok t.settings := by
  cases outcome with
  | ok scope => exact .inr rfl
  | error fault => exact .inl rfl

/-- Only a value that is assigned unchecked can make the logger refuse its level. -/
lemma levelled_after (h : s.settings.Levelled)
    (ha : ∀ v, a = .assignSetting (Setting.name .logLevel) v → v.IsLevel) : (s.after a).settings.Levelled := by
  have hother (ha : a.concernsSurroundings = false) : (s.after a).settings.Levelled := by
    have hsame : (s.after a).settings = s.settings := congrArg Surroundings.settings (surroundings_after s ha)
    rwa [hsame]
  cases a with
  | configureLogging console => exact (settings_configureLogging s console).symm ▸ h
  | enterSettings overrides =>
    rcases settings_become s (s.settings.enter overrides) with hsame | henter
    · exact hsame.symm ▸ h
    · exact h.enter henter
  | leaveSettings => exact h.leave
  | assignSetting name v =>
    rcases settings_become s (s.settings.assign name v) with hsame | hassign
    · exact hsame.symm ▸ h
    · exact h.assign hassign fun hname => ha v (hname ▸ rfl)
  | _ => exact hother rfl

lemma levelled_afterAll (h : s.settings.Levelled)
    (hassigned : ∀ v, .assignSetting (Setting.name .logLevel) v ∈ actions → v.IsLevel) :
    (s.afterAll actions).settings.Levelled := by
  induction actions generalizing s with
  | nil => exact h
  | cons a rest ih =>
    refine ih (levelled_after h fun v ha => hassigned v (ha ▸ List.mem_cons_self)) fun v hv => ?_
    exact hassigned v (List.mem_cons_of_mem a hv)

/-- In whatever state a session is, a call that configures the logger is refused exactly if the level in the settings is
none. The level of the logger is then as it was. So are the handler and its console if there was a handler and no console
was passed; a handler that was missing is attached, and a console that was passed takes the place of the other. Nothing
of the kind happens unless something that is no level was assigned to the setting unchecked. -/
theorem configure_refused (level : Int) (actions : List Action) (console : Option (Text × Bool)) :
    let s := afterAll { logger := ⟨level, []⟩ } actions
    let t := s.after (.configureLogging console)
    ((∃ fault, s.answer (.configureLogging console) = .error fault) ↔ ¬s.settings.current.logLevel.IsLevel) ∧
    ((∃ fault, s.answer (.configureLogging console) = .error fault) →
      t.logger.level = s.logger.level ∧
      (∃ old : Option Target, s.logger.targets = old.toList ∧
        t.logger.targets = [((s.passed? (.configureLogging console)).or old).getD .standardError]) ∧
      (s.logger.targets ≠ [] → console = none → t.logger = s.logger)) ∧
    ((∀ v, .assignSetting (Setting.name .logLevel) v ∈ actions → v.IsLevel) →
      ∃ reply, s.answer (.configureLogging console) = .ok reply) := by
  intro s t
  refine ⟨refused_iff, fun hrefused => ?_, fun hassigned => ?_⟩
  · have hlogger : t.logger = s.logger.attach (s.passed? (.configureLogging console)) :=
      logger_of_refused (refused_iff.mp hrefused)
    have hstart : Attached { logger := ⟨level, []⟩ } [] := .inl ⟨rfl, rfl⟩
    obtain ⟨old, hold⟩ : ∃ old : Option Target, s.logger.targets = old.toList := by
      rcases hstart.run actions with ⟨hnone, -⟩ | hone
      · exact ⟨none, hnone⟩
      · exact ⟨some _, hone⟩
    rw [hlogger]
    refine ⟨Logger.level_attach, ⟨old, hold, Logger.targets_attach_of_one hold⟩, fun hsome hnone => ?_⟩
    subst hnone
    cases old with
    | none => exact absurd hold hsome
    | some target => exact Logger.attach_none hold
  · have hlevelled : s.settings.Levelled := levelled_afterAll .initial hassigned
    have hlevel := hlevelled _ List.mem_cons_self
    cases hanswer : s.answer (.configureLogging console) with
    | ok reply => exact ⟨reply, rfl⟩
    | error fault => exact absurd hlevel (refused_iff.mp ⟨fault, hanswer⟩)

/-- A level that is none is assigned before the first call. -/
theorem handler_of_refused :
    let s := afterAll {} [.assignSetting "log_level" (.text "loud")]
    (∃ fault, s.answer (.configureLogging none) = .error fault) ∧ s.logger.targets = [] ∧
      (s.after (.configureLogging none)).logger.targets = [.standardError] := by
  exact ⟨⟨_, rfl⟩, rfl, rfl⟩

end Session

end DocPath
