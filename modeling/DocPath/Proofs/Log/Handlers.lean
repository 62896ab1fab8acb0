import DocPath.Proofs.Session

/-! The handlers of the logger over the run of a session: from the first call on there is one, it prints on the console
that was passed last, and every message that the level of the last call lets through is printed there once. -/

namespace DocPath

namespace Log

/-- The levels that can be set. -/
def ranks : List (Text × Int) := [("DEBUG", 10), ("INFO", 20), ("WARNING", 30), ("ERROR", 40), ("CRITICAL", 50)]

/-- A text without controls and tabs stands in a line as it is. -/
def Sober (t : Text) : Prop := ∀ c ∈ t, isControl c = false ∧ c ≠ CodePoint.ofChar '\t'

/-- The console writes lines as they are, each one behind those before it. -/
def Printing.Writes (printing : Printing) (target : Target) (lines : List Text) : Prop :=
  ∀ earlier line later, lines = earlier ++ line :: later → printing target earlier line = some line

section Lines

variable {rank : Text} {level : Int} {t u : Text}

lemma of_mem_ranks (h : (rank, level) ∈ ranks) :
    levelOf (.text rank) = .ok level ∧ levelName level = rank ∧ 0 < level := by
  have hall : ∀ p ∈ ranks, levelOf (.text p.1) = .ok p.2 ∧ levelName p.2 = p.1 ∧ 0 < p.2 := by decide +kernel
  exact hall _ h

lemma sober_of_mem_ranks (h : (rank, level) ∈ ranks) :
    Sober (.concat [.concat ["[", rank, "] "], .concat [Logger.name, ": "]]) := by
  have hall : ∀ p ∈ ranks, (Text.concat [.concat ["[", p.1, "] "], .concat [Logger.name, ": "]]).all fun c =>
      !isControl c && c != CodePoint.ofChar '\t' := by decide
  exact fun c hc => by simpa using List.all_eq_true.mp (hall _ h) c hc

lemma Sober.expandTabsFrom (h : Sober t) (column : Nat) : Text.expandTabsFrom column t = t := by
  induction t generalizing column with
  | nil => rfl
  | cons c rest ih =>
    obtain ⟨⟨-, hc⟩, hrest⟩ := List.forall_mem_cons.mp h
    rw [Text.expandTabsFrom, if_neg hc, ih hrest, ih hrest]
    split_ifs <;> rfl

lemma Sober.filter (h : Sober t) : t.filter (!isControl ·) = t := List.filter_eq_self.mpr fun c hc => by simp [(h c hc).1]

/-- Without colours a line is the level in brackets, the name of the logger and the text. -/
lemma line_plain (h : (rank, level) ∈ ranks) (ht : Sober t) :
    line false Logger.name level t = .concat ["[", rank, "] objpath: ", t, "\n"] := by
  have hwhole : Sober (.concat [.concat ["[", rank, "] "], .concat [Logger.name, ": "], t]) := by
    have htag := sober_of_mem_ranks h
    simp only [Sober, Text.concat, List.flatten_cons, List.flatten_nil, List.append_nil, List.forall_mem_append] at htag ht ⊢
    exact ⟨htag.1, htag.2, ht⟩
  simp only [line, (of_mem_ranks h).2.1, ht.filter]
  rw [Text.expandTabs, hwhole.expandTabsFrom]
  have hbody : (Text.concat [.concat ["[", rank, "] "], .concat [Logger.name, ": "], t]).drop
      ((Text.concat ["[", rank, "] "]).length + (Text.concat [Logger.name, ": "]).length) = t := by
    rw [← List.length_append]
    have happend : Text.concat [.concat ["[", rank, "] "], .concat [Logger.name, ": "], t] =
        (Text.concat ["[", rank, "] "] ++ Text.concat [Logger.name, ": "]) ++ t := by
      simp only [Text.concat, List.flatten_cons, List.flatten_nil, List.append_nil, List.append_assoc]
    rw [happend, List.drop_left]
  rw [hbody]
  cases levelStyle? level <;> simp [Text.concat] <;> rfl

end Lines

namespace Logger

variable {l : Logger} {level : Int}

section Emitting

variable {o : Output} {target : Target} {entries : List (Target × Record)}

/-- The line that a record is printed as, if it has a text. -/
def lineOf (target : Target) (r : Record) : Option (Target × Text) :=
  r.text.map fun t => (target, line target.colored name r.level t)

lemma output_emit (o : Output) (target : Target) (r : Record) :
    (emit o target r).1 = { o with printed := o.printed ++ (lineOf target r).toList } := by
  rw [emit, lineOf]
  cases r.text with
  | none => simp
  | some t => rfl

lemma output_emitAll (o : Output) (entries : List (Target × Record)) :
    (emitAll o entries).1 = { o with printed := o.printed ++ entries.flatMap fun e => (lineOf e.1 e.2).toList } := by
  induction entries generalizing o with
  | nil => simp [emitAll]
  | cons e rest ih =>
    show (emitAll (emit o e.1 e.2).1 rest).1 = _
    rw [ih, output_emit]
    simp

lemma linesOn_append (o : Output) (target : Target) (more : List (Target × Text)) :
    { o with printed := o.printed ++ more }.linesOn target =
      o.linesOn target ++ more.filterMap fun p => if p.1 = target then some p.2 else none :=
  List.filterMap_append

lemma linesOn_emitAll (o : Output) (target : Target) (entries : List (Target × Record)) :
    o.linesOn target <+: (emitAll o entries).1.linesOn target := by
  rw [output_emitAll, linesOn_append]
  exact List.prefix_append ..

/-- Along the records the console has written all lines so far. -/
lemma written_emitAll {records : List Record}
    (h : o.printing.Writes target ((emitAll o (records.map (target, ·))).1.linesOn target)) :
    (emitAll o (records.map (target, ·))).2 =
      records.map fun r => (lineOf target r).getD (.standardError, reportText) := by
  induction records generalizing o with
  | nil => rfl
  | cons r rest ih =>
    have hprinting : (emit o target r).1.printing = o.printing := by rw [output_emit]
    have hrest := ih (o := (emit o target r).1) (hprinting ▸ h)
    show (emit o target r).2 :: (emitAll (emit o target r).1 (rest.map (target, ·))).2 = _
    rw [hrest, List.map_cons]
    congr 1
    cases ht : r.text with
    | none => rw [emit, lineOf, ht]; rfl
    | some t =>
      obtain ⟨later, hlater⟩ := linesOn_emitAll (emit o target r).1 target (rest.map (target, ·))
      have hline : o.printing target (o.linesOn target) (line target.colored name r.level t) =
          some (line target.colored name r.level t) := by
        refine h _ _ later ?_
        show (emitAll (emit o target r).1 (rest.map (target, ·))).1.linesOn target = _
        rw [← hlater, output_emit, linesOn_append, lineOf, ht]
        simp
      rw [emit, lineOf, ht]
      simp [Output.print, hline]

end Emitting

/-- The one handler that is left behind a call writes to the console that was passed last. -/
lemma targets_attach {history : List Target}
    (h : l.targets = [] ∧ history = [] ∨ l.targets = [history.getLast?.getD .standardError]) (console : Option Target) :
    (l.attach console).targets = [(history ++ console.toList).getLast?.getD .standardError] := by
  rcases h with ⟨htargets, rfl⟩ | htargets
  · cases console <;> simp [attach, htargets]
  · cases console <;> simp [attach, htargets]

lemma targets_configure (l : Logger) (console : Option Target) (v : Value) :
    (l.configure console v).1.targets = (l.attach console).targets := by
  rw [configure]
  cases levelOf v <;> rfl

lemma level_configure {v : Value} (h : levelOf v = .ok level) (console : Option Target) :
    (l.configure console v).1.level = level := by
  rw [configure, h]

lemma accepts_iff (hl : l.level = level) (hpositive : 0 < level) (n : Int) : l.accepts n = true ↔ level ≤ n := by
  rw [accepts, effectiveLevel, if_neg (by omega), hl]
  simp
  omega

/-- The records that one handler is given. -/
lemma records_eq (hl : l.level = level) (hpositive : 0 < level) (messages : List Session.Message) :
    (messages.filterMap fun m => l.record? m.level m.template m.values) = messages.flatMap fun m =>
      if level ≤ m.level then [⟨m.level, format? m.template m.values⟩] else [] := by
  rw [List.filterMap_eq_flatMap_toList]
  congr 1
  funext m
  rw [record?]
  by_cases h : level ≤ m.level
  · rw [if_pos h, if_pos ((accepts_iff hl hpositive m.level).mpr h)]
    rfl
  · rw [if_neg h, if_neg (mt (accepts_iff hl hpositive m.level).mp h)]
    rfl

end Logger

end Log

namespace Session

open Log

variable {s : Session} {a : Action} {actions : List Action} {history : List Target}

/-- The console that an action passes to the logger. -/
def passed? (s : Session) : Action → Option Target
  | .configureLogging console => console.map fun c => .console c.1 (s.colors c.1 c.2)
  | _ => none

/-- The consoles that actions pass to the logger, one after the other. -/
def passed (s : Session) : List Action → List Target
  | [] => []
  | a :: rest => (s.passed? a).toList ++ passed (s.after a) rest

lemma passed_append (s : Session) (actions more : List Action) :
    s.passed (actions ++ more) = s.passed actions ++ (s.afterAll actions).passed more := by
  induction actions generalizing s with
  | nil => rfl
  | cons a rest ih => simp [passed, ih]

lemma passed?_eq_none (h : ∀ console, a ≠ .configureLogging console) : s.passed? a = none := by
  cases a with
  | configureLogging console => exact absurd rfl (h console)
  | _ => rfl

lemma logger_configureLogging (s : Session) (console : Option (Text × Bool)) :
    (s.after (.configureLogging console)).logger =
      (s.logger.configure (s.passed? (.configureLogging console)) s.settings.current.logLevel).1 := by
  cases console <;> rfl

lemma logger_withSettings (s : Session) (outcome : Except Failure Scope) :
    (s.become (outcome >>= fun scope => pure (s.withSettings scope))).session.logger = s.logger := by
  cases outcome <;> rfl

/-- Only a call that is meant for it changes the logger. -/
lemma logger_after (h : ∀ console, a ≠ .configureLogging console) : (s.after a).logger = s.logger := by
  have hother (ha : a.concernsSurroundings = false) : (s.after a).logger = s.logger :=
    congrArg (·.logger) (surroundings_after s ha)
  cases a with
  | configureLogging console => exact absurd rfl (h console)
  | enterSettings overrides => exact logger_withSettings s _
  | assignSetting name v => exact logger_withSettings s _
  | leaveSettings => rfl
  | _ => exact hother rfl

/-- No handler is attached and no console was passed, or the only handler writes to the console that was passed last. -/
def Attached (s : Session) (history : List Target) : Prop :=
  s.logger.targets = [] ∧ history = [] ∨ s.logger.targets = [history.getLast?.getD .standardError]

lemma Attached.configure (h : Attached s history) (console : Option (Text × Bool)) :
    (s.after (.configureLogging console)).logger.targets =
      [(history ++ (s.passed? (.configureLogging console)).toList).getLast?.getD .standardError] := by
  rw [logger_configureLogging, Logger.targets_configure, Logger.targets_attach h]

lemma Attached.step (h : Attached s history) (a : Action) :
    Attached (s.after a) (history ++ (s.passed? a).toList) := by
  by_cases ha : ∃ console, a = .configureLogging console
  · obtain ⟨console, rfl⟩ := ha
    exact .inr (h.configure console)
  · have hother : ∀ console, a ≠ .configureLogging console := fun console heq => ha ⟨console, heq⟩
    rw [Attached, logger_after hother, passed?_eq_none hother, Option.toList_none, List.append_nil]
    exact h

lemma Attached.run (h : Attached s history) (actions : List Action) :
    Attached (s.afterAll actions) (history ++ s.passed actions) := by
  induction actions generalizing s history with
  | nil => simpa [passed] using h
  | cons a rest ih =>
    rw [passed, ← List.append_assoc]
    exact ih (h.step a)

lemma afterAll_unconfigured (h : ∀ console, .configureLogging console ∉ actions) :
    (s.afterAll actions).logger = s.logger ∧ s.passed actions = [] := by
  induction actions generalizing s with
  | nil => exact ⟨rfl, rfl⟩
  | cons a rest ih =>
    have ha : ∀ console, a ≠ .configureLogging console := fun console heq => h console (heq ▸ List.mem_cons_self)
    obtain ⟨hlogger, hpassed⟩ := ih (s := s.after a) fun console hmem => h console (List.mem_cons_of_mem a hmem)
    exact ⟨hlogger.trans (logger_after ha), by rw [passed, passed?_eq_none ha, hpassed]; rfl⟩

lemma output_step (s : Session) (a : Action) :
    let records := (s.effect a).messages.filterMap fun m => s.logger.record? m.level m.template m.values
    (s.after a).output = (s.logger.written s.output records).1 ∧
      (s.step a).2.written = (s.logger.written s.output records).2 := by
  intro records
  exact ⟨congrArg (fun o => (s.logger.written o records).1) (output_effect s a),
    congrArg (fun o => (s.logger.written o records).2) (output_effect s a)⟩

/-- What the messages of an action come to at the only handler: each one of the level or above is printed there once, and
so written if the console writes the lines that were printed on it. One whose template does not fit its values is
reported instead. -/
lemma written_of_one {level : Int} {target : Target} (hlogger : s.logger = ⟨level, [target]⟩) (hpositive : 0 < level)
    (a : Action) :
    (s.after a).output.printed = s.output.printed ++ ((s.effect a).messages.flatMap fun m =>
      if level ≤ m.level then (Logger.lineOf target ⟨m.level, format? m.template m.values⟩).toList else []) ∧
    (s.output.printing.Writes target ((s.after a).output.linesOn target) →
      (s.step a).2.written = (s.effect a).messages.flatMap fun m =>
        if level ≤ m.level then [(Logger.lineOf target ⟨m.level, format? m.template m.values⟩).getD
          (.standardError, Logger.reportText)] else []) := by
  have hrecords := Logger.records_eq (l := s.logger) (by rw [hlogger]) hpositive (s.effect a).messages
  have hentries (records : List Record) :
      (records.flatMap fun r => s.logger.targets.map (·, r)) = records.map (target, ·) := by
    rw [hlogger, List.map_eq_flatMap]
    rfl
  obtain ⟨hafter, hwritten⟩ := output_step s a
  rw [Logger.written, hrecords, hentries] at hafter hwritten
  constructor
  · rw [hafter, Logger.output_emitAll, List.flatMap_map, List.flatMap_assoc]
    refine congrArg (s.output.printed ++ ·) (congrArg (List.flatMap · _) (funext fun m => ?_))
    split_ifs <;> simp
  · intro hprints
    rw [hwritten, Logger.written_emitAll (hafter ▸ hprints), List.map_flatMap]
    refine congrArg (List.flatMap · _) (funext fun m => ?_)
    split_ifs <;> rfl

lemma printing_afterAll (s : Session) (actions : List Action) :
    (s.afterAll actions).output.printing = s.output.printing := by
  induction actions generalizing s with
  | nil => rfl
  | cons a rest ih =>
    rw [afterAll_cons, ih, (output_step s a).1, Logger.written, Logger.output_emitAll]

/-- Whatever is done to a session whose logger has no handler, from the first call on it has one handler, which prints on
the console that was passed last, or on the standard error stream while none was passed. The level of the logger is that
of the settings at the last call, and does not change with them. Of the messages of each action, every one of that level
or above is printed once, where the handler prints, and no other is; one whose template does not fit its values is
reported instead. What was printed is written if the console writes the lines that were printed on it. A message without
values is its own text, and without colours its line is the name of its level in brackets, the name of the logger and the
text. -/
theorem one_handler (s : Session) (hs : s.logger.targets = []) (before between : List Action)
    (console : Option (Text × Bool)) (hlast : ∀ console, .configureLogging console ∉ between) {name : Text} {level : Int}
    (hlevel : (s.afterAll before).settings.current.logLevel = .text name)
    (hname : (name, level) ∈
      [(Text.ofString "DEBUG", (10 : Int)), ("INFO", 20), ("WARNING", 30), ("ERROR", 40), ("CRITICAL", 50)]) :
    let actions := before ++ .configureLogging console :: between
    let t := s.afterAll actions
    let target := (s.passed actions).getLast?.getD .standardError
    let shown (m : Message) : Option (Target × Text) :=
      (format? m.template m.values).map fun text => (target, line target.colored "objpath" m.level text)
    t.logger = ⟨level, [target]⟩ ∧
      (∀ a, (t.after a).output.printed = t.output.printed ++
        (t.effect a).messages.flatMap fun m => if level ≤ m.level then (shown m).toList else []) ∧
      (∀ a, s.output.printing.Writes target ((t.after a).output.linesOn target) →
        (t.step a).2.written = (t.effect a).messages.flatMap fun m =>
          if level ≤ m.level then [(shown m).getD (.standardError, "<logging error>")] else []) ∧
      (∀ template, format? template [] = some template) ∧
      ∀ text, Sober text → line false "objpath" level text = .concat ["[", name, "] objpath: ", text, "\n"] := by
  intro actions t target shown
  obtain ⟨hlevelOf, -, hpositive⟩ := of_mem_ranks hname
  have hstart : Attached s [] := .inl ⟨hs, rfl⟩
  have hattached : Attached (s.afterAll before) (s.passed before) := hstart.run before
  set u := (s.afterAll before).after (.configureLogging console) with hu
  obtain ⟨hkept, hnone⟩ := afterAll_unconfigured (s := u) hlast
  have ht : t.logger = u.logger := by
    rw [← hkept, hu, ← afterAll_cons, ← afterAll_append]
  have htarget : u.logger.targets = [target] := by
    rw [hu, hattached.configure]
    have hpassed : s.passed actions =
        s.passed before ++ ((s.afterAll before).passed? (.configureLogging console)).toList := by
      rw [passed_append, passed, ← hu, hnone, List.append_nil]
    rw [← hpassed]
  have hset : u.logger.level = level := by
    rw [hu, logger_configureLogging, Logger.level_configure (hlevel ▸ hlevelOf)]
  have hlogger : t.logger = ⟨level, [target]⟩ := by rw [ht, ← hset, ← htarget]
  have hprinting : t.output.printing = s.output.printing := printing_afterAll s actions
  exact ⟨hlogger, fun a => (written_of_one hlogger hpositive a).1,
    fun a hwrites => (written_of_one hlogger hpositive a).2 (hprinting ▸ hwrites), fun _ => rfl,
    fun text htext => line_plain hname htext⟩

/-- The handler of the first call prints on the console of the second one, at the level of the context around that. -/
theorem one_handler_redirected :
    let t := afterAll {} [.configureLogging none, .enterSettings [("log_level", .text "info")],
      .configureLogging (some ("out", false)), .leaveSettings]
    t.logger = ⟨20, [.console "out" false]⟩ ∧
      (t.step (.log 20 "%s!" [.text "so"])).2.written =
        [(Target.console "out" false, Text.ofString "[INFO] objpath: so!\n")] ∧
      (t.step (.log 19 "%s!" [.text "so"])).2.written = [] := by
  intro t
  have hlevel : (afterAll {} [.configureLogging none, .enterSettings [("log_level", .text "info")]]
      ).settings.current.logLevel = .text "INFO" := by rfl
  have hinfo : (Text.ofString "INFO", (20 : Int)) ∈
      [(Text.ofString "DEBUG", (10 : Int)), ("INFO", 20), ("WARNING", 30), ("ERROR", 40), ("CRITICAL", 50)] := by decide
  obtain ⟨hlogger, -, hwritten, -, hline⟩ := one_handler {} rfl _ [.leaveSettings] (some ("out", false)) (by simp)
    hlevel hinfo
  have hso : Sober "so!" := fun c hc => by
    simpa using List.all_eq_true.mp (by decide : (Text.ofString "so!").all fun c =>
      !isControl c && c != CodePoint.ofChar '\t') c hc
  have hformat : format? "%s!" [.text "so"] = some "so!" := by decide +kernel
  refine ⟨hlogger, (hwritten (.log 20 "%s!" [.text "so"]) fun _ _ _ _ => rfl).trans ?_,
    hwritten (.log 19 "%s!" [.text "so"]) fun _ _ _ _ => rfl⟩
  show [((format? "%s!" [.text "so"]).map fun text =>
    (Target.console "out" false, line false "objpath" 20 text)).getD _] = _
  rw [hformat]
  exact congrArg (fun line => [(Target.console "out" false, line)]) ((hline _ hso).trans (by decide +kernel))

end Session

end DocPath
