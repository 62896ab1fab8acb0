import DocPath.Proofs.Config.Override

/-! Where settings come from: a keyword, or else a variable of the environment, or else the defaults. Settings that were
made are in a normal form, which every environment gives back when they are handed on as keywords. -/

namespace DocPath.Config

variable {c : Config} {s : Setting} {v w : Value} {environment : List (Text × Text)} {given : List (Text × Value)}

section Environment

/-- The variables of a setting have its name behind the prefix, in any case of letters. -/
lemma ofVariable?_eq_some {name : Text} :
    ofVariable? name = some s ↔ Text.lowerLetters name = environmentPrefix ++ s.name := by
  rw [ofVariable?]
  constructor
  · intro h
    split_ifs at h with hprefix
    obtain ⟨rest, hrest⟩ := List.isPrefixOf_iff_prefix.mp hprefix
    rw [← hrest, List.drop_left, Setting.named?_eq_some] at h
    rw [← hrest, h]
  · intro h
    have hprefix : (Text.lowerLetters name).startsWith environmentPrefix = true :=
      List.isPrefixOf_iff_prefix.mpr ⟨s.name, h.symm⟩
    rw [if_pos hprefix, h, List.drop_left, Setting.named?_eq_some]

/-- What the variable of a setting holds. Of variables whose names differ in the case of letters only, the last counts. -/
def held? (t : Table Text) (s : Setting) : Option Text :=
  (t.reverse.find? fun e => Text.lowerLetters e.1 == environmentPrefix ++ s.name).map (·.2)

lemma held?_concat (t : Table Text) (e : Text × Text) (s : Setting) :
    held? (t ++ [e]) s = if Text.lowerLetters e.1 = environmentPrefix ++ s.name then some e.2 else held? t s := by
  rw [held?, List.reverse_append, List.reverse_singleton, List.singleton_append, List.find?_cons]
  split_ifs with h
  · rw [beq_iff_eq.mpr h]
    rfl
  · rw [beq_false_of_ne h]
    rfl

lemma get_readEnvironment (c : Config) (t : Table Text) (s : Setting) :
    (c.readEnvironment t).get s = ((held? t s).map Value.text).getD (c.get s) := by
  induction t using List.reverseRecOn with
  | nil => rfl
  | append_singleton t e ih =>
    rw [readEnvironment, List.foldl_append, List.foldl_cons, List.foldl_nil, ← readEnvironment, held?_concat]
    by_cases hs : Text.lowerLetters e.1 = environmentPrefix ++ s.name
    · rw [if_pos hs, ofVariable?_eq_some.mpr hs]
      exact (get_set _ s s _).trans (if_pos rfl)
    · rw [if_neg hs, ← ih]
      cases hof : ofVariable? e.1 with
      | none => rfl
      | some s' =>
        have hne : s ≠ s' := fun heq => hs (ofVariable?_eq_some.mp (heq ▸ hof))
        exact (get_set _ s' s _).trans (if_neg hne)

end Environment

/-- What a setting is where nothing else is said. -/
def fallback : Setting → Value
  | .contentType => .text "application/json"
  | .pretty => .bool false
  | .logLevel => .text "WARNING"

/-- Where the value of a setting is taken from: its keyword, or else its variable, or else the defaults. -/
def source (environment : List (Text × Text)) (given : List (Text × Value)) (s : Setting) : Value :=
  match last? given s, held? (Table.ofEntries environment) s with
  | some v, _ => v
  | none, some t => .text t
  | none, none => fallback s

/-- Keywords that are texts and truth values leave nothing else to take. -/
lemma source_plain (hplain : ∀ e ∈ given, (∃ t, e.2 = .text t) ∨ ∃ b, e.2 = .bool b) (s : Setting) :
    (∃ t, source environment given s = .text t) ∨ ∃ b, source environment given s = .bool b := by
  rw [source]
  cases hlast : last? given s with
  | some v => exact hplain _ (List.mem_reverse.mp (mem_of_lookup hlast))
  | none =>
    cases held? (Table.ofEntries environment) s with
    | some t => exact .inl ⟨t, rfl⟩
    | none =>
      cases s with
      | pretty => exact .inr ⟨false, rfl⟩
      | contentType | logLevel => exact .inl ⟨_, rfl⟩

/-- Settings are made exactly if each of them passes its check, wherever it is taken from. -/
lemma make_eq_ok (hknown : ∀ e ∈ given, ∃ s : Setting, e.1 = s.name) :
    make environment given = .ok c ↔ ∀ s, check s (source environment given s) = .ok (c.get s) := by
  rw [make, validate_eq_ok]
  refine forall_congr' fun s => ?_
  rw [get_readKeywords_ofEntries _ hknown, get_readEnvironment, source]
  cases last? given s with
  | some v => rfl
  | none => cases held? (Table.ofEntries environment) s <;> cases s <;> rfl

/-- The values that a setting can have behind its check. -/
def Checked : Setting → Value → Prop
  | .contentType, v => ∃ t, t ≠ [] ∧ v = .text t
  | .pretty, v => ∃ b, v = .bool b
  | .logLevel, v => ∃ name ∈ levelNames, v = .text name

section Checked

lemma checked_of_checkText {t : Text} (h : checkText t = .ok w) : Checked .contentType w := by
  rw [checkText] at h
  split_ifs at h with hempty
  exact ⟨t, fun hnil => hempty (hnil ▸ rfl), (Except.ok.inj h).symm⟩

lemma checked_of_checkWord {t : Text} (h : checkWord t = .ok w) : Checked .pretty w := by
  simp only [checkWord] at h
  split_ifs at h
  all_goals exact ⟨_, (Except.ok.inj h).symm⟩

lemma checked_of_checkInteger {i : Int} (h : checkInteger i = .ok w) : Checked .pretty w := by
  rw [checkInteger] at h
  split_ifs at h
  all_goals exact ⟨_, (Except.ok.inj h).symm⟩

lemma checked_of_checkContentType (h : checkContentType v = .ok w) : Checked .contentType w := by
  unfold checkContentType at h
  split at h
  · exact checked_of_checkText h
  · split at h
    · exact checked_of_checkText h
    · cases h
  · split at h
    · exact checked_of_checkText h
    · cases h
  · cases h

lemma checked_of_checkBoolean (h : checkBoolean v = .ok w) : Checked .pretty w := by
  unfold checkBoolean at h
  split at h
  · exact ⟨_, (Except.ok.inj h).symm⟩
  · exact checked_of_checkWord h
  · split at h
    · exact checked_of_checkWord h
    · cases h
  · split at h
    · exact checked_of_checkInteger h
    · cases h
  · cases h

lemma checked_of_checkLevel (h : checkLevel v = .ok w) : Checked .logLevel w := by
  unfold checkLevel at h
  split at h
  · next t => exact ⟨_, (checkLevel_text t).mp h⟩
  · cases h

lemma checked_of_check (h : check s v = .ok w) : Checked s w := by
  cases s with
  | contentType => exact checked_of_checkContentType h
  | pretty => exact checked_of_checkBoolean h
  | logLevel => exact checked_of_checkLevel h

/-- What has passed a check passes it again, unchanged. -/
lemma check_of_checked (h : Checked s v) : check s v = .ok v := by
  cases s with
  | contentType =>
    obtain ⟨t, hne, rfl⟩ := h
    show checkText t = _
    rw [checkText, List.isEmpty_eq_false_iff.mpr hne]
    rfl
  | pretty =>
    obtain ⟨b, rfl⟩ := h
    rfl
  | logLevel =>
    obtain ⟨name, hname, rfl⟩ := h
    have hall : ∀ name ∈ levelNames, checkLevel (.text name) = .ok (.text name) := by decide +kernel
    exact hall name hname

end Checked

/-- What a setting makes of a text or a truth value: content types are taken as they are, only words have a truth value,
and levels are named without blanks around them and in capitals. -/
inductive Takes : Setting → Value → Value → Prop
  | contentType {t : Text} (nonempty : t ≠ []) : Takes .contentType (.text t) (.text t)
  | truth (b : Bool) : Takes .pretty (.bool b) (.bool b)
  | yes {t : Text} (word : Text.lowerLetters t ∈ (["1", "on", "t", "true", "y", "yes"] : List Text)) : Takes .pretty (.text t) (.bool true)
  | no {t : Text} (word : Text.lowerLetters t ∈ (["0", "off", "f", "false", "n", "no"] : List Text)) : Takes .pretty (.text t) (.bool false)
  | level {t : Text} (name : Text.upper (Text.strip t) ∈ (["DEBUG", "INFO", "WARNING", "ERROR", "CRITICAL"] : List Text)) :
      Takes .logLevel (.text t) (.text (Text.upper (Text.strip t)))

lemma check_eq_ok_iff_takes (hplain : (∃ t, v = .text t) ∨ ∃ b, v = .bool b) : check s v = .ok w ↔ Takes s v w := by
  constructor
  · intro h
    rcases hplain with ⟨t, rfl⟩ | ⟨b, rfl⟩
    · cases s with
      | contentType =>
        obtain ⟨hne, rfl⟩ := (checkContentType_text t).mp h
        exact .contentType hne
      | pretty =>
        rcases (checkBoolean_text t).mp h with ⟨hword, rfl⟩ | ⟨hword, rfl⟩
        · exact .yes hword
        · exact .no hword
      | logLevel =>
        obtain ⟨hname, rfl⟩ := (checkLevel_text t).mp h
        exact .level hname
    · cases s with
      | pretty =>
        obtain rfl := Except.ok.inj h
        exact .truth b
      | contentType | logLevel => cases h
  · rintro (hne | b | hword | hword | hname)
    · exact (checkContentType_text _).mpr ⟨hne, rfl⟩
    · rfl
    · exact (checkBoolean_text _).mpr (.inl ⟨hword, rfl⟩)
    · exact (checkBoolean_text _).mpr (.inr ⟨hword, rfl⟩)
    · exact (checkLevel_text _).mpr ⟨hname, rfl⟩

/-- Settings are made exactly if every one of them passes its check: the value of its keyword if there is one, or else that
of its variable if that is set, or else its default. They have the values that the checks give, and it is known what these
are for texts and truth values: the content type is a text that is not empty, and the level is one of the names of
levels. Handed on as keywords they are made again as they are, in whatever environment. -/
theorem make_normal (environment : List (Text × Text)) {given : List (Text × Value)}
    (hknown : ∀ e ∈ given, ∃ s : Setting, e.1 = s.name) (c : Config) :
    (make environment given = .ok c ↔ ∀ s, check s (source environment given s) = .ok (c.get s)) ∧
    ((∀ e ∈ given, (∃ t, e.2 = .text t) ∨ ∃ b, e.2 = .bool b) →
      (make environment given = .ok c ↔
        Takes .contentType (source environment given .contentType) c.contentType ∧
        Takes .pretty (source environment given .pretty) c.pretty ∧
        Takes .logLevel (source environment given .logLevel) c.logLevel)) ∧
    (make environment given = .ok c →
      (∃ t, t ≠ [] ∧ c.contentType = .text t) ∧ (∃ b, c.pretty = .bool b) ∧
      (∃ name ∈ (["DEBUG", "INFO", "WARNING", "ERROR", "CRITICAL"] : List Text), c.logLevel = .text name) ∧
      ∀ other, make other c.keywords = .ok c) := by
  have hmakes : make environment given = .ok c ↔ ∀ s, check s (source environment given s) = .ok (c.get s) :=
    make_eq_ok hknown
  refine ⟨hmakes, fun hplain => ?_, fun hmade => ?_⟩
  · rw [hmakes]
    have htakes (s : Setting) : check s (source environment given s) = .ok (c.get s) ↔
        Takes s (source environment given s) (c.get s) := check_eq_ok_iff_takes (source_plain hplain s)
    constructor
    · exact fun h => ⟨(htakes _).mp (h _), (htakes _).mp (h _), (htakes _).mp (h _)⟩
    · rintro ⟨hcontentType, hpretty, hlevel⟩ s
      cases s with
      | contentType => exact (htakes _).mpr hcontentType
      | pretty => exact (htakes _).mpr hpretty
      | logLevel => exact (htakes _).mpr hlevel
  · have hchecked : ∀ s, Checked s (c.get s) := fun s => checked_of_check (hmakes.mp hmade s)
    have hagain (other : List (Text × Text)) : make other (c.keywords ++ []) = c.validate :=
      make_keywords c other (List.forall_mem_nil _)
    have hvalid : c.validate = .ok c := validate_eq_ok.mpr fun s => check_of_checked (hchecked s)
    refine ⟨hchecked .contentType, hchecked .pretty, hchecked .logLevel, fun other => ?_⟩
    rw [← c.keywords.append_nil, hagain, hvalid]

/-- The keyword hides a variable that is no truth value, and the settings do not notice an unknown level elsewhere. -/
theorem make_normal_hidden :
    let c : Config := ⟨.text "application/json", .bool true, .text "INFO"⟩
    make [("OBJPATH_PRETTY", "perhaps"), ("Objpath_Log_Level", " info ")] [("pretty", .text "Yes")] = .ok c ∧
      make [("OBJPATH_LOG_LEVEL", "loud")] c.keywords = .ok c := by
  intro c
  have hknown : ∀ e ∈ [(Text.ofString "pretty", Value.text "Yes")], ∃ s : Setting, e.1 = s.name :=
    List.forall_mem_singleton.mpr ⟨.pretty, rfl⟩
  obtain ⟨-, htakes, hnormal⟩ :=
    make_normal [("OBJPATH_PRETTY", "perhaps"), ("Objpath_Log_Level", " info ")] hknown c
  have hmade : make [("OBJPATH_PRETTY", "perhaps"), ("Objpath_Log_Level", " info ")] [("pretty", .text "Yes")] =
      .ok c := by
    refine (htakes (List.forall_mem_singleton.mpr (.inl ⟨_, rfl⟩))).mpr ⟨?_, ?_, ?_⟩
    · exact .contentType (by decide)
    · exact .yes (by decide)
    · exact .level (t := " info ") (by decide +kernel)
  exact ⟨hmade, (hnormal hmade).2.2.2 _⟩

end DocPath.Config
