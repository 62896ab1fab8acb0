import DocPath.Config
import DocPath.Proofs.Table
import DocPath.Proofs.Text

/-! What overriding does to each setting: when it is refused, which settings change, and why no environment has a
say in it. -/

namespace DocPath

lemma Setting.named?_eq_some {name : Text} {s : Setting} : named? name = some s ↔ name = s.name := by
  constructor
  · intro h
    rw [named?] at h
    have hname := List.find?_some h
    exact (beq_iff_eq.mp hname).symm
  · rintro rfl
    cases s <;> rfl

lemma Setting.name_injective {s s' : Setting} (h : s.name = s'.name) : s = s' :=
  Option.some.inj ((named?_eq_some.mpr rfl).symm.trans (named?_eq_some.mpr h))

lemma Setting.namedLoosely?_name (s : Setting) : namedLoosely? s.name = some s := by
  cases s <;> rfl

namespace Config

variable {c c' checked : Config} {s : Setting} {v : Value} {overrides : List (Text × Value)}

lemma get_set (c : Config) (s s' : Setting) (v : Value) : (c.set s v).get s' = if s' = s then v else c.get s' := by
  cases s <;> cases s' <;> rfl

@[ext] lemma ext_get (h : ∀ s, c.get s = c'.get s) : c = c' := by
  obtain ⟨a, b, d⟩ := c
  obtain ⟨a', b', d'⟩ := c'
  obtain rfl : a = a' := h .contentType
  obtain rfl : b = b' := h .pretty
  obtain rfl : d = d' := h .logLevel
  rfl

/-- The value that a setting is assigned last. -/
def last? (assigned : List (Text × Value)) (s : Setting) : Option Value := assigned.reverse.lookup s.name

lemma last?_concat (assigned : List (Text × Value)) (e : Text × Value) (s : Setting) :
    last? (assigned ++ [e]) s = if s.name = e.1 then some e.2 else last? assigned s := by
  rw [last?, List.reverse_append, List.reverse_singleton, List.singleton_append, Table.lookup_cons_ite]
  rfl

lemma get_assign (c : Config) (assigned : List (Text × Value)) (s : Setting) :
    (c.assign assigned).get s = (last? assigned s).getD (c.get s) := by
  induction assigned using List.reverseRecOn with
  | nil => rfl
  | append_singleton assigned e ih =>
    rw [last?_concat, assign, List.foldl_append, List.foldl_cons, List.foldl_nil]
    cases hn : Setting.named? e.1 with
    | none =>
      have hne : s.name ≠ e.1 := fun h => by rw [Setting.named?_eq_some.mpr h.symm] at hn; cases hn
      rw [if_neg hne]
      exact ih
    | some s' =>
      have hname := Setting.named?_eq_some.mp hn
      show (Config.set _ s' e.2).get s = _
      rw [get_set]
      by_cases h : s = s'
      · subst h
        rw [if_pos rfl, if_pos hname.symm, Option.getD_some]
      · have hne : s.name ≠ e.1 := fun h' => h (Setting.name_injective (h'.trans hname))
        rw [if_neg h, if_neg hne]
        exact ih

section Unknown

lemma insertName_ne_nil (t : Text) (names : List Text) : insertName t names ≠ [] := by
  cases names with
  | nil => simp [insertName]
  | cons u us =>
    rw [insertName]
    split_ifs <;> simp

/-- The names of overrides are all names of settings. -/
lemma unknownNames_eq_nil : unknownNames overrides = [] ↔ ∀ e ∈ overrides, ∃ s : Setting, e.1 = s.name := by
  rw [unknownNames]
  induction overrides using List.reverseRecOn with
  | nil => simp
  | append_singleton overrides e ih =>
    rw [List.map_append, List.foldl_append, List.forall_mem_append]
    cases hn : Setting.named? e.1 with
    | none =>
      have hunknown : ¬∃ s : Setting, e.1 = s.name := by
        rintro ⟨s, hs⟩
        rw [Setting.named?_eq_some.mpr hs] at hn
        cases hn
      simp [hn, insertName_ne_nil, hunknown]
    | some s =>
      rw [List.map_singleton, List.foldl_cons, List.foldl_nil, hn]
      refine ih.trans (and_iff_left fun e' he' => ?_).symm
      rw [List.mem_singleton.mp he']
      exact ⟨s, Setting.named?_eq_some.mp hn⟩

end Unknown

section Check

lemma checkContentType_text (t : Text) : checkContentType (.text t) = .ok v ↔ t ≠ [] ∧ v = .text t := by
  show checkText t = _ ↔ _
  cases t with
  | nil => simp [checkText]
  | cons c t => simp [checkText, eq_comm]

lemma checkBoolean_text (t : Text) : checkBoolean (.text t) = .ok v ↔
    Text.lowerLetters t ∈ trueWords ∧ v = .bool true ∨ Text.lowerLetters t ∈ falseWords ∧ v = .bool false := by
  have hdisjoint : ∀ word ∈ trueWords, word ∉ falseWords := by decide
  simp only [checkBoolean, checkWord, List.contains_iff_mem]
  split_ifs with htrue hfalse
  · simp [htrue, hdisjoint _ htrue, eq_comm]
  · simp [htrue, hfalse, eq_comm]
  · simp [htrue, hfalse]

lemma checkLevel_text (t : Text) : checkLevel (.text t) = .ok v ↔
    Text.upper (Text.strip t) ∈ levelNames ∧ v = .text (Text.upper (Text.strip t)) := by
  simp only [checkLevel, List.contains_iff_mem]
  split_ifs with hname
  · simp [hname, eq_comm]
  · simp [hname]

lemma mem_all (s : Setting) : s ∈ Setting.all := by
  cases s <;> decide

lemma faults_eq_nil : c.faults = [] ↔ ∀ s, ∃ v, check s (c.get s) = .ok v := by
  rw [faults, List.filterMap_eq_nil_iff]
  constructor
  · intro h s
    have hs := h s (mem_all s)
    cases hc : check s (c.get s) with
    | ok v => exact ⟨v, rfl⟩
    | error fault => simp [hc] at hs
  · intro h s _
    obtain ⟨v, hv⟩ := h s
    rw [hv]

/-- Settings that pass their checks have the values that the checks give. -/
lemma validate_eq_ok : c.validate = .ok checked ↔ ∀ s, check s (c.get s) = .ok (checked.get s) := by
  have hvalues : ∀ s, Config.get ⟨c.checkedValue .contentType, c.checkedValue .pretty, c.checkedValue .logLevel⟩ s =
      c.checkedValue s := fun s => by cases s <;> rfl
  rw [validate]
  constructor
  · intro h s
    split at h
    · next hnone =>
      obtain ⟨v, hv⟩ := faults_eq_nil.mp hnone s
      rw [← Except.ok.inj h, hvalues, hv, checkedValue, hv]
    · cases h
  · intro h
    rw [faults_eq_nil.mpr fun s => ⟨_, h s⟩]
    refine congrArg Except.ok (ext_get fun s => ?_)
    rw [hvalues, checkedValue, h s]

lemma validate_eq_error {faults : List (Setting × SettingFault)} (h : c.validate = .error faults) :
    ∃ s fault, check s (c.get s) = .error fault := by
  by_contra hall
  have hnone : c.faults = [] := faults_eq_nil.mpr fun s => by
    cases hc : check s (c.get s) with
    | ok v => exact ⟨v, rfl⟩
    | error fault => exact absurd ⟨s, fault, hc⟩ hall
  rw [validate, hnone] at h
  cases h

end Check

/-- What overriding gives: the checked values of the settings that are overridden, and the others as they were. -/
lemma override_eq_ok (h : c.override overrides = .ok c') :
    (∀ e ∈ overrides, ∃ s : Setting, e.1 = s.name) ∧
    ∃ checked, (c.assign overrides).validate = .ok checked ∧
      ∀ s, c'.get s = if (last? overrides s).isSome then checked.get s else c.get s := by
  rw [override] at h
  split at h
  · next hnames =>
    have hknown := unknownNames_eq_nil.mp hnames
    refine ⟨hknown, ?_⟩
    split at h
    · cases h
    · next checked hchecked =>
      refine ⟨checked, hchecked, fun s => ?_⟩
      obtain rfl := Except.ok.inj h
      have hlast (es : List (Text × Value)) (hes : ∀ e ∈ es, ∃ s : Setting, e.1 = s.name) :
          last? (es.filterMap fun e => (Setting.named? e.1).map fun s => (e.1, checked.get s)) s =
            if (last? es s).isSome then some (checked.get s) else none := by
        induction es using List.reverseRecOn with
        | nil => rfl
        | append_singleton es e ih =>
          obtain ⟨hes, he⟩ := List.forall_mem_append.mp hes
          obtain ⟨s', hs'⟩ := he e (List.mem_singleton_self e)
          have hn := Setting.named?_eq_some.mpr hs'
          rw [List.filterMap_append, List.filterMap_cons, hn, Option.map_some, List.filterMap_nil, last?_concat,
            last?_concat, ih hes]
          by_cases hname : s.name = e.1
          · obtain rfl := Setting.name_injective (hname.trans hs')
            simp [hname]
          · simp [hname]
      rw [get_assign, hlast overrides hknown]
      split_ifs <;> rfl
  · cases h

/-- Overriding is refused because of a name that no setting has, or because some setting would not pass its check. -/
lemma override_eq_error {fault : OverrideFault} (h : c.override overrides = .error fault) :
    (∃ names, fault = .unknown names) ∧ (∃ e ∈ overrides, ∀ s : Setting, e.1 ≠ s.name) ∨
      (∃ faults, fault = .invalid faults) ∧ ∃ s f, check s ((last? overrides s).getD (c.get s)) = .error f := by
  rw [override] at h
  split at h
  · split at h
    · next faults hfaults =>
      obtain ⟨s, f, hf⟩ := validate_eq_error hfaults
      rw [get_assign] at hf
      exact .inr ⟨⟨faults, (Except.error.inj h).symm⟩, s, f, hf⟩
    · cases h
  · next names hne =>
    refine .inl ⟨⟨_, (Except.error.inj h).symm⟩, ?_⟩
    by_contra hall
    push Not at hall
    exact hne (unknownNames_eq_nil.mpr hall)

/-- The settings as keywords. -/
def keywords (c : Config) : List (Text × Value) := Setting.all.map fun s => (s.name, c.get s)

lemma last?_keywords_append (c : Config) (overrides : List (Text × Value)) (s : Setting) :
    last? (c.keywords ++ overrides) s = some ((last? overrides s).getD (c.get s)) := by
  have happend : (c.keywords ++ overrides).reverse = overrides.reverse ++ c.keywords.reverse := List.reverse_append
  have hown : c.keywords.reverse.lookup s.name = some (c.get s) := by cases s <;> rfl
  rw [last?, happend, List.lookup_append, hown, ← last?]
  cases last? overrides s <;> rfl

/-- Keywords are read whatever was read before. -/
lemma get_readKeywords (c : Config) {t : Table Value} (hnames : ∀ e ∈ t, ∃ s : Setting, e.1 = s.name)
    (hnodup : (t.map (·.1)).Nodup) (s : Setting) : (c.readKeywords t).get s = (t.lookup s.name).getD (c.get s) := by
  induction t generalizing c with
  | nil => rfl
  | cons e t ih =>
    obtain ⟨he, ht⟩ := List.forall_mem_cons.mp hnames
    obtain ⟨hnew, hrest⟩ := List.nodup_cons.mp hnodup
    obtain ⟨s', hs'⟩ := he
    have hread : c.readKeywords (e :: t) = (c.set s' e.2).readKeywords t := by
      rw [readKeywords, List.foldl_cons, hs', Setting.namedLoosely?_name]
      rfl
    rw [hread, ih _ ht hrest, get_set, Table.lookup_cons_ite]
    by_cases h : s = s'
    · subst h
      rw [if_pos rfl, if_pos hs'.symm, Table.lookup_eq_none (hs' ▸ hnew)]
      rfl
    · rw [if_neg h, if_neg fun h' => h (Setting.name_injective (h'.trans hs'))]

lemma get_readKeywords_ofEntries (c : Config) {given : List (Text × Value)}
    (hknown : ∀ e ∈ given, ∃ s : Setting, e.1 = s.name) (s : Setting) :
    (c.readKeywords (Table.ofEntries given)).get s = (last? given s).getD (c.get s) := by
  have hnames : ∀ e ∈ Table.ofEntries given, ∃ s : Setting, e.1 = s.name := by
    intro e he
    have hmem := (Table.names_ofEntries _).2 _ (List.mem_map_of_mem (f := (·.1)) he)
    obtain ⟨e', he', heq⟩ := List.mem_map.mp hmem
    rw [← heq]
    exact hknown e' he'
  rw [get_readKeywords _ hnames (Table.names_ofEntries _).1, Table.lookup_ofEntries, ← last?]

lemma keywords_known (c : Config) : ∀ e ∈ c.keywords, ∃ s : Setting, e.1 = s.name := by
  intro e he
  obtain ⟨s, -, rfl⟩ := List.mem_map.mp he
  exact ⟨s, rfl⟩

lemma make_keywords (c : Config) (environment : List (Text × Text))
    (hknown : ∀ e ∈ overrides, ∃ s : Setting, e.1 = s.name) :
    make environment (c.keywords ++ overrides) = (c.assign overrides).validate := by
  rw [make]
  congr 1
  refine ext_get fun s => ?_
  rw [get_readKeywords_ofEntries _ (List.forall_mem_append.mpr ⟨c.keywords_known, hknown⟩), last?_keywords_append,
    get_assign]
  rfl

end Config

end DocPath
