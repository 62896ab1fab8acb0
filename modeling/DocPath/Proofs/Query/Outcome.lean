import DocPath.Failure
import DocPath.Proofs.Query.Index
import DocPath.Proofs.Value.Name

/-! The outcome of evaluating a path. What a key finds below a node, and when it contradicts the node, are
relations that do not mention the walk; the outcome is told by the first place at which nothing is found
or a contradiction arises. -/

namespace DocPath.Query

open Numeral

/-- No key of a mapping is the given text. -/
def Lacks (entries : List (Value × Value)) (key : Text) : Prop :=
  ∀ e ∈ entries, e.1.sameKey (.text key) = false

/-- What a key leads to from a node. -/
inductive Finds : Value → Text → Value → Prop
  | nothing {d : Value} {key : Text} (hd : d.node = .null) : Finds d key .null
  | entry {d : Value} {key : Text} {entries : List (Value × Value)} {e : Value × Value}
      (hd : d.node = .mapping entries) (hk : key ≠ anyKey)
      (he : entries.find? (fun e => e.1.sameKey (.text key)) = some e) : Finds d key e.2
  | absent {d : Value} {key : Text} {entries : List (Value × Value)}
      (hd : d.node = .mapping entries) (hk : key ≠ anyKey) (hl : Lacks entries key) :
      Finds d key .null
  | first {d : Value} {e : Value × Value} {entries : List (Value × Value)}
      (hd : d.node = .mapping (e :: entries)) (hl : Lacks (e :: entries) anyKey) :
      Finds d anyKey e.1
  | item {d v : Value} {key : Text} {items : Items} {i : Int}
      (hd : d.node = .sequence items) (hi : IsIndex key i) (hv : itemAt? items i = some v) :
      Finds d key v

/-- A key contradicts a node, and the message that says how. -/
inductive Clashes : Value → Text → Text → Prop
  | emptyMapping {d : Value} (hd : d.node = .mapping []) :
      Clashes d anyKey "requested [_arbitrary_key_] but the map was empty"
  | anyKeyPresent {d : Value} {entries : List (Value × Value)}
      (hd : d.node = .mapping entries) (hl : ¬ Lacks entries anyKey) :
      Clashes d anyKey
        "requested meta-key [_arbitrary_key_] but the map unexpectedly contains this key"
  | notNumeric {d : Value} {key : Text} {items : Items}
      (hd : d.node = .sequence items) (hi : ∀ i, ¬ IsIndex key i) :
      Clashes d key (.concat ["element was a list, but [", key, "] was not numeric"])
  | outOfBounds {d : Value} {key : Text} {items : Items} {i : Int}
      (hd : d.node = .sequence items) (hi : IsIndex key i) (hn : ¬(0 ≤ i ∧ i < items.size)) :
      Clashes d key (.concat ["element was a list with ", .ofNat items.size, " elements, but [", key,
        "] was out of bounds"])
  | scalar {d : Value} {key : Text} {type : TypeName} (hd : d.node = .scalar type) :
      Clashes d key (.concat ["no object found for [", key, "] within object of type [",
        type.qualified, "]"])

lemma valueAt?_eq_none {entries : List (Value × Value)} {key : Text} :
    valueAt? entries key = none ↔ Lacks entries key := by
  simp [valueAt?, Lacks]

/-- Looking up a key gives what the key finds. -/
theorem step_of_finds {d v : Value} {key : Text}
    (hc : ∀ items, d.node = .sequence items → Countable items key) (h : Finds d key v) :
    step d key = .ok v := by
  cases h with
  | nothing hd => simp [step, hd]
  | entry hd hk he => simp [step, hd, hk, valueAt?, he]
  | absent hd hk hl => simp [step, hd, hk, valueAt?_eq_none.mpr hl]
  | first hd hl => simp [step, hd, firstKey, valueAt?_eq_none.mpr hl]
  | item hd hi hv =>
    simp only [step, hd]
    rw [item_of_isIndex (hc _ hd) hi, hv]
    rfl

/-- Looking up a key that contradicts the node is an error about an invalid path. -/
theorem step_of_clashes {d : Value} {key message : Text}
    (hc : ∀ items, d.node = .sequence items → Countable items key) (h : Clashes d key message) :
    ∃ fault, step d key = .error fault ∧ fault.errorKind = .invalidPath ∧
      fault.message = message := by
  cases h with
  | emptyMapping hd => exact ⟨.emptyMapping, by simp [step, hd, firstKey], rfl, by rfl⟩
  | @anyKeyPresent entries hd hl =>
    have hs : (valueAt? entries anyKey).isSome = true := by
      rw [Option.isSome_iff_ne_none]
      exact fun h => hl (valueAt?_eq_none.mp h)
    refine ⟨.anyKeyPresent, ?_, rfl, by rfl⟩
    cases entries with
    | nil => simp [valueAt?] at hs
    | cons e es => simp [step, hd, firstKey, hs]
  | notNumeric hd hi =>
    exact ⟨.notNumeric key, by simp only [step, hd, item_of_not_isIndex _ hi], rfl, rfl⟩
  | @outOfBounds _ items i hd hi hn =>
    refine ⟨.outOfBounds items.size key, ?_, rfl, rfl⟩
    simp only [step, hd]
    rw [item_of_isIndex (hc _ hd) hi, itemAt?_eq_none hn]
    rfl
  | @scalar _ type hd => exact ⟨.noObject key type, by simp only [step, hd], rfl, rfl⟩

/-- A key finds something below a node or contradicts it. -/
theorem finds_or_clashes (d : Value) (key : Text) :
    (∃ v, Finds d key v) ∨ ∃ message, Clashes d key message := by
  cases hd : d.node with
  | null => exact .inl ⟨_, .nothing hd⟩
  | scalar type => exact .inr ⟨_, .scalar hd⟩
  | mapping entries =>
    by_cases hl : Lacks entries key
    · by_cases hk : key = anyKey
      · subst hk
        cases entries with
        | nil => exact .inr ⟨_, .emptyMapping hd⟩
        | cons e es => exact .inl ⟨_, .first hd hl⟩
      · exact .inl ⟨_, .absent hd hk hl⟩
    · by_cases hk : key = anyKey
      · subst hk
        exact .inr ⟨_, .anyKeyPresent hd hl⟩
      · cases he : entries.find? fun e => e.1.sameKey (.text key) with
        | none => exact absurd (fun e hm => by simpa using List.find?_eq_none.mp he e hm) hl
        | some e => exact .inl ⟨_, .entry hd hk he⟩
  | sequence items =>
    by_cases hi : ∃ i, IsIndex key i
    · obtain ⟨i, hi⟩ := hi
      by_cases hn : 0 ≤ i ∧ i < items.size
      · obtain ⟨v, hv⟩ := itemAt?_isSome hn
        exact .inl ⟨v, .item hd hi hv⟩
      · exact .inr ⟨_, .outOfBounds hd hi hn⟩
    · exact .inr ⟨_, .notNumeric hd fun i h => hi ⟨i, h⟩⟩

/-- The key for a segment: the name of the value kept under it, or the segment itself. -/
inductive Named (store : Store) : Text → Text → Prop
  | own {segment : Text} (h : store segment = none) : Named store segment segment
  | kept {segment name : Text} {v : Value} (h : store segment = some v) (hn : v.asName = .ok name) :
      Named store segment name

/-- Segments lead from one value to another; all values on the way but the last are something. -/
inductive Reaches (store : Store) : Value → List Text → Value → Prop
  | nil (d : Value) : Reaches store d [] d
  | cons {d w v : Value} {segment key : Text} {rest : List Text} (hd : d ≠ .null)
      (hk : Named store segment key) (hf : Finds d key w) (h : Reaches store w rest v) :
      Reaches store d (segment :: rest) v

/-- What is met on the way can be handled: kept values that are consulted hold no integer of too many
digits, and sequences can be counted and are not asked for too long an index. -/
def Manageable (store : Store) (d : Value) (segments : List Text) : Prop :=
  ∀ before segment after e, segments = before ++ segment :: after → Reaches store d before e →
    e ≠ .null →
    (∀ v, store segment = some v → Value.Writable v.integers) ∧
    ∀ key items, Named store segment key → e.node = .sequence items → Countable items key

section Walk

variable {store : Store} {path : Text}

lemma key_of_named {segment name : Text} (h : Named store segment name) :
    ∃ events, key store segment = .ok (name, events) := by
  cases h with
  | own h => exact ⟨[], by simp [key, h]⟩
  | kept h hn => exact ⟨_, by simp [key, h, hn]; rfl⟩

lemma exists_named {segment : Text}
    (h : ∀ v, store segment = some v → Value.Writable v.integers) :
    ∃ name, Named store segment name := by
  cases hs : store segment with
  | none => exact ⟨segment, .own hs⟩
  | some v =>
    obtain ⟨name, hn⟩ := Value.asName_ok v (h v hs)
    exact ⟨name, .kept hs hn⟩

@[simp] lemma walk_nil (d : Value) : (walk store path d []).2 = .ok d := rfl

@[simp] lemma walk_null (segments : List Text) :
    (walk store path .null segments).2 = .ok .null := by
  cases segments <;> simp [walk]

lemma walk_cons {d : Value} {segment name : Text} (rest : List Text) (hd : d ≠ .null)
    (hk : Named store segment name) :
    (walk store path d (segment :: rest)).2 =
      match step d name with
      | .error fault => .error fault
      | .ok next => (walk store path next rest).2 := by
  obtain ⟨events, he⟩ := key_of_named hk
  simp only [walk, hd, he, if_false]
  cases step d name <;> rfl

lemma Manageable.tail {d w : Value} {segment key : Text} {rest : List Text}
    (h : Manageable store d (segment :: rest)) (hd : d ≠ .null) (hk : Named store segment key)
    (hf : Finds d key w) : Manageable store w rest := by
  intro before s after e hs hr he
  exact h (segment :: before) s after e (by rw [hs]; rfl) (.cons hd hk hf hr) he

lemma Manageable.head {d : Value} {segment : Text} {rest : List Text}
    (h : Manageable store d (segment :: rest)) (hd : d ≠ .null) :
    (∃ key, Named store segment key) ∧
      ∀ key items, Named store segment key → d.node = .sequence items → Countable items key :=
  have := h [] segment rest d rfl (.nil d) hd
  ⟨exists_named this.1, this.2⟩

lemma walk_of_reaches {d v : Value} {before : List Text} (after : List Text)
    (h : Reaches store d before v) (hm : Manageable store d (before ++ after)) :
    (walk store path d (before ++ after)).2 = (walk store path v after).2 := by
  induction h with
  | nil => rfl
  | cons hd hk hf _ ih =>
    rw [List.cons_append, walk_cons _ hd hk,
      step_of_finds (fun items hs => (hm.head hd).2 _ items hk hs) hf]
    exact ih (hm.tail hd hk hf)

lemma walk_of_clashes {d e : Value} {before after : List Text} {segment key message : Text}
    (hr : Reaches store d before e) (hm : Manageable store d (before ++ segment :: after))
    (he : e ≠ .null) (hk : Named store segment key) (hc : Clashes e key message) :
    ∃ fault, (walk store path d (before ++ segment :: after)).2 = .error fault ∧
      fault.errorKind = .invalidPath ∧ fault.message = message := by
  have hcount := (hm before segment after e rfl hr he).2
  obtain ⟨fault, hs, hf⟩ := step_of_clashes (fun items hi => hcount key items hk hi) hc
  refine ⟨fault, ?_, hf⟩
  rw [walk_of_reaches _ hr hm, walk_cons _ he hk, hs]

/-- Every walk reaches the end of its segments, or null before it, or a contradiction. -/
lemma reaches_or_clashes {d : Value} {segments : List Text} (hm : Manageable store d segments) :
    (∃ v, v ≠ .null ∧ Reaches store d segments v) ∨
    (∃ before after, segments = before ++ after ∧ Reaches store d before .null) ∨
    ∃ before segment after e key message, segments = before ++ segment :: after ∧
      Reaches store d before e ∧ e ≠ .null ∧ Named store segment key ∧
      Clashes e key message := by
  induction segments generalizing d with
  | nil =>
    by_cases hd : d = .null
    · exact .inr (.inl ⟨[], [], rfl, hd ▸ .nil d⟩)
    · exact .inl ⟨d, hd, .nil d⟩
  | cons segment rest ih =>
    by_cases hd : d = .null
    · exact .inr (.inl ⟨[], segment :: rest, rfl, hd ▸ .nil d⟩)
    obtain ⟨key, hk⟩ := (hm.head hd).1
    rcases finds_or_clashes d key with ⟨w, hf⟩ | ⟨message, hc⟩
    · rcases ih (hm.tail hd hk hf) with ⟨v, hv, hr⟩ | ⟨before, after, hs, hr⟩ |
        ⟨before, s, after, e, k, message, hs, hr, he, hn, hc⟩
      · exact .inl ⟨v, hv, .cons hd hk hf hr⟩
      · exact .inr (.inl ⟨segment :: before, after, by rw [hs]; rfl, .cons hd hk hf hr⟩)
      · exact .inr (.inr ⟨segment :: before, s, after, e, k, message, by rw [hs]; rfl,
          .cons hd hk hf hr, he, hn, hc⟩)
    · exact .inr (.inr ⟨[], segment, rest, d, key, message, rfl, .nil d, hd, hk, hc⟩)

end Walk

/-- The outcome of evaluating a path. It is null exactly if some part of the segments leads to null through
values that are something, whatever the other segments are; it is an error about an invalid path, with the
message of the contradiction, exactly if some part leads to something that the key behind it contradicts;
and it is a value exactly if all segments lead there. There is no other outcome. -/
theorem evaluate_outcome (store : Store) (document : Value) (path : Text)
    (hm : Manageable store document (Path.parse path)) :
    (evaluate store document path = .ok .null ↔
      ∃ before after, Path.parse path = before ++ after ∧ Reaches store document before .null) ∧
    (∀ message,
      (∃ fault, evaluate store document path = .error fault ∧ fault.errorKind = .invalidPath ∧
        fault.message = message) ↔
      ∃ before segment after d key, Path.parse path = before ++ segment :: after ∧
        Reaches store document before d ∧ d ≠ .null ∧ Named store segment key ∧
        Clashes d key message) ∧
    (∀ v, v ≠ .null →
      (evaluate store document path = .ok v ↔ Reaches store document (Path.parse path) v)) ∧
    ((∃ v, evaluate store document path = .ok v) ∨
      ∃ fault, evaluate store document path = .error fault ∧ fault.errorKind = .invalidPath) := by
  simp only [evaluate, trace]
  -- each of the three ways in which a walk can go has its own outcome
  have to_null : ∀ before after, Path.parse path = before ++ after →
      Reaches store document before .null →
      (walk store path document (Path.parse path)).2 = .ok .null := by
    intro before after hs hr
    rw [hs, walk_of_reaches after hr (hs ▸ hm), walk_null]
  have to_value : ∀ v, Reaches store document (Path.parse path) v →
      (walk store path document (Path.parse path)).2 = .ok v := by
    intro v hr
    have reached : (walk store path document (Path.parse path ++ [])).2 = (walk store path v []).2 :=
      walk_of_reaches [] hr (by simpa using hm)
    simpa using reached
  have to_error : ∀ before segment after d key message,
      Path.parse path = before ++ segment :: after → Reaches store document before d → d ≠ .null →
      Named store segment key → Clashes d key message →
      ∃ fault, (walk store path document (Path.parse path)).2 = .error fault ∧
        fault.errorKind = .invalidPath ∧ fault.message = message := by
    intro before segment after d key message hs hr hd hk hc
    rw [hs] at hm ⊢
    exact walk_of_clashes hr hm hd hk hc
  have ways : (∃ v, v ≠ .null ∧ Reaches store document (Path.parse path) v ∧
      (walk store path document (Path.parse path)).2 = .ok v) ∨
      (∃ before after, Path.parse path = before ++ after ∧ Reaches store document before .null ∧
        (walk store path document (Path.parse path)).2 = .ok .null) ∨
      ∃ before segment after d key fault, Path.parse path = before ++ segment :: after ∧
        Reaches store document before d ∧ d ≠ .null ∧ Named store segment key ∧
        Clashes d key fault.message ∧ fault.errorKind = .invalidPath ∧
        (walk store path document (Path.parse path)).2 = .error fault := by
    rcases reaches_or_clashes hm with ⟨v, hv, hr⟩ | ⟨before, after, hs, hr⟩ |
      ⟨before, segment, after, d, key, message, hs, hr, hd, hk, hc⟩
    · exact .inl ⟨v, hv, hr, to_value v hr⟩
    · exact .inr (.inl ⟨before, after, hs, hr, to_null before after hs hr⟩)
    · obtain ⟨fault, hw, hf, rfl⟩ := to_error before segment after d key message hs hr hd hk hc
      exact .inr (.inr ⟨before, segment, after, d, key, fault, hs, hr, hd, hk, hc, hf, hw⟩)
  generalize (walk store path document (Path.parse path)).2 = outcome at *
  refine ⟨⟨?_, fun ⟨before, after, hs, hr⟩ => to_null before after hs hr⟩,
    fun message => ⟨?_, fun ⟨before, segment, after, d, key, hs, hr, hd, hk, hc⟩ =>
      to_error before segment after d key message hs hr hd hk hc⟩,
    fun v hv => ⟨?_, to_value v⟩, ?_⟩
  · rintro rfl
    rcases ways with ⟨v, hv, -, hw⟩ | ⟨before, after, hs, hr, -⟩ |
      ⟨_, _, _, _, _, _, -, -, -, -, -, -, hw⟩
    · exact absurd (Except.ok.inj hw).symm hv
    · exact ⟨before, after, hs, hr⟩
    · cases hw
  · rintro ⟨fault, rfl, -, rfl⟩
    rcases ways with ⟨v, -, -, hw⟩ | ⟨_, _, -, -, hw⟩ |
      ⟨before, segment, after, d, key, f, hs, hr, hd, hk, hc, -, hw⟩
    · cases hw
    · cases hw
    · exact ⟨before, segment, after, d, key, hs, hr, hd, hk, Except.error.inj hw ▸ hc⟩
  · rintro rfl
    rcases ways with ⟨w, -, hr, hw⟩ | ⟨_, _, -, -, hw⟩ |
      ⟨_, _, _, _, _, _, -, -, -, -, -, -, hw⟩
    · exact Except.ok.inj hw ▸ hr
    · exact absurd (Except.ok.inj hw) hv
    · cases hw
  · rcases ways with ⟨v, -, -, hw⟩ | ⟨_, _, -, -, hw⟩ |
      ⟨_, _, _, _, _, fault, -, -, -, -, -, hf, hw⟩
    · exact .inl ⟨v, hw⟩
    · exact .inl ⟨.null, hw⟩
    · exact .inr ⟨fault, hw, hf⟩

/-- A kept integer as an index: its name is looked up in place of the segment. -/
theorem evaluate_outcome_kept_index :
    let store : Store := fun segment => if segment = "var" then some (.int 1) else none
    let document : Value := .list [.null, .text "b"]
    Manageable store document (Path.parse "var") ∧
      evaluate store document "var" = .ok (.text "b") := by
  intro store document
  have hs : store "var" = some (.int 1) := rfl
  have hm : Manageable store document (Path.parse "var") := by
    intro before segment after e hseg hr _
    have hp : Path.parse "var" = [Text.ofString "var"] := by decide
    rw [hp, List.singleton_eq_append_iff] at hseg
    rcases hseg with ⟨rfl, hseg⟩ | ⟨-, hseg⟩
    · cases hr
      obtain ⟨rfl, -⟩ := List.cons.inj hseg
      refine ⟨fun v hv => ?_, fun key items hk hi => ?_⟩
      · cases hs.symm.trans hv
        intro i hi
        rw [List.mem_singleton.mp hi]
        exact Nat.one_lt_pow (by decide) (by decide)
      · cases Node.sequence.inj hi
        cases hk with
        | own h => cases hs.symm.trans h
        | kept h hn =>
          cases hs.symm.trans h
          cases hn
          exact ⟨by decide, by decide⟩
    · cases hseg
  have hne : Value.text "b" ≠ .null := fun h => by cases h
  refine ⟨hm, ((evaluate_outcome store document "var" hm).2.2.1 _ hne).mpr ?_⟩
  have hi : IsIndex "1" 1 := IsIndex.mk .none (Text.ofNat_isDigit 1) (Text.ofNat_ne_nil 1)
  exact .cons nofun (.kept hs rfl) (.item rfl hi rfl) (.nil _)

end DocPath.Query
