import DocPath.Proofs.Query.Sequence
import DocPath.Proofs.Stash.Referable

/-! Evaluations that end neither in a value nor in an error about an invalid path. A kept value must be rendered, a
sequence counted and an index read as a number; each of these has a limit, and no walk fails in another way. -/

namespace DocPath

namespace Query

open Numeral

/-- What keeps a segment from being looked up below a value. -/
inductive Stuck (store : Store) (d : Value) (segment : Text) : Fault → Prop
  /-- The kept value has an integer in it that is too long to be written. -/
  | unwritable {v : Value} (hs : store segment = some v) (hv : ¬Value.Writable v.integers) :
      Stuck store d segment (.number .tooLargeToWrite)
  | uncountable {key : Text} {i : Int} {items : Items} (hk : Named store segment key) (hd : d.node = .sequence items)
      (hi : IsIndex key i) (hn : ¬items.size < 2 ^ 63) : Stuck store d segment .uncountable
  /-- The index has more digits than are read, in spite of its value. -/
  | padded {key : Text} {i : Int} {items : Items} (hk : Named store segment key) (hd : d.node = .sequence items)
      (hi : IsIndex key i) (hn : items.size < 2 ^ 63) (hp : Padded items key) :
      Stuck store d segment (.number (.tooManyDigits (splitSign key).2.length))

/-- Segments lead from a value to the first place where one of them cannot be looked up. -/
inductive Breaks (store : Store) : Value → List Text → Fault → Prop
  | here {d : Value} {segment : Text} {rest : List Text} {fault : Fault} (hd : d ≠ .null)
      (h : Stuck store d segment fault) : Breaks store d (segment :: rest) fault
  | later {d w : Value} {segment key : Text} {rest : List Text} {fault : Fault} (hd : d ≠ .null)
      (hclear : ∀ f, ¬Stuck store d segment f) (hk : Named store segment key) (hf : Finds d key w)
      (h : Breaks store w rest fault) : Breaks store d (segment :: rest) fault

variable {store : Store} {d w : Value} {segment k name : Text} {rest : List Text} {fault : Fault}

lemma Stuck.kind (h : Stuck store d segment fault) : fault.errorKind = .value ∨ fault.errorKind = .overflow := by
  cases h with
  | unwritable | padded => exact .inl rfl
  | uncountable => exact .inr rfl

lemma Breaks.kind {segments : List Text} (h : Breaks store d segments fault) :
    fault.errorKind = .value ∨ fault.errorKind = .overflow := by
  induction h with
  | here _ h => exact h.kind
  | later _ _ _ _ _ ih => exact ih

lemma Stuck.walk_eq (h : Stuck store d segment fault) (hd : d ≠ .null) (path : Text) (rest : List Text) :
    (walk store path d (segment :: rest)).2 = .error fault := by
  cases h with
  | unwritable hs hv => simp only [walk, if_neg hd, key, hs, Value.asName_error _ hv]
  | uncountable hk hnode hi hn => rw [walk_cons rest hd hk, step_of_sequence hnode, item_of_uncountable hn hi]
  | padded hk hnode hi hn hp => rw [walk_cons rest hd hk, step_of_sequence hnode, item_eq hn hi, if_pos hp]

section Clear

variable (hclear : ∀ fault, ¬Stuck store d segment fault)

include hclear

lemma exists_named_of_clear : ∃ name, Named store segment name :=
  exists_named fun _ hs => by_contra fun hv => hclear _ (.unwritable hs hv)

lemma item_of_clear {items : Items} {i : Int} (hk : Named store segment name) (hnode : d.node = .sequence items)
    (hi : IsIndex name i) :
    step d name = (itemAt? items i).elim (.error (.outOfBounds items.size name)) .ok := by
  have hn : items.size < 2 ^ 63 := by_contra fun hn => hclear _ (.uncountable hk hnode hi hn)
  have hp : ¬Padded items name := fun hp => hclear _ (.padded hk hnode hi hn hp)
  rw [step_of_sequence hnode, item_eq hn hi, if_neg hp]

lemma step_of_clear (hk : Named store segment name) (h : Finds d name w) : step d name = .ok w := by
  cases h with
  | nothing hnode => exact step_of_finds (by simp [hnode]) (.nothing hnode)
  | entry hnode hne he => exact step_of_finds (by simp [hnode]) (.entry hnode hne he)
  | absent hnode hne hl => exact step_of_finds (by simp [hnode]) (.absent hnode hne hl)
  | first hnode hl => exact step_of_finds (by simp [hnode]) (.first hnode hl)
  | item hnode hi hv =>
    rw [item_of_clear hclear hk hnode hi, hv]
    rfl

lemma step_error_of_clear (hk : Named store segment name) {message : Text} (h : Clashes d name message) :
    ∃ fault, step d name = .error fault ∧ fault.errorKind = .invalidPath := by
  cases h with
  | emptyMapping hnode => exact ⟨.emptyMapping, by simp [step, hnode, firstKey], rfl⟩
  | anyKeyPresent hnode hl =>
    obtain ⟨fault, hstep, hkind, -⟩ := step_of_clashes (by simp [hnode]) (.anyKeyPresent hnode hl)
    exact ⟨fault, hstep, hkind⟩
  | notNumeric hnode hi => exact ⟨_, by rw [step_of_sequence hnode, item_of_not_isIndex _ hi], rfl⟩
  | outOfBounds hnode hi hn => exact ⟨_, by rw [item_of_clear hclear hk hnode hi, itemAt?_eq_none hn]; rfl, rfl⟩
  | scalar hnode =>
    have hclash : Clashes d name _ := .scalar hnode
    obtain ⟨fault, hstep, hkind, -⟩ := step_of_clashes (by simp [hnode]) hclash
    exact ⟨fault, hstep, hkind⟩

end Clear

lemma Breaks.walk_eq {segments : List Text} (h : Breaks store d segments fault) (path : Text) :
    (walk store path d segments).2 = .error fault := by
  induction h with
  | here hd h => exact h.walk_eq hd path _
  | later hd hclear hk hf _ ih =>
    rw [walk_cons _ hd hk, step_of_clear hclear hk hf]
    exact ih

/-- A walk that does not end in a place where it is stuck leads to a value or into a contradiction. -/
lemma breaks_of_walk {path : Text} {segments : List Text} (h : (walk store path d segments).2 = .error fault)
    (hkind : fault.errorKind ≠ .invalidPath) : Breaks store d segments fault := by
  induction segments generalizing d with
  | nil => cases h
  | cons segment rest ih =>
    have hd : d ≠ .null := by
      rintro rfl
      rw [walk_null] at h
      cases h
    by_cases hclear : ∀ f, ¬Stuck store d segment f
    · obtain ⟨name, hk⟩ := exists_named_of_clear hclear
      rw [walk_cons rest hd hk] at h
      rcases finds_or_clashes d name with ⟨w, hf⟩ | ⟨message, hclash⟩
      · rw [step_of_clear hclear hk hf] at h
        exact .later hd hclear hk hf (ih h)
      · obtain ⟨f, hstep, hf⟩ := step_error_of_clear hclear hk hclash
        rw [hstep] at h
        cases h
        exact absurd hf hkind
    · obtain ⟨f, hstuck⟩ := not_forall_not.mp hclear
      rw [hstuck.walk_eq hd path rest] at h
      cases h
      exact .here hd hstuck

/-- With a stash into which a value was put, every evaluation gives a value or an error about an invalid path, and never
lacks a value that the stash says it holds, unless the walk comes to a place where it is stuck: a kept value has an
integer that is too long to be written, a sequence has too many items to be counted, or an index is padded with too many
zeros. There it ends with a fault of its own. -/
theorem evaluate_kept {s t : Stash} {v : Value} (h : s.insert k v = .ok t) :
    t.get k = .ok v ∧ (∀ key, t.holds key = true → ∃ w, t.get key = .ok w) ∧
    ∀ d path,
      ((∃ w, evaluate t.find? d path = .ok w) ∨
        (∃ fault, evaluate t.find? d path = .error fault ∧ fault.errorKind = .invalidPath) ∨
        ∃ fault, Breaks t.find? d (Path.parse path) fault) ∧
      ∀ fault, Breaks t.find? d (Path.parse path) fault ↔
        evaluate t.find? d path = .error fault ∧ (fault.errorKind = .value ∨ fault.errorKind = .overflow) := by
  refine ⟨by rw [Stash.get, Stash.find?_inserted h], fun key hkey => ?_, fun d path => ⟨?_, fun fault => ?_⟩⟩
  · obtain ⟨w, hw⟩ := Option.isSome_iff_exists.mp hkey
    exact ⟨w, by rw [Stash.get, hw]⟩
  · cases hresult : evaluate t.find? d path with
    | ok w => exact .inl ⟨w, rfl⟩
    | error fault =>
      by_cases hkind : fault.errorKind = .invalidPath
      · exact .inr (.inl ⟨fault, rfl, hkind⟩)
      · exact .inr (.inr ⟨fault, breaks_of_walk hresult hkind⟩)
  · constructor
    · intro hbreaks
      exact ⟨hbreaks.walk_eq path, hbreaks.kind⟩
    · rintro ⟨hresult, hkind⟩
      refine breaks_of_walk hresult fun hinvalid => ?_
      rw [hinvalid] at hkind
      exact hkind.elim nofun nofun

/-- The least integer that is too long to be written, behind a segment that is its own key. -/
theorem evaluate_kept_long :
    ∃ t, ({} : Stash).insert "k" (.list [.int (10 ^ digitLimit)]) = .ok t ∧
      evaluate t.find? (.map false [(.text "a", .map false [])]) "a.k" = .error (.number .tooLargeToWrite) := by
  obtain ⟨t, ht⟩ : ∃ t, ({} : Stash).insert "k" (.list [.int (10 ^ digitLimit)]) = .ok t :=
    Stash.insert_ok rfl (by decide) _
  have hlong : ¬Value.Writable (Value.integers (.list [.int (10 ^ digitLimit)])) := fun hw =>
    absurd (hw (10 ^ digitLimit) (List.mem_singleton_self _)) (by simp [Int.natAbs_pow])
  have hpath : Path.parse "a.k" = ["a", "k"] := by decide
  have ha : t.find? "a" = none := by
    rw [Stash.find?_insert ht, if_neg (by decide)]
    rfl
  have hclear : ∀ f, ¬Stuck t.find? (.map false [(.text "a", .map false [])]) "a" f := by
    intro f hstuck
    cases hstuck with
    | unwritable hs => cases ha.symm.trans hs
    | uncountable _ hnode | padded _ hnode => cases hnode
  refine ⟨t, ht, (((evaluate_kept ht).2.2 _ "a.k").2 _ |>.mp ?_).1⟩
  rw [hpath]
  exact .later nofun hclear (.own ha) (.entry rfl (by decide) rfl) (.here nofun (.unwritable (Stash.find?_inserted ht) hlong))

/-- The first item of a list, by an index of zeros that a stash keeps. -/
theorem evaluate_kept_padded :
    ∃ t, ({} : Stash).insert "k" (.text (zeros 4301)) = .ok t ∧ IsIndex (zeros 4301) 0 ∧
      evaluate t.find? (.list [.int 7]) "k" = .error (.number (.tooManyDigits 4301)) := by
  obtain ⟨t, ht⟩ : ∃ t, ({} : Stash).insert "k" (.text (zeros 4301)) = .ok t := Stash.insert_ok rfl (by decide) _
  have hindex : IsIndex (zeros 4301) 0 := isIndex_zeros (by decide)
  have hpath : Path.parse "k" = ["k"] := by decide
  have hstuck : Stuck t.find? (.list [.int 7]) "k" (.number (.tooManyDigits 4301)) := by
    have hlength : (splitSign (zeros 4301)).2.length = 4301 := by
      rw [splitSign_digits isDigit_of_mem_zeros]
      exact List.length_replicate
    rw [← hlength]
    exact .padded (.kept (Stash.find?_inserted ht) rfl) rfl hindex (by decide) (padded_zeros _ (by decide))
  refine ⟨t, ht, hindex, ?_⟩
  rw [evaluate, trace, hpath]
  exact hstuck.walk_eq (fun h => by cases h) "k" []

end Query

end DocPath
