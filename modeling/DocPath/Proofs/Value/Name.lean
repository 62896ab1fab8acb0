import DocPath.Value.Render
import DocPath.Proofs.Number.Numeral

/-! When a value has a name. Only an integer with too many digits keeps a value from being shown, wherever
in the value it stands. -/

namespace DocPath

open Numeral

namespace Value

mutual

/-- The integers in a value, the bounds and steps of ranges among them. -/
def integers : Value → List Int
  | .scalar (.int i) => [i]
  | .range a b c => [a, b, c]
  | .list xs => integersAll xs
  | .tuple xs => integersAll xs
  | .sequence _ xs => integersAll xs
  | .map _ es => integersEntries es
  | .set _ xs => integersAll xs
  | .anchor _ v => integers v
  | _ => []

def integersAll : List Value → List Int
  | [] => []
  | x :: xs => integers x ++ integersAll xs

def integersEntries : List (Value × Value) → List Int
  | [] => []
  | (k, v) :: es => integers k ++ integers v ++ integersEntries es

end

/-- Every integer in a list can be written in decimal digits. -/
def Writable (is : List Int) : Prop := ∀ i ∈ is, i.natAbs < 10 ^ digitLimit

lemma writable_nil : Writable [] := nofun

lemma writable_append {is js : List Int} : Writable (is ++ js) ↔ Writable is ∧ Writable js := List.forall_mem_append

lemma Writable.append {is js : List Int} (h : Writable (is ++ js)) : Writable is ∧ Writable js := writable_append.mp h

lemma mapM_writeInteger_ok {is : List Int} (h : Writable is) :
    ∃ ts, is.mapM writeInteger = .ok ts := by
  induction is with
  | nil => exact ⟨[], rfl⟩
  | cons i is ih =>
    obtain ⟨t, ht⟩ := writeInteger_isOk_iff.mpr (h i (by simp))
    obtain ⟨ts, hts⟩ := ih fun j hj => h j (by simp [hj])
    exact ⟨t :: ts, by rw [List.mapM_cons, ht, hts]; rfl⟩

lemma writeInteger_error {i : Int} (h : ¬i.natAbs < 10 ^ digitLimit) : writeInteger i = .error .tooLargeToWrite := by
  rw [← writeInteger_isOk_iff, writeInteger] at h
  by_cases hl : digitLimit < (Text.ofNat i.natAbs).length
  · exact if_pos hl
  · exact absurd ⟨_, if_neg hl⟩ h

lemma mapM_writeInteger_error {is : List Int} (h : ¬Writable is) :
    is.mapM writeInteger = .error .tooLargeToWrite := by
  induction is with
  | nil => exact absurd writable_nil h
  | cons i is ih =>
    rw [List.mapM_cons]
    by_cases hi : i.natAbs < 10 ^ digitLimit
    · obtain ⟨t, ht⟩ := writeInteger_isOk_iff.mpr hi
      rw [ht, ih fun hs => h (List.forall_mem_cons.mpr ⟨hi, hs⟩)]
      rfl
    · rw [writeInteger_error hi]
      rfl

lemma scalar_shown_ok {s : Scalar} (h : Writable (integers (.scalar s))) :
    ∃ t, s.shown = .ok t := by
  cases s with
  | int i => exact writeInteger_isOk_iff.mpr (h i (by simp [integers]))
  | _ => exact ⟨_, rfl⟩

mutual

theorem shownWithin_ok (around : List (Nat × Text)) :
    ∀ v : Value, Writable v.integers → ∃ t, shownWithin around v = .ok t
  | .null, _ => ⟨_, rfl⟩
  | .scalar _, h => scalar_shown_ok h
  | .range a b c, h => by
    by_cases hc : c = 1
    · have hab : Writable [a, b] := fun i hi => h i (by
        simp only [integers, List.mem_cons, List.not_mem_nil, or_false] at hi ⊢
        tauto)
      obtain ⟨ts, hts⟩ := mapM_writeInteger_ok hab
      exact ⟨_, by rw [shownWithin, if_pos hc, hts]; rfl⟩
    · obtain ⟨ts, hts⟩ := mapM_writeInteger_ok (show Writable [a, b, c] from h)
      exact ⟨_, by rw [shownWithin, if_neg hc, hts]; rfl⟩
  | .list xs, h => by
    obtain ⟨ts, hts⟩ := shownAll_ok around xs h
    exact ⟨_, by rw [shownWithin, hts]; rfl⟩
  | .tuple xs, h => by
    obtain ⟨ts, hts⟩ := shownAll_ok around xs h
    rw [shownWithin, hts]
    match ts with
    | [] | [_] | _ :: _ :: _ => exact ⟨_, rfl⟩
  | .sequence _ xs, h => by
    obtain ⟨ts, hts⟩ := shownAll_ok around xs h
    exact ⟨_, by rw [shownWithin, hts]; rfl⟩
  | .map false es, h => by
    obtain ⟨ts, hts⟩ := shownEntries_ok around es h
    exact ⟨_, by rw [shownWithin, hts]; rfl⟩
  | .map true es, h => by
    obtain ⟨ts, hts⟩ := shownEntries_ok around es h
    rw [shownWithin, hts]
    match ts with
    | [] | _ :: _ => exact ⟨_, rfl⟩
  | .set frozen xs, h => by
    obtain ⟨ts, hts⟩ := shownAll_ok around xs h
    rw [shownWithin, hts]
    match ts, frozen with
    | [], false | [], true | _ :: _, false | _ :: _, true => exact ⟨_, rfl⟩
  | .anchor l v, h => shownWithin_ok _ v h
  | .alias _, _ => ⟨_, rfl⟩

theorem shownAll_ok (around : List (Nat × Text)) :
    ∀ xs : List Value, Writable (integersAll xs) → ∃ ts, shownAll around xs = .ok ts
  | [], _ => ⟨_, rfl⟩
  | x :: xs, h => by
    obtain ⟨t, ht⟩ := shownWithin_ok around x h.append.1
    obtain ⟨ts, hts⟩ := shownAll_ok around xs h.append.2
    exact ⟨_, by rw [shownAll, ht, hts]; rfl⟩

theorem shownEntries_ok (around : List (Nat × Text)) :
    ∀ es : List (Value × Value), Writable (integersEntries es) →
      ∃ ts, shownEntries around es = .ok ts
  | [], _ => ⟨_, rfl⟩
  | (k, v) :: es, h => by
    obtain ⟨t, ht⟩ := shownWithin_ok around k h.append.1.append.1
    obtain ⟨u, hu⟩ := shownWithin_ok around v h.append.1.append.2
    obtain ⟨ts, hts⟩ := shownEntries_ok around es h.append.2
    exact ⟨_, by rw [shownEntries, ht, hu, hts]; rfl⟩

end

lemma plain_ok (v : Value) (h : Writable v.integers) : ∃ t, v.plain = .ok t := by
  unfold plain
  split
  · exact ⟨_, rfl⟩
  · exact ⟨_, rfl⟩
  · exact ⟨_, rfl⟩
  · exact ⟨_, rfl⟩
  · split
    · exact ⟨_, rfl⟩
    · exact ⟨_, rfl⟩
    · exact shownWithin_ok [] _ h
  · exact shownWithin_ok [] _ h

/-- A value has a name unless some integer in it has too many digits to be written. -/
theorem asName_ok (v : Value) (h : Writable v.integers) : ∃ t, v.asName = .ok t := by
  unfold asName
  split
  · exact ⟨_, rfl⟩
  · exact ⟨_, rfl⟩
  · exact plain_ok _ h

mutual

/-- One integer that is too long to be written is enough. -/
theorem shownWithin_error (around : List (Nat × Text)) :
    ∀ v : Value, ¬Writable v.integers → shownWithin around v = .error .tooLargeToWrite
  | .null, h | .alias _, h => absurd writable_nil h
  | .scalar s, h => by
    cases s with
    | int i => exact writeInteger_error fun hi => h (List.forall_mem_singleton.mpr hi)
    | _ => exact absurd writable_nil h
  | .range a b c, h => by
    have hnumbers : (if c = 1 then [a, b] else [a, b, c]).mapM writeInteger = .error .tooLargeToWrite := by
      refine mapM_writeInteger_error fun hw => h ?_
      split_ifs at hw with hc
      · subst hc
        exact writable_append.mpr ⟨hw, List.forall_mem_singleton.mpr (Nat.one_lt_pow (by decide) (by decide))⟩
      · exact hw
    rw [shownWithin, hnumbers]
    rfl
  | .list xs, h | .tuple xs, h | .sequence _ xs, h => by
    rw [shownWithin, shownAll_error around xs h]
    rfl
  | .map ordered es, h => by
    cases ordered <;> rw [shownWithin, shownEntries_error around es h] <;> rfl
  | .set frozen xs, h => by
    rw [shownWithin, shownAll_error around xs h]
    rfl
  | .anchor _ v, h => shownWithin_error _ v h

theorem shownAll_error (around : List (Nat × Text)) :
    ∀ xs : List Value, ¬Writable (integersAll xs) → shownAll around xs = .error .tooLargeToWrite
  | [], h => absurd writable_nil h
  | x :: xs, h => by
    rw [shownAll]
    by_cases hx : Writable x.integers
    · obtain ⟨t, ht⟩ := shownWithin_ok around x hx
      rw [ht, shownAll_error around xs fun hxs => h (writable_append.mpr ⟨hx, hxs⟩)]
      rfl
    · rw [shownWithin_error around x hx]
      rfl

theorem shownEntries_error (around : List (Nat × Text)) :
    ∀ es : List (Value × Value), ¬Writable (integersEntries es) →
      shownEntries around es = .error .tooLargeToWrite
  | [], h => absurd writable_nil h
  | (k, v) :: es, h => by
    rw [shownEntries]
    by_cases hk : Writable k.integers
    · obtain ⟨t, ht⟩ := shownWithin_ok around k hk
      by_cases hv : Writable v.integers
      · obtain ⟨u, hu⟩ := shownWithin_ok around v hv
        have hes : ¬Writable (integersEntries es) := fun hes =>
          h (writable_append.mpr ⟨writable_append.mpr ⟨hk, hv⟩, hes⟩)
        rw [ht, hu, shownEntries_error around es hes]
        rfl
      · rw [ht, shownWithin_error around v hv]
        rfl
    · rw [shownWithin_error around k hk]
      rfl

end

lemma plain_error (v : Value) (h : ¬Writable v.integers) : v.plain = .error .tooLargeToWrite := by
  unfold plain
  split
  · exact absurd writable_nil h
  · exact absurd writable_nil h
  · exact absurd writable_nil h
  · exact absurd writable_nil h
  · split
    · exact absurd writable_nil h
    · exact absurd writable_nil h
    · exact shownWithin_error [] _ h
  · exact shownWithin_error [] _ h

/-- All other values have none. -/
theorem asName_error (v : Value) (h : ¬Writable v.integers) : v.asName = .error .tooLargeToWrite := by
  unfold asName
  split
  · exact absurd writable_nil h
  · exact absurd writable_nil h
  · exact plain_error _ h

end Value

end DocPath
