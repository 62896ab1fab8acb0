import DocPath.Proofs.Path.Segments
import DocPath.Proofs.Query.Outcome

/-! Looking up a key in a sequence: the item at the integer that the key stands for, or one of two errors about an
invalid path. Only keys that are padded with zeros beyond the limit of digits escape this rule. -/

namespace DocPath.Query

open Numeral

variable {d : Value} {items : Items}

lemma step_of_sequence (hd : d.node = .sequence items) (key : Text) : step d key = item items key := by
  rw [step, hd]

/-- In a sequence that can be counted, an index that is not padded with too many zeros gives the item at its integer if
that is in range, and is out of bounds otherwise; comparing the numbers of digits first never changes this. An index that
is padded so is a number that is not read, in range or not. All other keys are not numeric. -/
theorem step_sequence (hd : d.node = .sequence items) (hn : items.size < 2 ^ 63) (key : Text) :
    (∀ i, IsIndex key i →
      ((Text.ofNat items.size).length < (significant key).length → ¬(0 ≤ i ∧ i < items.size)) ∧
      (¬Padded items key → 0 ≤ i ∧ i < items.size → ∃ v, items.get? i.toNat = some v ∧ step d key = .ok v) ∧
      (¬Padded items key → ¬(0 ≤ i ∧ i < items.size) →
        ∃ fault, step d key = .error fault ∧ fault.errorKind = .invalidPath ∧
          fault.message = .concat ["element was a list with ", .ofNat items.size, " elements, but [", key,
            "] was out of bounds"]) ∧
      (Padded items key → ∃ fault, step d key = .error fault ∧ fault.errorKind = .value)) ∧
    ((∀ i, ¬IsIndex key i) →
      ∃ fault, step d key = .error fault ∧ fault.errorKind = .invalidPath ∧
        fault.message = .concat ["element was a list, but [", key, "] was not numeric"]) := by
  rw [step_of_sequence hd]
  refine ⟨fun i hi => ⟨not_inRange_of_significant hi, fun hpadded hrange => ?_, fun hpadded hrange => ?_,
    fun hpadded => ?_⟩, fun hnone => ?_⟩
  · obtain ⟨v, hv⟩ := itemAt?_isSome hrange
    refine ⟨v, ?_, by rw [item_eq hn hi, if_neg hpadded, hv]; rfl⟩
    rwa [itemAt?, if_neg (by omega)] at hv
  · exact ⟨_, by rw [item_eq hn hi, if_neg hpadded, itemAt?_eq_none hrange]; rfl, rfl, rfl⟩
  · exact ⟨_, by rw [item_eq hn hi, if_pos hpadded], rfl⟩
  · exact ⟨_, item_of_not_isIndex items hnone, rfl, rfl⟩

/-- The last index of a sequence of ten, with a sign and zeros in front, and the first behind it. -/
theorem step_sequence_ten :
    let d : Value := .range 0 10 1
    d.node = .sequence (.progression 0 1 10) ∧ step d "+0009" = .ok (.int 9) ∧
      ∃ fault, step d "10" = .error fault ∧ fault.errorKind = .invalidPath ∧
        fault.message = "element was a list with 10 elements, but [10] was out of bounds" := by
  intro d
  have hd : d.node = .sequence (.progression 0 1 10) := rfl
  have hdigits : List.all ("0009" : Text) CodePoint.isDigit = true := by decide
  have hnine : IsIndex "+0009" 9 := .mk .plus (List.all_eq_true.mp hdigits) nofun
  have hten : IsIndex "10" 10 := .mk .none (Text.ofNat_isDigit 10) (Text.ofNat_ne_nil 10)
  obtain ⟨v, hv, hstep⟩ :=
    ((step_sequence hd (by decide) "+0009").1 9 hnine).2.1 (by decide +kernel) (by decide)
  obtain rfl : .int 9 = v := Option.some.inj hv
  exact ⟨hd, hstep, ((step_sequence hd (by decide) "10").1 10 hten).2.2.1 (by decide +kernel) (by decide)⟩

/-- Zeros alone. -/
def zeros (n : Nat) : Text := List.replicate n (CodePoint.ofChar '0')

lemma isDigit_of_mem_zeros {n : Nat} : ∀ c ∈ zeros n, c.isDigit = true := by
  intro c hc
  rw [List.eq_of_mem_replicate hc]
  rfl

lemma isIndex_zeros {n : Nat} (hn : 0 < n) : IsIndex (zeros n) 0 := by
  have hvalue : value 10 (zeros n) = 0 := by
    rw [← value_dropWhile_zero, zeros, List.dropWhile_replicate]
    rfl
  have hindex : IsIndex (zeros n) (value 10 (zeros n)) :=
    .mk .none isDigit_of_mem_zeros (List.ne_nil_of_length_pos (by simpa [zeros] using hn))
  rwa [hvalue] at hindex

lemma padded_zeros (items : Items) {n : Nat} (hn : digitLimit < n) : Padded items (zeros n) := by
  rw [Padded, significant, splitSign_digits isDigit_of_mem_zeros]
  exact ⟨by simpa [zeros] using hn, by simp [zeros]⟩

lemma parse_zeros {n : Nat} (hn : 0 < n) : Path.parse (zeros n) = [zeros n] := by
  have hmem {c : CodePoint} (hc : c ≠ CodePoint.ofChar '0') : c ∉ zeros n := fun h => hc (List.eq_of_mem_replicate h)
  refine Path.parse_segment ⟨List.ne_nil_of_length_pos (by simpa [zeros] using hn), hmem (by decide)⟩ (hmem (by decide))

lemma evaluate_zeros (store : Store) {n : Nat} (hn : digitLimit < n) (hstore : store (zeros n) = none)
    (hd : d.node = .sequence items) (hsize : items.size < 2 ^ 63) :
    evaluate store d (zeros n) = .error (.number (.tooManyDigits n)) := by
  have hpos : 0 < n := (Nat.zero_le _).trans_lt hn
  have hnull : d ≠ .null := by
    rintro rfl
    cases hd
  have hstep : step d (zeros n) = .error (.number (.tooManyDigits n)) := by
    rw [step_of_sequence hd, item_eq hsize (isIndex_zeros hpos), if_pos (padded_zeros items hn),
      splitSign_digits isDigit_of_mem_zeros, zeros, List.length_replicate]
  rw [evaluate, trace, parse_zeros hpos, walk_cons [] hnull (.own hstore), hstep]

/-- Zeros beyond the limit of digits are an index in range, but are not read. -/
theorem evaluate_padded :
    let d : Value := .list [.int 7]
    IsIndex (zeros 4301) 0 ∧ d.node = .sequence (.listed [.int 7]) ∧ (Items.listed [.int 7]).get? 0 = some (.int 7) ∧
      evaluate (fun _ => none) d (zeros 4301) = .error (.number (.tooManyDigits 4301)) :=
  ⟨isIndex_zeros (by decide), rfl, rfl, evaluate_zeros _ (by decide) rfl rfl (by decide)⟩

end DocPath.Query
