import DocPath.Query
import DocPath.Proofs.Number.Numeral

/-! Written indices of sequences. An index is a sign and digits; looking it up gives the item at the integer
that it stands for, and the shortcut for long indices never changes the answer. -/

namespace DocPath.Query

open Numeral

/-- A text that is an optional sign and at least one digit, and the integer that it stands for. -/
inductive IsIndex : Text → Int → Prop
  | mk {sign digits : Text} {negative : Bool} (hs : IsSign sign negative)
      (hd : ∀ c ∈ digits, c.isDigit = true) (hne : digits ≠ []) :
      IsIndex (sign ++ digits) (if negative then -(value 10 digits : Int) else value 10 digits)

/-- The sequence can be counted, and the key is short enough to be read as an integer. -/
def Countable (items : Items) (key : Text) : Prop :=
  items.size < 2 ^ 63 ∧ key.countP CodePoint.isDigit ≤ digitLimit

lemma sizeLimit_eq : sizeLimit = 2 ^ 63 - 1 := rfl

lemma splitSign_isSign (key : Text) :
    ∃ sign, IsSign sign (splitSign key).1 ∧ key = sign ++ (splitSign key).2 := by
  cases key with
  | nil => exact ⟨[], .none, rfl⟩
  | cons c rest =>
    simp only [splitSign]
    split_ifs with hm hp
    · exact ⟨[CodePoint.ofChar '-'], .minus, by rw [hm]; rfl⟩
    · exact ⟨[CodePoint.ofChar '+'], .plus, by rw [hp]; rfl⟩
    · exact ⟨[], .none, rfl⟩

theorem isIndex_iff (key : Text) : isIndex key = true ↔ ∃ i, IsIndex key i := by
  simp only [isIndex, Bool.and_eq_true, Bool.not_eq_true', List.isEmpty_eq_false_iff,
    List.all_eq_true]
  constructor
  · rintro ⟨hne, hd⟩
    obtain ⟨sign, hs, hk⟩ := splitSign_isSign key
    rw [hk]
    exact ⟨_, .mk hs hd hne⟩
  · rintro ⟨i, hs, hd, hne⟩
    rw [splitSign_append hs hd]
    exact ⟨hne, hd⟩

lemma countP_isDigit_digits {sign digits : Text} (hd : ∀ c ∈ digits, c.isDigit = true) :
    digits.length ≤ (sign ++ digits).countP CodePoint.isDigit := by
  rw [List.countP_append, List.countP_eq_length.mpr hd]
  omega

lemma length_dropWhile_le_value {digits : Text} (hd : ∀ c ∈ digits, c.isDigit = true) {n : Nat}
    (h : (Text.ofNat n).length < (digits.dropWhile (· == CodePoint.ofChar '0')).length) :
    n ≤ value 10 digits := by
  rw [← value_dropWhile_zero]
  have hall : ∀ c ∈ digits.dropWhile (· == CodePoint.ofChar '0'), c.isDigit = true :=
    fun c hc => hd c ((List.dropWhile_sublist _).subset hc)
  cases hw : digits.dropWhile (· == CodePoint.ofChar '0') with
  | nil => rw [hw] at h; simp at h
  | cons c rest =>
    have h0 : c ≠ CodePoint.ofChar '0' := by
      have := List.head?_dropWhile_not (· == CodePoint.ofChar '0') digits
      simpa [hw] using this
    have hlen : (Text.ofNat n).length ≤ rest.length := by
      rw [hw, List.length_cons] at h
      omega
    have hpos : 0 < rest.length :=
      (List.length_pos_iff.mpr (Text.ofNat_ne_nil n)).trans_le hlen
    have hn := (Text.length_ofNatBase_le_iff (by decide) hpos).mp hlen
    exact hn.le.trans (pow_le_value (hall c (by rw [hw]; simp)) h0)

/-- The item at an integer place. -/
def itemAt? (items : Items) (i : Int) : Option Value :=
  if i < 0 then none else items.get? i.toNat

lemma itemAt?_eq_none {items : Items} {i : Int} (h : ¬(0 ≤ i ∧ i < items.size)) :
    itemAt? items i = none := by
  unfold itemAt?
  split_ifs with hi
  · rfl
  · have hn : items.size ≤ i.toNat := by omega
    cases items with
    | listed xs => exact List.getElem?_eq_none hn
    | progression a b k => exact if_neg (by simpa [Items.size] using hn)

lemma itemAt?_isSome {items : Items} {i : Int} (h : 0 ≤ i ∧ i < items.size) :
    ∃ v, itemAt? items i = some v := by
  unfold itemAt?
  rw [if_neg (by omega)]
  cases items with
  | listed xs =>
    have hn : i.toNat < xs.length := by have := h.2; simp only [Items.size] at this; omega
    exact ⟨xs[i.toNat], List.getElem?_eq_getElem hn⟩
  | progression a b k =>
    have hn : i.toNat < k := by have := h.2; simp only [Items.size] at this; omega
    exact ⟨_, if_pos hn⟩

/-- The digits of a key without the zeros in front. -/
def significant (key : Text) : Text := (splitSign key).2.dropWhile (· == CodePoint.ofChar '0')

/-- The digits of a key are too many to be read, but without the zeros in front they are not more than those of the
size. -/
def Padded (items : Items) (key : Text) : Prop :=
  digitLimit < (splitSign key).2.length ∧ (significant key).length ≤ (Text.ofNat items.size).length

instance (items : Items) (key : Text) : Decidable (Padded items key) := inferInstanceAs (Decidable (_ ∧ _))

/-- An index that is longer than the size without its zeros in front is not in range. -/
lemma not_inRange_of_significant {n : Nat} {key : Text} {i : Int} (hi : IsIndex key i)
    (h : (Text.ofNat n).length < (significant key).length) : ¬(0 ≤ i ∧ i < n) := by
  cases hi with
  | @mk sign digits negative hs hd hne =>
    rw [significant, splitSign_append hs hd] at h
    have hv := length_dropWhile_le_value hd h
    split_ifs <;> omega

/-- An index gives the item at its integer, and is out of bounds if there is none, unless it is padded. -/
theorem item_eq {items : Items} {key : Text} {i : Int} (hn : items.size < 2 ^ 63) (hi : IsIndex key i) :
    item items key =
      if Padded items key then .error (.number (.tooManyDigits (splitSign key).2.length))
      else (itemAt? items i).elim (.error (.outOfBounds items.size key)) .ok := by
  have hindex := (isIndex_iff key).mpr ⟨i, hi⟩
  have hsize : ¬ sizeLimit < items.size := by
    rw [sizeLimit_eq]
    omega
  by_cases hlong : (Text.ofNat items.size).length < (significant key).length
  · -- more digits than the size has: the item is missing anyway
    rw [if_neg fun h => Nat.not_lt.mpr h.2 hlong, itemAt?_eq_none (not_inRange_of_significant hi hlong)]
    rw [significant] at hlong
    simp [item, hindex, hsize, hlong]
  · cases hi with
    | @mk sign digits negative hs hd hne =>
      simp only [item, hindex, hsize, readInteger_signed hs hd hne, Padded, significant, splitSign_append hs hd,
        Bool.not_true, Bool.false_eq_true, if_false] at hlong ⊢
      rw [if_neg hlong]
      by_cases hl : digitLimit < digits.length
      · rw [if_pos hl, if_pos ⟨hl, Nat.le_of_not_lt hlong⟩]
      · have hread : ¬(digitLimit < digits.length ∧
            (digits.dropWhile (· == CodePoint.ofChar '0')).length ≤ (Text.ofNat items.size).length) := fun h => hl h.1
        rw [if_neg hl, if_neg hread, itemAt?]
        generalize (if negative = true then -(value 10 digits : Int) else value 10 digits) = i
        dsimp only
        cases if i < 0 then none else items.get? i.toNat <;> rfl

/-- An index that is short enough to be read gives the item at its integer, and is out of bounds if there is none. -/
theorem item_of_isIndex {items : Items} {key : Text} {i : Int} (hc : Countable items key)
    (hi : IsIndex key i) :
    item items key = (itemAt? items i).elim (.error (.outOfBounds items.size key)) .ok := by
  have hpadded : ¬Padded items key := by
    intro h
    cases hi with
    | @mk sign digits negative hs hd hne =>
      have hl : digits.length ≤ digitLimit := (countP_isDigit_digits hd).trans hc.2
      rw [Padded, splitSign_append hs hd] at h
      exact Nat.not_lt.mpr hl h.1
  rw [item_eq hc.1 hi, if_neg hpadded]

lemma item_of_uncountable {items : Items} {key : Text} {i : Int} (hn : ¬items.size < 2 ^ 63) (hi : IsIndex key i) :
    item items key = .error .uncountable := by
  have hlimit : sizeLimit < items.size := by
    rw [sizeLimit_eq]
    omega
  simp [item, (isIndex_iff key).mpr ⟨i, hi⟩, hlimit]

theorem item_of_not_isIndex (items : Items) {key : Text} (h : ∀ i, ¬ IsIndex key i) :
    item items key = .error (.notNumeric key) := by
  have : isIndex key = false := by
    rw [← Bool.not_eq_true, isIndex_iff]
    exact fun ⟨i, hi⟩ => h i hi
  simp [item, this]

end DocPath.Query
