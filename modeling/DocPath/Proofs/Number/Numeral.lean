import DocPath.Number.Numeral
import DocPath.Proofs.Text
import Mathlib.Data.List.Induction
import Mathlib.Tactic.IntervalCases
import Mathlib.Tactic.Ring

/-! Digits and the integers that they stand for. Decimal text of an integer reads back as the integer,
and the number of its digits tells its size. -/

namespace DocPath

namespace CodePoint

theorem digitValue_of_isDigit {c : CodePoint} (h : c.isDigit = true) :
    c.digitValue = c.val - 48 := if_pos h

theorem digitValue_lt_ten {c : CodePoint} (h : c.isDigit = true) : c.digitValue < 10 := by
  rw [digitValue_of_isDigit h]
  have := isDigit_iff.mp h
  omega

theorem isDigit_of_digitValue {c : CodePoint} (h : c.digitValue < 10) : c.isDigit = true := by
  simp only [digitValue, Bool.and_eq_true, decide_eq_true_eq, Fin.le_def, ofChar_val, Char.reduceToNat] at h
  rw [isDigit_iff]
  split_ifs at h <;> omega

theorem digitValue_digitChar {d : Nat} (h : d < 16) :
    (ofChar (Nat.digitChar d)).digitValue = d := by
  interval_cases d <;> rfl

theorem isDigit_digitChar {d : Nat} (h : d < 10) : (ofChar (Nat.digitChar d)).isDigit = true := by
  interval_cases d <;> rfl

theorem digitValue_upperLetter (c : CodePoint) : c.upperLetter.digitValue = c.digitValue := by
  unfold upperLetter
  split_ifs with h
  · simp only [Bool.and_eq_true, decide_eq_true_eq, Fin.le_def, ofChar_val, Char.reduceToNat] at h
    have hv : (ofNat (c.val - 32)).val = c.val - 32 := ofNat_val (by have := c.isLt; omega)
    simp only [digitValue, Bool.and_eq_true, decide_eq_true_eq, Fin.le_def, ofChar_val, Char.reduceToNat, hv]
    split_ifs <;> omega
  · rfl

end CodePoint

namespace Numeral

theorem value_append (base : Nat) (s t : Text) :
    value base (s ++ t) = value base s * base ^ t.length + value base t := by
  induction t using List.reverseRecOn with
  | nil => simp [value]
  | append_singleton t c ih =>
    rw [← List.append_assoc]
    simp only [value, List.foldl_append, List.foldl_cons, List.foldl_nil, List.length_append,
      List.length_cons, List.length_nil] at ih ⊢
    rw [ih]
    ring

@[simp] theorem value_singleton (base : Nat) (c : CodePoint) : value base [c] = c.digitValue := by
  simp [value]

theorem value_cons (base : Nat) (c : CodePoint) (t : Text) :
    value base (c :: t) = c.digitValue * base ^ t.length + value base t := by
  simpa using value_append base [c] t

theorem value_map {base : Nat} {f : CodePoint → CodePoint}
    (hf : ∀ c, (f c).digitValue = c.digitValue) (t : Text) : value base (t.map f) = value base t := by
  simp only [value, List.foldl_map, hf]

theorem value_padLeft (base width : Nat) (t : Text) :
    value base (Text.padLeft '0' width t) = value base t := by
  have hz : ∀ k, value base (List.replicate k (CodePoint.ofChar '0')) = 0 := by
    intro k
    induction k with
    | zero => rfl
    | succ k ih =>
      rw [List.replicate_succ, value_cons, ih, show (CodePoint.ofChar '0').digitValue = 0 from rfl, Nat.zero_mul]
  rw [Text.padLeft, value_append, hz, Nat.zero_mul, Nat.zero_add]

end Numeral

namespace Text

theorem ofNatBase_eq_if {base : Nat} (hb : 1 < base) (n : Nat) :
    ofNatBase base n =
      if n < base then [CodePoint.ofChar (Nat.digitChar n)]
      else ofNatBase base (n / base) ++ [CodePoint.ofChar (Nat.digitChar (n % base))] := by
  unfold ofNatBase
  rw [Nat.toDigits_eq_if hb]
  split_ifs <;> simp

theorem ofNatBase_ne_nil (base n : Nat) : ofNatBase base n ≠ [] := by
  simp [ofNatBase]

theorem value_ofNatBase {base : Nat} (hb : 1 < base) (h16 : base ≤ 16) (n : Nat) :
    Numeral.value base (ofNatBase base n) = n := by
  induction n using Nat.strongRecOn with
  | ind n ih =>
    rw [ofNatBase_eq_if hb]
    split_ifs with h
    · rw [Numeral.value_singleton, CodePoint.digitValue_digitChar (h.trans_le h16)]
    · have hlt : n / base < n := Nat.div_lt_self (by omega) hb
      have hd : n % base < 16 := (Nat.mod_lt n (by omega)).trans_le h16
      rw [Numeral.value_append, ih _ hlt, Numeral.value_singleton,
        CodePoint.digitValue_digitChar hd, List.length_singleton, pow_one, mul_comm]
      exact Nat.div_add_mod n base

theorem value_ofNat (n : Nat) : Numeral.value 10 (ofNat n) = n :=
  value_ofNatBase (by decide) (by decide) n

theorem ofNat_isDigit (n : Nat) : ∀ c ∈ ofNat n, c.isDigit = true := by
  unfold ofNat
  induction n using Nat.strongRecOn with
  | ind n ih =>
    rw [ofNatBase_eq_if (by decide)]
    split_ifs with h
    · intro c hc
      rw [List.mem_singleton.mp hc]
      exact CodePoint.isDigit_digitChar h
    · intro c hc
      rcases List.mem_append.mp hc with hc | hc
      · exact ih (n / 10) (by omega) c hc
      · rw [List.mem_singleton.mp hc]
        exact CodePoint.isDigit_digitChar (Nat.mod_lt n (by decide))

theorem ofNat_ne_nil (n : Nat) : ofNat n ≠ [] := ofNatBase_ne_nil 10 n

theorem length_ofNatBase_le_iff {base n k : Nat} (hb : 1 < base) (hk : 0 < k) :
    (ofNatBase base n).length ≤ k ↔ n < base ^ k := by
  rw [ofNatBase, List.length_map]
  exact Nat.length_toDigits_le_iff hb hk

theorem digitValue_lt_ofNatBase {base : Nat} (hb : 1 < base) (h16 : base ≤ 16) (n : Nat) :
    ∀ c ∈ ofNatBase base n, c.digitValue < base := by
  induction n using Nat.strongRecOn with
  | ind n ih =>
    rw [ofNatBase_eq_if hb]
    split_ifs with h
    · intro c hc
      rw [List.mem_singleton.mp hc, CodePoint.digitValue_digitChar (h.trans_le h16)]
      exact h
    · intro c hc
      rcases List.mem_append.mp hc with hc | hc
      · exact ih _ (Nat.div_lt_self (by omega) hb) c hc
      · have hd : n % base < base := Nat.mod_lt n (by omega)
        rw [List.mem_singleton.mp hc, CodePoint.digitValue_digitChar (hd.trans_le h16)]
        exact hd

theorem value_hexCapital (width n : Nat) : Numeral.value 16 (hexCapital width n) = n := by
  rw [hexCapital, Numeral.value_map CodePoint.digitValue_upperLetter, hex, Numeral.value_padLeft,
    value_ofNatBase (by decide) (by decide)]

theorem length_hexCapital {width n : Nat} (hw : 0 < width) (h : n < 16 ^ width) :
    (hexCapital width n).length = width := by
  have := (@length_ofNatBase_le_iff 16 n width (by decide) hw).mpr h
  rw [hexCapital, List.length_map, hex, padLeft, List.length_append, List.length_replicate]
  omega

theorem isHexDigit_hex (width n : Nat) : ∀ c ∈ hex width n, c.isHexDigit = true := by
  intro c hc
  rw [CodePoint.isHexDigit, decide_eq_true_eq]
  rcases List.mem_append.mp hc with hc | hc
  · rw [List.eq_of_mem_replicate hc]
    decide
  · exact digitValue_lt_ofNatBase (by decide) (by decide) n c hc

theorem isHexDigit_hexCapital (width n : Nat) : ∀ c ∈ hexCapital width n, c.isHexDigit = true := by
  intro c hc
  obtain ⟨d, hd, rfl⟩ := List.mem_map.mp hc
  rw [CodePoint.isHexDigit, CodePoint.digitValue_upperLetter]
  exact isHexDigit_hex width n d hd

end Text

namespace Numeral

theorem value_lt_base_pow {base : Nat} {t : Text} (h : ∀ c ∈ t, c.digitValue < base) : value base t < base ^ t.length := by
  induction t with
  | nil => simp [value]
  | cons c t ih =>
    have hc := h c (by simp)
    have ht := ih fun d hd => h d (by simp [hd])
    rw [value_cons, List.length_cons, pow_succ']
    calc c.digitValue * base ^ t.length + value base t
        < (c.digitValue + 1) * base ^ t.length := by rw [Nat.succ_mul]; omega
      _ ≤ base * base ^ t.length := Nat.mul_le_mul_right _ hc

theorem value_lt_pow {t : Text} (h : ∀ c ∈ t, c.isDigit = true) : value 10 t < 10 ^ t.length :=
  value_lt_base_pow fun c hc => CodePoint.digitValue_lt_ten (h c hc)

/-- Zeros in front of digits add nothing. -/
theorem value_dropWhile_zero (t : Text) :
    value 10 (t.dropWhile (· == CodePoint.ofChar '0')) = value 10 t := by
  induction t with
  | nil => rfl
  | cons c t ih =>
    by_cases hc : c = CodePoint.ofChar '0'
    · subst hc
      rw [List.dropWhile_cons_of_pos (by simp), ih, value_cons]
      simp [show (CodePoint.ofChar '0').digitValue = 0 from rfl]
    · rw [List.dropWhile_cons_of_neg (by simpa using hc)]

/-- Digits whose first is not zero stand for a number of their length. -/
theorem pow_le_value {c : CodePoint} {t : Text} (hc : c.isDigit = true)
    (h0 : c ≠ CodePoint.ofChar '0') : 10 ^ t.length ≤ value 10 (c :: t) := by
  have hv : 1 ≤ c.digitValue := by
    rw [CodePoint.digitValue_of_isDigit hc]
    have := CodePoint.isDigit_iff.mp hc
    have : c.val ≠ 48 := fun h => h0 (CodePoint.eq_ofChar_iff.mpr h)
    omega
  rw [value_cons]
  have := Nat.mul_le_mul_right (10 ^ t.length) hv
  omega

/-- Only zero itself is written with a zero in front. -/
theorem ofNat_eq_zero_cons {n : Nat} {rest : Text} (h : Text.ofNat n = CodePoint.ofChar '0' :: rest) :
    n = 0 ∧ rest = [] := by
  have hz : (CodePoint.ofChar '0').digitValue = 0 := by decide
  have hv : value 10 rest = n := by
    rw [← Text.value_ofNat n, h, value_cons, hz, Nat.zero_mul, Nat.zero_add]
  have hdigits : ∀ c ∈ rest, c.isDigit = true :=
    fun c hc => Text.ofNat_isDigit n c (by rw [h]; exact List.mem_cons_of_mem _ hc)
  have hlt : n < 10 ^ rest.length := hv ▸ value_lt_pow hdigits
  have hrest : rest = [] := by
    by_contra hne
    have hlen := (Text.length_ofNatBase_le_iff (by decide) (List.length_pos_of_ne_nil hne)).mpr hlt
    rw [show Text.ofNatBase 10 n = Text.ofNat n from rfl, h, List.length_cons] at hlen
    omega
  subst hrest
  exact ⟨hv.symm, rfl⟩

lemma isMargin_of_isDigit {c : CodePoint} (h : c.isDigit = true) : isMargin c = false := by
  have := CodePoint.isDigit_iff.mp h
  simp only [isMargin, CodePoint.isBlank, Bool.and_eq_false_iff, Bool.or_eq_false_iff,
    decide_eq_false_iff_not, beq_eq_false_iff_ne]
  omega

lemma asciiDigit_of_isDigit {c : CodePoint} (h : c.isDigit = true) : asciiDigit c = c := by
  have := CodePoint.isDigit_iff.mp h
  exact if_pos (by omega)

/-- A sign in front of digits, minus if `true`; plus may be left out. -/
inductive IsSign : Text → Bool → Prop
  | none : IsSign [] false
  | plus : IsSign [CodePoint.ofChar '+'] false
  | minus : IsSign [CodePoint.ofChar '-'] true

/-- A number behind a minus sign, or alone. -/
def signedText (negative : Bool) (size : Text) : Text := if negative then CodePoint.ofChar '-' :: size else size

lemma signedText_append (negative : Bool) (size rest : Text) :
    signedText negative size ++ rest = signedText negative (size ++ rest) := by
  cases negative <;> rfl

lemma splitSign_of_head {size : Text} (h : ∀ c ∈ size.head?, c.isDigit = true) : splitSign size = (false, size) := by
  cases size with
  | nil => rfl
  | cons c rest =>
    have hc := CodePoint.isDigit_iff.mp (h c rfl)
    have h1 : c ≠ CodePoint.ofChar '-' := fun e => by simp [e] at hc
    have h2 : c ≠ CodePoint.ofChar '+' := fun e => by simp [e] at hc
    simp [splitSign, h1, h2]

lemma splitSign_signedText {size : Text} (h : ∀ c ∈ size.head?, c.isDigit = true) (negative : Bool) :
    splitSign (signedText negative size) = (negative, size) := by
  cases negative with
  | true => rfl
  | false => exact splitSign_of_head h

theorem splitSign_digits {digits : Text} (h : ∀ c ∈ digits, c.isDigit = true) :
    splitSign digits = (false, digits) :=
  splitSign_of_head fun c hc => h c (List.mem_of_head? hc)

theorem splitSign_append {sign digits : Text} {negative : Bool} (hs : IsSign sign negative)
    (h : ∀ c ∈ digits, c.isDigit = true) : splitSign (sign ++ digits) = (negative, digits) := by
  cases hs with
  | none => exact splitSign_digits h
  | plus => rfl
  | minus => rfl

lemma skipBaseMark_ten (t : Text) : skipBaseMark 10 t = t := by
  unfold skipBaseMark
  split
  · rw [if_neg]
    simp [baseMark]
  · rfl

theorem splitDigits_digits {digits : Text} (afterDigit : Bool)
    (h : ∀ c ∈ digits, c.isDigit = true) : splitDigits 10 afterDigit digits = some (digits, []) := by
  induction digits generalizing afterDigit with
  | nil => rfl
  | cons c rest ih =>
    have hc := h c (by simp)
    have hu : c ≠ CodePoint.ofChar '_' := fun e => by simp [e, CodePoint.isDigit_iff] at hc
    simp [splitDigits, hu, CodePoint.digitValue_lt_ten hc, ih true fun d hd => h d (by simp [hd])]

lemma isDigit_of_splitDigits {t digits rest : Text} {afterDigit : Bool}
    (h : splitDigits 10 afterDigit t = some (digits, rest)) : ∀ c ∈ digits, c.isDigit = true := by
  induction t generalizing afterDigit digits with
  | nil =>
    cases h
    exact List.forall_mem_nil _
  | cons c t ih =>
    rw [splitDigits.eq_def] at h
    dsimp only at h
    split_ifs at h with hu hv
    · split at h
      · split_ifs at h
        exact ih h
      · cases h
    · rw [Option.map_eq_some_iff] at h
      obtain ⟨p, hp, heq⟩ := h
      cases heq
      exact List.forall_mem_cons.mpr ⟨CodePoint.isDigit_of_digitValue hv, ih hp⟩
    · cases h
      exact List.forall_mem_nil _

/-- An integer that is read from decimal text has no more digits than may be written. -/
theorem natAbs_lt_of_readInteger {t : Text} {i : Int} (h : readInteger 10 t = .ok i) :
    i.natAbs < 10 ^ digitLimit := by
  simp only [readInteger] at h
  split at h
  · cases h
  · next digits rest hs =>
    have hvalue (negative : Bool) : (if negative = true then -(value 10 digits : Int) else value 10 digits).natAbs =
        value 10 digits := by
      cases negative with
      | true => exact (Int.natAbs_neg _).trans (Int.natAbs_natCast _)
      | false => exact Int.natAbs_natCast _
    by_cases hl : digitLimit < digits.length
    · rw [if_pos ⟨trivial, hl⟩] at h
      cases h
    rw [if_neg fun hlong => hl hlong.2] at h
    by_cases hempty : (digits.isEmpty || !rest.isEmpty) = true
    · rw [if_pos hempty] at h
      cases h
    rw [if_neg hempty] at h
    have hlength : digits.length ≤ digitLimit := Nat.le_of_not_lt hl
    rw [← Except.ok.inj h, hvalue]
    exact Nat.lt_of_lt_of_le (value_lt_pow (isDigit_of_splitDigits hs)) (Nat.pow_le_pow_right (by decide) hlength)

/-- A sign and digits are read as the integer that they stand for, unless the digits are too many. -/
theorem readInteger_signed {sign digits : Text} {negative : Bool} (hs : IsSign sign negative)
    (h : ∀ c ∈ digits, c.isDigit = true) (hne : digits ≠ []) :
    readInteger 10 (sign ++ digits) =
      if digitLimit < digits.length then .error (.tooManyDigits digits.length)
      else .ok (if negative then -(value 10 digits : Int) else value 10 digits) := by
  have hmargin : ∀ c ∈ sign ++ digits, isMargin c = false := by
    intro c hc
    rcases List.mem_append.mp hc with hc | hc
    · cases hs with
      | none => cases hc
      | plus => rw [List.mem_singleton.mp hc]; rfl
      | minus => rw [List.mem_singleton.mp hc]; rfl
    · exact isMargin_of_isDigit (h c hc)
  have hascii : (sign ++ digits).map asciiDigit = sign ++ digits := by
    have hd : digits.map asciiDigit = digits :=
      (List.map_congr_left fun c hc => asciiDigit_of_isDigit (h c hc)).trans (List.map_id digits)
    rw [List.map_append, hd]
    cases hs <;> rfl
  simp only [readInteger, Text.trim_eq_self hmargin, hascii, splitSign_append hs h,
    skipBaseMark_ten, splitDigits_digits false h, true_and]
  have hempty : ¬(digits.isEmpty || !List.isEmpty ([] : Text)) = true := by simpa using hne
  rw [if_neg hempty]

theorem readInteger_digits {sign digits : Text} {negative : Bool} (hs : IsSign sign negative)
    (h : ∀ c ∈ digits, c.isDigit = true) (hne : digits ≠ []) (hl : digits.length ≤ digitLimit) :
    readInteger 10 (sign ++ digits) =
      .ok (if negative then -(value 10 digits : Int) else value 10 digits) := by
  rw [readInteger_signed hs h hne, if_neg (Nat.not_lt.mpr hl)]

/-- Digits that do not begin with zero, or zero alone. -/
structure IsWhole (digits : Text) : Prop where
  ne_nil : digits ≠ []
  isDigit : ∀ c ∈ digits, c.isDigit = true
  zero : ∀ rest, digits = CodePoint.ofChar '0' :: rest → rest = []

lemma isWhole_ofNat (n : Nat) : IsWhole (Text.ofNat n) :=
  ⟨Text.ofNat_ne_nil n, Text.ofNat_isDigit n, fun _ h => (ofNat_eq_zero_cons h).2⟩

lemma IsWhole.head_ne_minus {digits : Text} (h : IsWhole digits) (rest : Text) :
    (digits ++ rest).head? ≠ some (CodePoint.ofChar '-') := by
  obtain ⟨c, tail, hd⟩ := List.exists_cons_of_ne_nil h.ne_nil
  have hc := CodePoint.isDigit_iff.mp (h.isDigit c (by simp [hd]))
  rw [hd, List.cons_append, List.head?_cons]
  intro he
  rw [CodePoint.eq_ofChar_iff.mp (Option.some.inj he)] at hc
  exact absurd hc (by decide)

/-- An integer is written unless it has too many digits. -/
theorem writeInteger_isOk_iff {i : Int} : (∃ t, writeInteger i = .ok t) ↔ i.natAbs < 10 ^ digitLimit := by
  rw [← Text.length_ofNatBase_le_iff (by decide) (show 0 < digitLimit by decide), writeInteger]
  show _ ↔ (Text.ofNat i.natAbs).length ≤ digitLimit
  by_cases h : digitLimit < (Text.ofNat i.natAbs).length
  · rw [if_pos h]
    exact iff_of_false (fun h => nomatch h.choose_spec) (Nat.not_le.mpr h)
  · rw [if_neg h]
    exact iff_of_true ⟨_, rfl⟩ (Nat.le_of_not_lt h)

lemma writeInteger_eq {i : Int} {t : Text} (h : writeInteger i = .ok t) :
    t = signedText (decide (i < 0)) (Text.ofNat i.natAbs) := by
  rw [signedText]
  simp only [writeInteger] at h
  split_ifs at h with _ hi
  · rw [← Except.ok.inj h, if_pos (by simpa using hi)]
  · rw [← Except.ok.inj h, if_neg (by simpa using hi)]

/-- What is written for an integer is read as the integer. -/
theorem readInteger_writeInteger {i : Int} {t : Text} (h : writeInteger i = .ok t) :
    readInteger 10 t = .ok i := by
  simp only [writeInteger] at h
  split_ifs at h with hl hi
  · obtain rfl := Except.ok.inj h
    have := readInteger_digits .minus (Text.ofNat_isDigit i.natAbs) (Text.ofNat_ne_nil _) (by omega)
    rw [Text.value_ofNat, if_pos rfl, show -(i.natAbs : Int) = i by omega] at this
    exact this
  · obtain rfl := Except.ok.inj h
    have := readInteger_digits .none (Text.ofNat_isDigit i.natAbs) (Text.ofNat_ne_nil _) (by omega)
    rw [Text.value_ofNat, if_neg Bool.false_ne_true, show (i.natAbs : Int) = i by omega] at this
    exact this

end Numeral

end DocPath
