import DocPath.Json.Reader
import DocPath.Json.Writer
import DocPath.Proofs.Number.Spelling

/-! Numbers: integers and the texts of floating-point numbers are read as what they stand for. -/

namespace DocPath.Json

open Numeral

/-- No text that a number could go on with stands at the front. -/
def EndsNumber (t : Text) : Prop :=
  ∀ c ∈ t.head?, c.isDigit = false ∧ c ≠ '.' ∧ c ≠ 'e' ∧ c ≠ 'E'

lemma EndsNumber.endsDigits {t : Text} (h : EndsNumber t) : EndsDigits t := fun c hc => (h c hc).1

lemma EndsNumber.exponent? {t : Text} (h : EndsNumber t) : Numeral.exponent? t = none := by
  cases t with
  | nil => rfl
  | cons c t =>
    obtain ⟨-, -, he, hE⟩ := h c rfl
    rw [Numeral.exponent?, if_neg]
    rintro (hc | hc)
    · exact he hc
    · exact hE hc

lemma EndsNumber.splitFraction {t : Text} (h : EndsNumber t) : splitFraction t = ([], t) := by
  cases t with
  | nil => rfl
  | cons c t =>
    have hc := (h c rfl).2.1
    simp only [Json.splitFraction, ne_eq, hc, not_false_eq_true, true_or, if_true]

lemma splitWhole_append {digits rest : Text} (h : IsWhole digits) (hr : EndsDigits rest) :
    splitWhole (digits ++ rest) = (digits, rest) := by
  obtain ⟨c, tail, hd⟩ := List.exists_cons_of_ne_nil h.ne_nil
  rw [hd, List.cons_append, splitWhole]
  split_ifs with hc
  · rw [h.zero tail (hc ▸ hd)]
    rfl
  · rw [← List.cons_append, ← hd, spanDigits_append h.isDigit hr]

/-- The parts of an unsigned text decide what it is read as behind a sign. -/
lemma number_signed {unsigned whole rest fraction more : Text}
    (hu : unsigned.head? ≠ some (CodePoint.ofChar '-')) (hw : splitWhole unsigned = (whole, rest))
    (hf : splitFraction rest = (fraction, more)) (hne : whole ≠ []) (negative : Bool) :
    number (signedText negative unsigned) =
      if fraction.isEmpty && (exponent? more).isNone then
        ((readInteger 10 (signedText negative whole)).mapError .number).map fun i => (.int i, rest)
      else
        .ok (.float (decimalNumber negative whole fraction ((exponent? more).getD (0, more)).1),
          ((exponent? more).getD (0, more)).2) := by
  have hwhole : whole.isEmpty = false := by simpa using hne
  cases negative with
  | true =>
    simp only [signedText, number, if_true, hw, hf, hwhole, Bool.false_eq_true, if_false]
    cases readInteger 10 (CodePoint.ofChar '-' :: whole) <;> rfl
  | false =>
    cases unsigned with
    | nil =>
      simp only [signedText, number, Bool.false_eq_true, if_false, hw, hf, hwhole]
      cases readInteger 10 whole <;> rfl
    | cons c tail =>
      have hc : c ≠ CodePoint.ofChar '-' := fun he => hu (by rw [he]; rfl)
      simp only [signedText, number, hc, if_false, Bool.false_eq_true, hw, hf, hwhole]
      cases readInteger 10 whole <;> rfl

/-- Integers are read back, whatever no number goes on with follows. -/
theorem number_integer {i : Int} {t rest : Text} (h : writeInteger i = .ok t) (hr : EndsNumber rest) :
    number (t ++ rest) = .ok (.int i, rest) := by
  have hw := isWhole_ofNat i.natAbs
  have ht := writeInteger_eq h
  have hassoc : t ++ rest = signedText (decide (i < 0)) (Text.ofNat i.natAbs ++ rest) := by
    rw [ht, signedText_append]
  rw [hassoc, number_signed (hw.head_ne_minus rest) (splitWhole_append hw hr.endsDigits)
    hr.splitFraction hw.ne_nil, hr.exponent?, ← ht, readInteger_writeInteger h]
  rfl

lemma splitFraction_append {f rest : Text} (hf : ∀ c ∈ f, c.isDigit = true) (hne : f ≠ [])
    (hr : EndsDigits rest) : splitFraction (CodePoint.ofChar '.' :: (f ++ rest)) = (f, rest) := by
  simp only [splitFraction, spanDigits_append hf hr]
  rw [if_neg]
  simpa using hne

lemma splitFraction_exponentText (e : Int) (rest : Text) :
    splitFraction (Binary64.exponentText e ++ rest) = ([], Binary64.exponentText e ++ rest) := by
  have he : CodePoint.ofChar 'e' ≠ CodePoint.ofChar '.' := by decide
  simp only [Binary64.exponentText, List.cons_append, splitFraction, he, ne_eq, not_false_eq_true,
    true_or, if_true]

/-- The texts of floating-point numbers are read as such, whatever no number goes on with follows. -/
theorem number_text {s : Spelling} (hd : s.Digital) (hs : s.Strict) (negative : Bool) {rest : Text}
    (hr : EndsNumber rest) :
    number (signedText negative s.text ++ rest) = .ok (.float (s.number negative), rest) := by
  have hw : IsWhole s.whole := ⟨hd.whole_ne_nil, hd.whole, hs.whole⟩
  have hends : EndsDigits (s.tail ++ rest) := by
    cases ht : s.tail with
    | nil => exact hr.endsDigits
    | cons c tail => exact endsDigits_cons (s.endsDigits_tail c (by rw [ht]; rfl))
  have hsplit := splitWhole_append hw hends
  rw [signedText_append, Spelling.text, List.append_assoc]
  cases hf : s.fraction with
  | some f =>
    have hfd := hd.fraction f hf
    have hfne : f ≠ [] := fun h => hs.fraction (h ▸ hf)
    cases he : s.exponent with
    | none =>
      have htail : s.tail ++ rest = CodePoint.ofChar '.' :: (f ++ rest) := by
        simp [Spelling.tail, hf, he]
      rw [number_signed (hw.head_ne_minus _) hsplit
        (htail ▸ splitFraction_append hfd hfne hr.endsDigits) hw.ne_nil]
      simp [hfne, hr.exponent?, Spelling.number, hf, he]
    | some e =>
      have htail : s.tail ++ rest =
          CodePoint.ofChar '.' :: (f ++ (Binary64.exponentText e ++ rest)) := by
        simp [Spelling.tail, hf, he]
      have hx : EndsDigits (Binary64.exponentText e ++ rest) := endsDigits_cons (by rfl)
      rw [number_signed (hw.head_ne_minus _) hsplit (htail ▸ splitFraction_append hfd hfne hx)
        hw.ne_nil]
      simp [exponent?_exponentText e hr.endsDigits, Spelling.number, hf, he]
  | none =>
    cases he : s.exponent with
    | none => exact absurd he (hs.notWhole hf)
    | some e =>
      have htail : s.tail ++ rest = Binary64.exponentText e ++ rest := by
        simp [Spelling.tail, hf, he]
      rw [htail] at hsplit ⊢
      rw [number_signed (hw.head_ne_minus _) hsplit (splitFraction_exponentText e rest) hw.ne_nil]
      simp [exponent?_exponentText e hr.endsDigits, Spelling.number, hf, he]

end DocPath.Json
