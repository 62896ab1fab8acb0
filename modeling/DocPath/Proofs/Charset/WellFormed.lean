import DocPath.Charset.Utf8
import DocPath.Proofs.Number.Spelling

/-! Texts that UTF-8 can write. -/

namespace DocPath.Charset.Utf8

/-- A text without surrogates. -/
def WellFormed (t : Text) : Prop := ∀ c ∈ t, c.isSurrogate = false

section WellFormed

variable {t u : Text} {c : CodePoint}

instance : DecidablePred WellFormed := fun t =>
  decidable_of_iff ((t.all fun c => !c.isSurrogate) = true) (by simp [WellFormed])

@[simp] lemma wellFormed_nil : WellFormed [] := List.forall_mem_nil _

@[simp] lemma wellFormed_cons : WellFormed (c :: t) ↔ c.isSurrogate = false ∧ WellFormed t := List.forall_mem_cons

@[simp] lemma wellFormed_append : WellFormed (t ++ u) ↔ WellFormed t ∧ WellFormed u := List.forall_mem_append

@[simp] lemma wellFormed_flatten {ts : List Text} : WellFormed ts.flatten ↔ ∀ t ∈ ts, WellFormed t := by
  simp only [WellFormed, List.mem_flatten]
  exact ⟨fun h t ht c hc => h c ⟨t, ht, hc⟩, fun h c ⟨t, ht, hc⟩ => h t ht c hc⟩

lemma wellFormed_replicate (n : Nat) (h : c.isSurrogate = false) : WellFormed (List.replicate n c) :=
  fun _ hd => List.eq_of_mem_replicate hd ▸ h

lemma wellFormed_of_lt (h : ∀ c ∈ t, c.val < 0xD800) : WellFormed t := by
  intro c hc
  rw [CodePoint.isSurrogate, Bool.and_eq_false_iff, decide_eq_false_iff_not]
  exact .inl (Nat.not_le.mpr (h c hc))

lemma wellFormed_hexDigits (h : ∀ c ∈ t, c.isHexDigit = true) : WellFormed t := by
  refine wellFormed_of_lt fun c hc => ?_
  have hval := h c hc
  simp only [CodePoint.isHexDigit, CodePoint.digitValue, Bool.and_eq_true, decide_eq_true_eq, Fin.le_def,
    CodePoint.ofChar_val, Char.reduceToNat] at hval
  split_ifs at hval <;> omega

lemma wellFormed_digits (h : ∀ c ∈ t, c.isDigit = true) : WellFormed t := by
  refine wellFormed_of_lt fun c hc => ?_
  have := CodePoint.isDigit_iff.mp (h c hc)
  omega

lemma wellFormed_signedText {negative : Bool} (h : ∀ c ∈ t, Numeral.IsNumberMark c) :
    WellFormed (Numeral.signedText negative t) := by
  refine wellFormed_of_lt fun c hc => ?_
  have := (Numeral.isNumberMark_signedText h c hc).val_cases
  omega

lemma wellFormed_integer {i : Int} (h : Numeral.writeInteger i = .ok t) : WellFormed t := by
  rw [Numeral.writeInteger_eq h]
  exact wellFormed_signedText fun c hc => .inl (Text.ofNat_isDigit i.natAbs c hc)

/-- A layout brings in no other code points than its own. -/
lemma wellFormed_layout {l : Binary64.Layout} (hnan : WellFormed l.notANumber) (hinf : WellFormed l.infinity)
    (hl : l.wholeSignificand = []) (x : Binary64) : WellFormed (x.layout l) := by
  cases hx : x.shape with
  | notANumber =>
    rw [Binary64.layout, hx]
    exact hnan
  | infinite negative =>
    rw [Binary64.layout, hx]
    cases negative with
    | true => exact wellFormed_cons.mpr ⟨by decide, hinf⟩
    | false => exact hinf
  | finite negative m q =>
    obtain ⟨s, hd, -, -, ht⟩ := Binary64.layout_strict hx l hl
    rw [ht]
    exact wellFormed_signedText hd.isNumberMark

/-- Exactly the surrogates cannot be written. -/
theorem encodeFrom_isOk_iff {place : Nat} : (∃ bs, encodeFrom place t = .ok bs) ↔ WellFormed t := by
  induction t generalizing place with
  | nil => exact iff_of_true ⟨_, rfl⟩ wellFormed_nil
  | cons c t ih =>
    rw [encodeFrom, wellFormed_cons, ← @ih (place + 1)]
    cases hc : c.isSurrogate with
    | true => exact iff_of_false (fun h => nomatch h.choose_spec) fun h => nomatch h.1
    | false =>
      rw [if_neg Bool.false_ne_true, and_iff_right rfl]
      cases encodeFrom (place + 1) t with
      | error fault => exact iff_of_false (fun h => nomatch h.choose_spec) fun h => nomatch h.choose_spec
      | ok bs => exact iff_of_true ⟨_, rfl⟩ ⟨_, rfl⟩

end WellFormed

end DocPath.Charset.Utf8
