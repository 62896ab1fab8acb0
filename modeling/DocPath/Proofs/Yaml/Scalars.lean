import DocPath.Proofs.Number.Spelling
import DocPath.Proofs.Yaml.Cursor
import DocPath.Yaml.Layout
import DocPath.Yaml.Scalar
import DocPath.Yaml.Tree
import Mathlib.Data.List.TakeWhile

/-! Numbers need no quotation marks: their texts tell their tags, and are read as numbers. -/

namespace DocPath.Yaml

open Numeral Layout

/-- The last code point is a digit. -/
def EndsWithDigit (t : Text) : Prop := ∃ c, t.getLast? = some c ∧ c.isDigit = true

lemma endsWithDigit_append (a : Text) {b : Text} (h : EndsWithDigit b) : EndsWithDigit (a ++ b) := by
  obtain ⟨c, hc, hdigit⟩ := h
  refine ⟨c, ?_, hdigit⟩
  rw [List.getLast?_append, hc]
  rfl

lemma endsWithDigit_of_isDigit {digits : Text} (hne : digits ≠ []) (h : ∀ c ∈ digits, c.isDigit = true) :
    EndsWithDigit digits :=
  ⟨_, List.getLast?_eq_some_getLast hne, h _ (List.getLast_mem hne)⟩

/-- A number without its sign: it begins and ends with a digit. -/
structure IsSize (size : Text) : Prop where
  marks : ∀ c ∈ size, IsNumberMark c
  starts : ∃ c rest, size = c :: rest ∧ c.isDigit = true
  ends : EndsWithDigit size

lemma hasInnerSign_of_not_mem {t : Text} (hcolon : CodePoint.ofChar ':' ∉ t) (hhash : CodePoint.ofChar '#' ∉ t)
    (before : CodePoint) : hasInnerSign before t = false := by
  induction t generalizing before with
  | nil => rfl
  | cons c t ih =>
    rw [List.mem_cons, not_or] at hcolon hhash
    have h1 : c.is ':' = false := beq_eq_false_iff_ne.mpr (Ne.symm hcolon.1)
    have h2 : c.is '#' = false := beq_eq_false_iff_ne.mpr (Ne.symm hhash.1)
    rw [hasInnerSign, h1, h2, ih hcolon.2 hhash.2]
    rfl

namespace IsSize

variable {negative : Bool} {size : Text}

lemma signed_marks (h : IsSize size) : ∀ c ∈ signedText negative size, IsNumberMark c :=
  isNumberMark_signedText h.marks

lemma not_mem_signed (h : IsSize size) {x : Char}
    (hx : x.toNat < 43 ∨ x.toNat = 44 ∨ x.toNat = 47 ∨ 57 < x.toNat ∧ x.toNat ≠ 101) :
    CodePoint.ofChar x ∉ signedText negative size := by
  intro hmem
  have := (h.signed_marks _ hmem).val_cases
  rw [CodePoint.ofChar_val] at this
  omega

lemma signed_ends (h : IsSize size) : EndsWithDigit (signedText negative size) := by
  rw [signedText]
  split_ifs
  · exact endsWithDigit_append [CodePoint.ofChar '-'] h.ends
  · exact h.ends

lemma signed_ne_nil (h : IsSize size) : signedText negative size ≠ [] := by
  obtain ⟨c, hc, -⟩ := @signed_ends negative size h
  rintro hnil
  rw [hnil] at hc
  cases hc

lemma splitSign_signed (h : IsSize size) : splitSign (signedText negative size) = (negative, size) := by
  obtain ⟨c, rest, rfl, hdigit⟩ := h.starts
  refine splitSign_signedText (fun d hd => ?_) negative
  rwa [← Option.some.inj hd]

lemma contains_signed (h : IsSize size) {words : List Text}
    (hw : (words.any fun w => w.getLast?.any CodePoint.isDigit) = false) :
    words.contains (signedText negative size) = false := by
  obtain ⟨c, hc, hdigit⟩ := @signed_ends negative size h
  rw [← Bool.not_eq_true, List.contains_iff_mem]
  intro hmem
  refine Bool.false_ne_true (hw.symm.trans (List.any_eq_true.mpr ⟨_, hmem, ?_⟩))
  rw [hc]
  exact hdigit

lemma dropFinalBreak_signed (h : IsSize size) :
    Plain.dropFinalBreak (signedText negative size) = signedText negative size := by
  rw [Plain.dropFinalBreak, if_neg]
  intro hend
  have hlast : (signedText negative size).reverse.head? = some (CodePoint.ofChar '\n') :=
    (Text.isPrefixOf_singleton _ _).mp hend
  obtain ⟨c, hc, hdigit⟩ := @signed_ends negative size h
  rw [List.head?_reverse, hc] at hlast
  rw [Option.some.inj hlast] at hdigit
  exact absurd hdigit (by decide)

/-- The text of a number tells whether it is a floating-point number or an integer. -/
lemma tag_signed (h : IsSize size) : Plain.tag (signedText negative size) =
    if Plain.isFloat (signedText negative size) then Tag.float
    else if Plain.isInteger (signedText negative size) then Tag.integer
    else Plain.tag (signedText negative size) := by
  have hempty : (signedText negative size).isEmpty = false := by simpa using h.signed_ne_nil
  have hnull := @contains_signed negative size h Plain.nullWords rfl
  have htrue := @contains_signed negative size h Plain.trueWords rfl
  have hfalse := @contains_signed negative size h Plain.falseWords rfl
  split_ifs with hfloat hinteger
  · simp only [Plain.tag, h.dropFinalBreak_signed, hempty, hnull, htrue, hfalse, hfloat, Bool.false_eq_true, Bool.or_false,
      if_false, if_true]
  · simp only [Plain.tag, h.dropFinalBreak_signed, hempty, hnull, htrue, hfalse, hfloat, hinteger, Bool.false_eq_true,
      Bool.or_false, if_false, if_true]
  · rfl

lemma hasSign_signed (h : IsSize size) : hasSign (signedText negative size) = false := by
  have hcolon := @not_mem_signed negative size h ':' (by decide)
  have hhash := @not_mem_signed negative size h '#' (by decide)
  obtain ⟨c, rest, rfl, hdigit⟩ := h.starts
  have hval := CodePoint.isDigit_iff.mp hdigit
  have hne {x : Char} (hx : x.toNat < 48 ∨ 57 < x.toNat) : c ≠ CodePoint.ofChar x := by
    rintro rfl
    rw [CodePoint.ofChar_val] at hval
    omega
  have hsigns : Text.contains "#,[]\x7b\x7d&*!|>'\"%@\x60" [c] = false := by
    rw [← Bool.not_eq_true, Text.contains_singleton]
    intro hmem
    have hall : ((Text.ofString "#,[]\x7b\x7d&*!|>'\"%@\x60").any CodePoint.isDigit) = false := rfl
    exact Bool.false_ne_true (hall.symm.trans (List.any_eq_true.mpr ⟨c, hmem, hdigit⟩))
  have hblank : isSpaceOrEnd c = false := by
    rw [← Bool.not_eq_true, isSpaceOrEnd_iff, isBreak_iff]
    omega
  have hstart (x : Char) (hx : x.toNat < 48) (p rest : Text) :
      Text.startsWith (c :: rest) (CodePoint.ofChar x :: p) = false := by
    have : (CodePoint.ofChar x == c) = false := beq_eq_false_iff_ne.mpr (Ne.symm (hne (.inl hx)))
    rw [Text.startsWith, List.isPrefixOf_cons_cons, this, Bool.false_and]
  cases negative with
  | true =>
    have hinner := hasInnerSign_of_not_mem (t := c :: rest) (fun h => hcolon (List.mem_cons_of_mem _ h))
      (fun h => hhash (List.mem_cons_of_mem _ h)) (CodePoint.ofChar '-')
    have hdashes : Text.startsWith (CodePoint.ofChar '-' :: c :: rest) "---" = false :=
      (Bool.true_and _).trans (hstart '-' (by decide) _ _)
    have hpoints : Text.startsWith (CodePoint.ofChar '-' :: c :: rest) "..." = false := rfl
    have hother : Text.contains "#,[]\x7b\x7d&*!|>'\"%@\x60" [CodePoint.ofChar '-'] = false := rfl
    show hasSign (CodePoint.ofChar '-' :: c :: rest) = false
    rw [hasSign, hdashes, hpoints, hother, hinner, List.headD_cons, hblank, Bool.and_false]
    rfl
  | false =>
    have hinner := hasInnerSign_of_not_mem (t := rest) (fun h => hcolon (List.mem_cons_of_mem _ h))
      (fun h => hhash (List.mem_cons_of_mem _ h)) c
    have hdashes : Text.startsWith (c :: rest) "---" = false := hstart '-' (by decide) _ _
    have hpoints : Text.startsWith (c :: rest) "..." = false := hstart '.' (by decide) _ _
    have hsign : (c.is '?' || c.is ':' || c.is '-') = false := by
      rw [← Bool.not_eq_true]
      simp only [Bool.or_eq_true, CodePoint.is_iff, Char.reduceToNat]
      omega
    show hasSign (c :: rest) = false
    rw [hasSign, hdashes, hpoints, hsigns, hinner, hsign, Bool.false_and]
    rfl

/-- The text of a number can stand without quotation marks. -/
theorem allowsPlain_signed (h : IsSize size) : allowsPlain (signedText negative size) = true := by
  have hlines : isMultiline (signedText negative size) = false := by
    refine List.any_eq_false.mpr fun c hc => ?_
    have := (h.signed_marks c hc).val_cases
    simp only [isTextBreak, Bool.or_eq_true, CodePoint.is_iff, beq_iff_eq, Char.reduceToNat]
    omega
  have hspecial : (signedText negative size).any isSpecial = false := by
    refine List.any_eq_false.mpr fun c hc => ?_
    have := (h.signed_marks c hc).val_cases
    simp only [isSpecial, Bool.not_eq_true', Bool.not_eq_false, Bool.or_eq_true, Bool.and_eq_true,
      decide_eq_true_eq, beq_iff_eq]
    omega
  have hblank := @not_mem_signed negative size h ' ' (by decide)
  have hfirst : ((signedText negative size).head? == some (CodePoint.ofChar ' ')) = false :=
    beq_eq_false_iff_ne.mpr fun h => hblank (List.mem_of_head? h)
  have hlast : ((signedText negative size).getLast? == some (CodePoint.ofChar ' ')) = false :=
    beq_eq_false_iff_ne.mpr fun h => hblank (List.mem_of_getLast? h)
  rw [allowsPlain, hlines, hspecial, hfirst, hlast, h.hasSign_signed]
  rfl

lemma ungrouped_signed (h : IsSize size) :
    Scalar.ungrouped (signedText negative size) = signedText negative size := by
  rw [Scalar.ungrouped, List.filter_eq_self]
  intro c hc
  exact bne_iff_ne.mpr (h.signed_marks c hc).ne_underscore

lemma signed_signed (h : IsSize size) : Scalar.signed (signedText negative size) = .ok (negative, size) := by
  have hempty : (signedText negative size).isEmpty = false := by simpa using h.signed_ne_nil
  rw [Scalar.signed, hempty, h.splitSign_signed]
  rfl

end IsSize

section Integer

variable {negative : Bool} {digits : Text}

lemma isSize_of_isWhole (hd : IsWhole digits) : IsSize digits := by
  refine ⟨fun c hc => .inl (hd.isDigit c hc), ?_, endsWithDigit_of_isDigit hd.ne_nil hd.isDigit⟩
  obtain ⟨c, rest, rfl⟩ := List.exists_cons_of_ne_nil hd.ne_nil
  exact ⟨c, rest, rfl, hd.isDigit c List.mem_cons_self⟩

/-- The text of an integer tells that it is one. -/
theorem tag_integer (hd : IsWhole digits) : Plain.tag (signedText negative digits) = Tag.integer := by
  have hsize := isSize_of_isWhole hd
  have hdrop : digits.dropWhile (· != CodePoint.ofChar '.') = [] := by
    rw [List.dropWhile_eq_nil_iff]
    intro c hc
    refine bne_iff_ne.mpr ?_
    rintro rfl
    exact absurd (hd.isDigit _ hc) (by decide)
  have hfloat : Plain.isFloat (signedText negative digits) = false := by
    simp only [Plain.isFloat, hsize.splitSign_signed, hdrop]
  have hunsigned : Plain.isUnsignedInteger digits = true := by
    obtain ⟨c, rest, rfl⟩ := List.exists_cons_of_ne_nil hd.ne_nil
    rw [Plain.isUnsignedInteger]
    split_ifs with hc
    · rw [hd.zero rest (by rw [hc])]
      rfl
    · have hgrouped : Plain.isGrouped (c :: rest) = true := by
        rw [Plain.isGrouped, Bool.and_eq_true, List.all_eq_true]
        refine ⟨hd.isDigit c List.mem_cons_self, fun d hmem => ?_⟩
        rw [Plain.isDigitOrUnderscore, hd.isDigit d (List.mem_cons_of_mem _ hmem), Bool.true_or]
      rw [hgrouped, Bool.true_or]
  have hinteger : Plain.isInteger (signedText negative digits) = true := by
    rw [Plain.isInteger, hsize.splitSign_signed]
    exact hunsigned
  rw [hsize.tag_signed, hfloat, hinteger]
  rfl

lemma unsignedInteger_digits (hd : IsWhole digits) (hl : digits.length ≤ digitLimit) :
    Scalar.unsignedInteger digits = .ok (value 10 digits : Int) := by
  have hread : Scalar.numeral 10 digits = .ok (value 10 digits : Int) := by
    have := readInteger_digits .none hd.isDigit hd.ne_nil hl
    rw [List.nil_append, if_neg Bool.false_ne_true] at this
    rw [Scalar.numeral, this]
    rfl
  have hcolon : Text.contains digits ":" = false := by
    rw [← Bool.not_eq_true]
    intro h
    exact absurd (hd.isDigit _ ((Text.contains_singleton _ _).mp h)) (by decide)
  obtain ⟨c, rest, rfl⟩ := List.exists_cons_of_ne_nil hd.ne_nil
  by_cases hc : c = CodePoint.ofChar '0'
  · subst hc
    obtain rfl := hd.zero rest rfl
    rfl
  · have hstart (p : Text) : Text.startsWith (c :: rest) (CodePoint.ofChar '0' :: p) = false := by
      have : (CodePoint.ofChar '0' == c) = false := beq_eq_false_iff_ne.mpr (Ne.symm hc)
      rw [Text.startsWith, List.isPrefixOf_cons_cons, this, Bool.false_and]
    have hzero : c :: rest ≠ Text.ofString "0" := fun h => hc (List.cons.inj h).1
    have hb : Text.startsWith (c :: rest) "0b" = false := hstart _
    have hx : Text.startsWith (c :: rest) "0x" = false := hstart _
    have h0 : Text.startsWith (c :: rest) "0" = false := hstart _
    simp only [Scalar.unsignedInteger, hzero, hb, hx, h0, hcolon, List.isEmpty_cons, Bool.false_eq_true, if_false]
    exact hread

/-- The text of an integer is read as the integer. -/
theorem integer_written {i : Int} {t : Text} (h : writeInteger i = .ok t) :
    t = signedText (decide (i < 0)) (Text.ofNat i.natAbs) ∧ Scalar.integer t = .ok (.int i) := by
  have ht : t = signedText (decide (i < 0)) (Text.ofNat i.natAbs) := writeInteger_eq h
  have hd := isWhole_ofNat i.natAbs
  have hl : (Text.ofNat i.natAbs).length ≤ digitLimit := by
    rw [writeInteger] at h
    split_ifs at h with hl
    · omega
    · omega
  refine ⟨ht, ?_⟩
  have hsize := isSize_of_isWhole hd
  rw [Scalar.integer, ht, hsize.ungrouped_signed, hsize.signed_signed]
  show (Scalar.unsignedInteger (Text.ofNat i.natAbs) >>= fun n => _) = _
  rw [unsignedInteger_digits hd hl, Text.value_ofNat]
  show Except.ok (Value.int (if decide (i < 0) = true then -(i.natAbs : Int) else i.natAbs)) = _
  congr 2
  split_ifs with hi
  · rw [decide_eq_true_eq] at hi
    omega
  · rw [decide_eq_true_eq] at hi
    omega

end Integer

section Float

variable {negative : Bool} {s : Spelling}

lemma endsWithDigit_exponent (e : Int) : EndsWithDigit (Binary64.exponentText e) :=
  endsWithDigit_append [_, _] (endsWithDigit_of_isDigit (ofNatPadded_ne_nil 2 _) (ofNatPadded_isDigit 2 _))

lemma isSize_text (hd : s.Digital) (hs : s.Strict) : IsSize s.text := by
  refine ⟨hd.isNumberMark, ?_, ?_⟩
  · obtain ⟨c, rest, hc⟩ := List.exists_cons_of_ne_nil hd.whole_ne_nil
    exact ⟨c, rest ++ s.tail, by rw [Spelling.text, hc]; rfl, hd.whole c (by simp [hc])⟩
  · rw [Spelling.text, Spelling.tail]
    cases he : s.exponent with
    | some e => exact endsWithDigit_append _ (endsWithDigit_append _ (endsWithDigit_exponent e))
    | none =>
      cases hf : s.fraction with
      | none => exact absurd he (hs.notWhole hf)
      | some f =>
        have hne : f ≠ [] := fun h => hs.fraction (by rw [hf, h])
        refine endsWithDigit_append _ ?_
        rw [Option.map_none, Option.getD_none, List.append_nil]
        exact endsWithDigit_append [CodePoint.ofChar '.'] (endsWithDigit_of_isDigit hne (hd.fraction f hf))

lemma isFraction_exponent (e : Int) : Plain.isFraction (Binary64.exponentText e) = true := by
  have hne : (Text.ofNatPadded 2 e.natAbs).isEmpty = false := List.isEmpty_eq_false_iff.mpr (ofNatPadded_ne_nil 2 _)
  have hdigits : (Text.ofNatPadded 2 e.natAbs).all CodePoint.isDigit = true :=
    List.all_eq_true.mpr (ofNatPadded_isDigit 2 _)
  show Plain.isExponent (Binary64.exponentText e) = true
  rw [Binary64.exponentText, Plain.isExponent, Plain.isSome, hne, hdigits]
  split_ifs <;> rfl

/-- The text of a number with a fraction tells that it is a floating-point number. -/
lemma tag_float (hd : s.Digital) (hs : s.Strict) (hf : s.fraction ≠ none) :
    Plain.tag (signedText negative s.text) = Tag.float := by
  have hsize := isSize_text hd hs
  obtain ⟨f, hf⟩ := Option.ne_none_iff_exists'.mp hf
  have hpoint : ∀ c ∈ s.whole, (c != CodePoint.ofChar '.') = true := by
    intro c hc
    refine bne_iff_ne.mpr ?_
    rintro rfl
    exact absurd (hd.whole _ hc) (by decide)
  have htext : s.text = s.whole ++ CodePoint.ofChar '.' :: (f ++ (s.exponent.map Binary64.exponentText).getD []) := by
    rw [Spelling.text, Spelling.tail, hf]
    rfl
  have hwhole : s.text.takeWhile (· != CodePoint.ofChar '.') = s.whole := by
    rw [htext, List.takeWhile_append_of_pos hpoint]
    simp
  have hfraction : s.text.dropWhile (· != CodePoint.ofChar '.') =
      CodePoint.ofChar '.' :: (f ++ (s.exponent.map Binary64.exponentText).getD []) := by
    rw [htext, List.dropWhile_append_of_pos hpoint]
    simp
  have hdigits {t : Text} (h : ∀ c ∈ t, c.isDigit = true) : ∀ c ∈ t, Plain.isDigitOrUnderscore c = true := by
    intro c hc
    rw [Plain.isDigitOrUnderscore, h c hc, Bool.true_or]
  have hgrouped : Plain.isGrouped s.whole = true := by
    obtain ⟨c, rest, hc⟩ := List.exists_cons_of_ne_nil hd.whole_ne_nil
    have hall := hd.whole
    rw [hc] at hall ⊢
    rw [Plain.isGrouped, hall c List.mem_cons_self, Bool.true_and, List.all_eq_true]
    exact fun d hm => hdigits hall d (List.mem_cons_of_mem _ hm)
  have hexponent : Plain.isFraction (f ++ (s.exponent.map Binary64.exponentText).getD []) = true := by
    rw [Plain.isFraction, List.dropWhile_append_of_pos (hdigits (hd.fraction f hf))]
    cases s.exponent with
    | none => rfl
    | some e => exact isFraction_exponent e
  have hempty : s.whole.isEmpty = false := by simpa using hd.whole_ne_nil
  have hfloat : Plain.isFloat (signedText negative s.text) = true := by
    simp only [Plain.isFloat, hsize.splitSign_signed, hwhole, hfraction, hempty, hgrouped, hexponent, Bool.false_eq_true,
      if_false, Bool.and_self, Bool.true_or]
  rw [hsize.tag_signed, hfloat, if_pos rfl]

lemma small_of_isNumberMark {c : CodePoint} (h : IsNumberMark c) : c.small = [c] ∧ c.val ≠ 0x3A3 := by
  have hall : ∀ k : Fin 128, (k.val < 65 ∨ 90 < k.val) → (CodePoint.ofNat k.val).small = [CodePoint.ofNat k.val] := by
    decide +kernel
  have hval := h.val_cases
  have hsmall := hall ⟨c.val, by omega⟩ (by simp only; omega)
  rw [CodePoint.ofNat_of_val] at hsmall
  exact ⟨hsmall, by omega⟩

lemma lower_eq_self {t : Text} (h : ∀ c ∈ t, IsNumberMark c) : Text.lower t = t := by
  have hfrom (before : Bool) : Text.lowerFrom before t = t := by
    induction t generalizing before with
    | nil => rfl
    | cons c t ih =>
      obtain ⟨hc, ht⟩ := List.forall_mem_cons.mp h
      obtain ⟨hsmall, hsigma⟩ := small_of_isNumberMark hc
      simp only [Text.lowerFrom, hsigma, if_false, hsmall, ih ht, List.singleton_append]
  exact hfrom false

/-- The text of a floating-point number is read as one. -/
lemma float_text (hd : s.Digital) (hs : s.Strict) :
    Scalar.float (signedText negative s.text) =
      .ok (.float (if negative then (s.number false).neg else s.number false)) := by
  have hsize := isSize_text hd hs
  obtain ⟨c, rest, htext, hdigit⟩ := hsize.starts
  have hword (word : Text) : s.text ≠ CodePoint.ofChar '.' :: word := by
    rw [htext]
    intro h
    rw [(List.cons.inj h).1] at hdigit
    exact absurd hdigit (by decide)
  have hcolon : Text.contains s.text ":" = false := by
    rw [← Bool.not_eq_true]
    intro h
    exact @IsSize.not_mem_signed false s.text hsize ':' (by decide) ((Text.contains_singleton _ _).mp h)
  have hunsigned : Scalar.unsignedFloat s.text = .ok (s.number false) := by
    have hinf : s.text ≠ Text.ofString ".inf" := hword _
    have hnan : s.text ≠ Text.ofString ".nan" := hword _
    rw [Scalar.unsignedFloat, if_neg hinf, if_neg hnan, hcolon, if_neg Bool.false_ne_true, Scalar.number,
      show readFloat s.text = _ from readFloat_text hd false]
    rfl
  rw [Scalar.float, hsize.ungrouped_signed, lower_eq_self hsize.signed_marks, hsize.signed_signed]
  show (Scalar.unsignedFloat s.text >>= fun x => _) = _
  rw [hunsigned]
  rfl

/-- A floating-point number is written plainly, and read as a floating-point number. -/
theorem float_written (x : Binary64) :
    Plain.tag (x.layout Tree.floatLayout) = Tag.float ∧ allowsPlain (x.layout Tree.floatLayout) = true ∧
      x.layout Tree.floatLayout ≠ [] ∧ ∃ y, Scalar.float (x.layout Tree.floatLayout) = .ok (.float y) := by
  cases hx : x.shape with
  | notANumber =>
    have ht : x.layout Tree.floatLayout = ".nan" := by rw [Binary64.layout, hx]; rfl
    rw [ht]
    exact ⟨by decide +kernel, by decide +kernel, by decide, _, rfl⟩
  | infinite negative =>
    have ht : x.layout Tree.floatLayout = signedText negative ".inf" := by rw [Binary64.layout, hx]; rfl
    rw [ht]
    cases negative
    · exact ⟨by decide +kernel, by decide +kernel, by decide, _, rfl⟩
    · exact ⟨by decide +kernel, by decide +kernel, by decide, _, rfl⟩
  | finite negative m q =>
    obtain ⟨s, hd, hs, hf, ht⟩ := Binary64.layout_pointed hx (List.cons_ne_nil _ [])
      (isDigit_replicate_zero (k := 1)) (show Tree.floatLayout.wholeSignificand = _ from rfl)
    have hsize := isSize_text hd hs
    rw [ht]
    exact ⟨tag_float hd hs hf, hsize.allowsPlain_signed, hsize.signed_ne_nil, _, float_text hd hs⟩

end Float

end DocPath.Yaml
