import DocPath.Number.Shortest
import DocPath.Proofs.Number.Numeral
import Mathlib.Data.List.DropRight

/-! The decimal texts of floating-point numbers: whole digits, a fraction and an exponent. The layout of
every finite number is such a text. -/

namespace DocPath

namespace Numeral

/-- No digit stands at the front. -/
def EndsDigits (t : Text) : Prop := ∀ c ∈ t.head?, c.isDigit = false

lemma endsDigits_nil : EndsDigits [] := by simp [EndsDigits]

lemma endsDigits_cons {c : CodePoint} {t : Text} (h : c.isDigit = false) : EndsDigits (c :: t) := by
  simpa [EndsDigits] using h

theorem spanDigits_append {digits rest : Text} (h : ∀ c ∈ digits, c.isDigit = true)
    (hr : EndsDigits rest) : spanDigits (digits ++ rest) = (digits, rest) := by
  have htake : rest.takeWhile CodePoint.isDigit = [] := by
    cases rest with
    | nil => rfl
    | cons c rest => simp [hr c rfl]
  have hdrop : rest.dropWhile CodePoint.isDigit = rest := by
    cases rest with
    | nil => rfl
    | cons c rest => simp [hr c rfl]
  rw [spanDigits, List.takeWhile_append_of_pos h, List.dropWhile_append_of_pos h, htake, hdrop,
    List.append_nil]

lemma value_replicate_zero (k : Nat) : value 10 (List.replicate k (CodePoint.ofChar '0')) = 0 := by
  induction k with
  | zero => rfl
  | succ k ih =>
    have hz : (CodePoint.ofChar '0').digitValue = 0 := by decide
    rw [List.replicate_succ, value_cons, ih, hz, Nat.zero_mul]

lemma isDigit_replicate_zero {k : Nat} :
    ∀ c ∈ List.replicate k (CodePoint.ofChar '0'), c.isDigit = true := by
  intro c hc
  rw [List.eq_of_mem_replicate hc]
  rfl

lemma ofNatPadded_ne_nil (k n : Nat) : Text.ofNatPadded k n ≠ [] :=
  List.append_ne_nil_of_right_ne_nil _ (Text.ofNat_ne_nil n)

lemma ofNatPadded_isDigit (k n : Nat) : ∀ c ∈ Text.ofNatPadded k n, c.isDigit = true := by
  intro c hc
  rcases List.mem_append.mp hc with hc | hc
  · exact isDigit_replicate_zero c hc
  · exact Text.ofNat_isDigit n c hc

lemma value_ofNatPadded (k n : Nat) : value 10 (Text.ofNatPadded k n) = n := by
  rw [Text.ofNatPadded, Text.padLeft, value_append, value_replicate_zero, Text.value_ofNat]
  omega

/-- The exponent of a layout is read back, whatever but a digit follows. -/
theorem exponent?_exponentText (e : Int) {rest : Text} (hr : EndsDigits rest) :
    exponent? (Binary64.exponentText e ++ rest) = some (e, rest) := by
  have hd := ofNatPadded_isDigit 2 e.natAbs
  have hs := spanDigits_append hd hr
  have hne : (Text.ofNatPadded 2 e.natAbs).isEmpty = false := List.isEmpty_eq_false_iff.mpr (ofNatPadded_ne_nil 2 _)
  rw [Binary64.exponentText, List.cons_append, List.cons_append, exponent?, if_pos (.inl rfl)]
  split_ifs with he
  · simp only [splitSign, if_true, hs, hne, value_ofNatPadded, Bool.false_eq_true, if_false,
      Option.some.injEq, Prod.mk.injEq, and_true]
    omega
  · have hp : CodePoint.ofChar '+' ≠ CodePoint.ofChar '-' := by decide
    simp only [splitSign, hp, if_true, if_false, hs, hne, value_ofNatPadded, Bool.false_eq_true,
      Option.some.injEq, Prod.mk.injEq, and_true]
    omega

/-- The parts of a decimal text. -/
structure Spelling where
  whole : Text
  fraction : Option Text
  exponent : Option Int

namespace Spelling

variable (s : Spelling)

/-- What follows the whole digits. -/
def tail : Text :=
  (s.fraction.map (CodePoint.ofChar '.' :: ·)).getD [] ++
    (s.exponent.map Binary64.exponentText).getD []

def text : Text := s.whole ++ s.tail

/-- The number that the parts stand for. -/
def number (negative : Bool) : Binary64 :=
  decimalNumber negative s.whole (s.fraction.getD []) (s.exponent.getD 0)

/-- There are whole digits, and the parts consist of digits. -/
structure Digital : Prop where
  whole_ne_nil : s.whole ≠ []
  whole : ∀ c ∈ s.whole, c.isDigit = true
  fraction : ∀ f ∈ s.fraction, ∀ c ∈ f, c.isDigit = true

end Spelling

/-- The code points of decimal texts. -/
def IsNumberMark (c : CodePoint) : Prop :=
  c.isDigit = true ∨ c = CodePoint.ofChar '.' ∨ c = CodePoint.ofChar 'e' ∨
    c = CodePoint.ofChar '+' ∨ c = CodePoint.ofChar '-'

lemma isNumberMark_exponentText (e : Int) : ∀ c ∈ Binary64.exponentText e, IsNumberMark c := by
  intro c hc
  simp only [Binary64.exponentText, List.mem_cons] at hc
  rcases hc with rfl | rfl | hc
  · exact .inr (.inr (.inl rfl))
  · split_ifs
    · exact .inr (.inr (.inr (.inr rfl)))
    · exact .inr (.inr (.inr (.inl rfl)))
  · exact .inl (ofNatPadded_isDigit 2 _ c hc)

lemma Spelling.Digital.isNumberMark {s : Spelling} (h : s.Digital) :
    ∀ c ∈ s.text, IsNumberMark c := by
  intro c hc
  simp only [Spelling.text, Spelling.tail, List.mem_append] at hc
  rcases hc with hc | hc | hc
  · exact .inl (h.whole c hc)
  · cases hf : s.fraction with
    | none => simp [hf] at hc
    | some f =>
      rw [hf, Option.map_some, Option.getD_some, List.mem_cons] at hc
      rcases hc with rfl | hc
      · exact .inr (.inl rfl)
      · exact .inl (h.fraction f hf c hc)
  · cases he : s.exponent with
    | none => simp [he] at hc
    | some e =>
      rw [he] at hc
      exact isNumberMark_exponentText e c hc

lemma Spelling.Digital.head_isDigit {s : Spelling} (h : s.Digital) : ∀ c ∈ s.text.head?, c.isDigit = true := by
  intro c hc
  rw [Spelling.text, List.head?_append_of_ne_nil _ h.whole_ne_nil] at hc
  exact h.whole c (List.mem_of_head? hc)

lemma isNumberMark_signedText {size : Text} {negative : Bool} (h : ∀ c ∈ size, IsNumberMark c) :
    ∀ c ∈ signedText negative size, IsNumberMark c := by
  intro c hc
  rw [signedText] at hc
  split_ifs at hc
  · rcases List.mem_cons.mp hc with rfl | hc
    · exact .inr (.inr (.inr (.inr rfl)))
    · exact h c hc
  · exact h c hc

lemma IsNumberMark.val_cases {c : CodePoint} (h : IsNumberMark c) :
    (48 ≤ c.val ∧ c.val ≤ 57) ∨ c.val = 46 ∨ c.val = 101 ∨ c.val = 43 ∨ c.val = 45 := by
  rcases h with h | h | h | h | h
  · exact .inl (CodePoint.isDigit_iff.mp h)
  · exact .inr (.inl (CodePoint.eq_ofChar_iff.mp h))
  · exact .inr (.inr (.inl (CodePoint.eq_ofChar_iff.mp h)))
  · exact .inr (.inr (.inr (.inl (CodePoint.eq_ofChar_iff.mp h))))
  · exact .inr (.inr (.inr (.inr (CodePoint.eq_ofChar_iff.mp h))))

lemma IsNumberMark.isMargin {c : CodePoint} (h : IsNumberMark c) : isMargin c = false := by
  have := h.val_cases
  simp only [Numeral.isMargin, CodePoint.isBlank, Bool.and_eq_false_iff, Bool.or_eq_false_iff,
    decide_eq_false_iff_not, beq_eq_false_iff_ne]
  omega

lemma IsNumberMark.asciiDigit {c : CodePoint} (h : IsNumberMark c) : asciiDigit c = c := by
  have := h.val_cases
  exact if_pos (by omega)

lemma IsNumberMark.ne_underscore {c : CodePoint} (h : IsNumberMark c) : c ≠ CodePoint.ofChar '_' := by
  have := h.val_cases
  rw [Ne, CodePoint.eq_ofChar_iff, show '_'.toNat = 95 from rfl]
  omega

lemma dropUnderscores_eq {t : Text} (h : ∀ c ∈ t, c ≠ CodePoint.ofChar '_') (afterDigit : Bool) :
    dropUnderscores afterDigit t = some t := by
  induction t generalizing afterDigit with
  | nil => rfl
  | cons c t ih =>
    have hrest := ih fun d hd => h d (by simp [hd])
    simp only [dropUnderscores, h c (by simp), if_false, hrest, Option.map_some]

lemma Spelling.endsDigits_tail (s : Spelling) : EndsDigits s.tail := by
  unfold Spelling.tail
  cases s.fraction with
  | some f => exact endsDigits_cons (by rfl)
  | none =>
    cases s.exponent with
    | some e => exact endsDigits_cons (by rfl)
    | none => exact endsDigits_nil

lemma endsDigits_exponent (e : Option Int) :
    EndsDigits ((e.map Binary64.exponentText).getD []) := by
  cases e with
  | some e => exact endsDigits_cons (by rfl)
  | none => exact endsDigits_nil

lemma splitExponent_exponent (e : Option Int) :
    splitExponent ((e.map Binary64.exponentText).getD []) = (e.getD 0, []) := by
  cases e with
  | some e =>
    have := exponent?_exponentText e endsDigits_nil
    rw [List.append_nil] at this
    simp [splitExponent, this]
  | none => rfl

theorem unsignedFloat?_text {s : Spelling} (h : s.Digital) (negative : Bool) :
    unsignedFloat? negative s.text = some (s.number negative) := by
  have hw := spanDigits_append h.whole s.endsDigits_tail
  have hne : s.whole.isEmpty = false := by simpa using h.whole_ne_nil
  have he := splitExponent_exponent s.exponent
  unfold unsignedFloat? Spelling.text
  simp only [hw, hne, Bool.false_and, Bool.false_eq_true, if_false]
  cases hf : s.fraction with
  | none =>
    have ht : s.tail = (s.exponent.map Binary64.exponentText).getD [] := by simp [Spelling.tail, hf]
    rw [ht]
    cases hx : s.exponent with
    | none => simp [splitExponent, exponent?, Spelling.number, hf, hx]
    | some e =>
      have hd : CodePoint.ofChar 'e' ≠ CodePoint.ofChar '.' := by decide
      rw [hx] at he
      simp only [Option.map_some, Option.getD_some, Binary64.exponentText] at he ⊢
      simp only [hd, if_false, he, List.isEmpty_nil, if_true, Spelling.number, hf, hx,
        Option.getD_none, Option.getD_some]
  | some f =>
    have hs := spanDigits_append (h.fraction f hf) (endsDigits_exponent s.exponent)
    simp only [Spelling.tail, hf, Option.map_some, Option.getD_some, List.cons_append, if_true, hs,
      he, List.isEmpty_nil, Spelling.number]

/-- A decimal text, with a minus sign or without, is read as the number that its parts stand for. -/
theorem readFloat_text {s : Spelling} (h : s.Digital) (negative : Bool) :
    readFloat (signedText negative s.text) = .ok (s.number negative) := by
  set t := signedText negative s.text
  have hmarks : ∀ c ∈ t, IsNumberMark c := isNumberMark_signedText h.isNumberMark
  have hplain : (Text.trim isMargin t).map asciiDigit = t := by
    rw [Text.trim_eq_self fun c hc => (hmarks c hc).isMargin]
    exact (List.map_congr_left fun c hc => (hmarks c hc).asciiDigit).trans (List.map_id t)
  have hsign : splitSign t = (negative, s.text) := splitSign_signedText h.head_isDigit negative
  have hu := dropUnderscores_eq (fun c hc => (h.isNumberMark c hc).ne_underscore) false
  simp only [readFloat, hplain, hsign, hu, Option.bind_some, unsignedFloat?_text h negative]

/-- There is no zero in front of other digits, no point without digits behind it, and a fraction or an
exponent. -/
structure Spelling.Strict (s : Spelling) : Prop where
  whole : ∀ rest, s.whole = CodePoint.ofChar '0' :: rest → rest = []
  fraction : s.fraction ≠ some []
  notWhole : s.fraction = none → s.exponent ≠ none

end Numeral

namespace Binary64

open Numeral

/-- The parts of the layout of digits, given the fraction behind a single digit in front of an exponent. -/
def Decimal.spelling (single : Option Text) (d : Decimal) : Spelling :=
  let zero := CodePoint.ofChar '0'
  if -4 < d.point ∧ d.point ≤ 16 then
    if d.point ≤ 0 then ⟨[zero], some (List.replicate (-d.point).toNat zero ++ d.digits), none⟩
    else if (d.digits.length : Int) ≤ d.point then
      ⟨Text.padRight zero d.point.toNat d.digits, some [zero], none⟩
    else ⟨d.digits.take d.point.toNat, some (d.digits.drop d.point.toNat), none⟩
  else
    match d.digits with
    | [] => ⟨[zero], none, some (d.point - 1)⟩
    | [c] => ⟨[c], single, some (d.point - 1)⟩
    | c :: rest => ⟨[c], some rest, some (d.point - 1)⟩

/-- A fraction behind its point. -/
def fractionText (fraction : Option Text) : Text := (fraction.map (CodePoint.ofChar '.' :: ·)).getD []

variable {single : Option Text}

theorem Decimal.layout_eq_text (d : Decimal) : d.layout (fractionText single) = (d.spelling single).text := by
  unfold Decimal.layout Decimal.spelling
  dsimp only
  split_ifs with hp h0 hc
  · simp [Spelling.text, Spelling.tail, Text.ofString]
  · simp [Spelling.text, Spelling.tail, Text.ofString]
  · simp [Spelling.text, Spelling.tail, Text.ofString]
  · cases d.digits with
    | nil => simp [Spelling.text, Spelling.tail, Text.ofString]
    | cons c rest =>
      cases rest with
      | nil => simp [Spelling.text, Spelling.tail, fractionText]
      | cons e rest => simp [Spelling.text, Spelling.tail]

lemma isDigit_padRight {t : Text} (ht : ∀ c ∈ t, c.isDigit = true) (k : Nat) :
    ∀ c ∈ Text.padRight (CodePoint.ofChar '0') k t, c.isDigit = true := by
  intro c hc
  rcases List.mem_append.mp hc with hc | hc
  · exact ht c hc
  · exact isDigit_replicate_zero c hc

theorem Decimal.spelling_digital {d : Decimal} (hd : ∀ c ∈ d.digits, c.isDigit = true)
    (hsingle : ∀ f ∈ single, ∀ c ∈ f, c.isDigit = true) : (d.spelling single).Digital := by
  have hzero : ∀ c ∈ [CodePoint.ofChar '0'], c.isDigit = true :=
    isDigit_replicate_zero (k := 1)
  unfold Decimal.spelling
  dsimp only
  split_ifs with hp h0 hc
  · refine ⟨by simp, hzero, fun f hf c hc => ?_⟩
    obtain rfl := Option.some.inj hf
    rcases List.mem_append.mp hc with hc | hc
    · exact isDigit_replicate_zero c hc
    · exact hd c hc
  · refine ⟨fun hn => ?_, isDigit_padRight hd _, fun f hf => ?_⟩
    · have := congrArg List.length hn
      simp only [Text.padRight, List.length_append, List.length_replicate, List.length_nil] at this
      omega
    · obtain rfl := Option.some.inj hf
      exact hzero
  · refine ⟨fun hn => ?_, fun c hm => hd c (List.mem_of_mem_take hm), fun f hf c hm => ?_⟩
    · have := congrArg List.length hn
      simp only [List.length_take, List.length_nil] at this
      omega
    · obtain rfl := Option.some.inj hf
      exact hd c (List.mem_of_mem_drop hm)
  · cases hs : d.digits with
    | nil => exact ⟨by simp, hzero, by simp⟩
    | cons c rest =>
      have hc : ∀ x ∈ [c], x.isDigit = true := by
        intro x hx
        exact hd x (by simp [hs, List.mem_singleton.mp hx])
      cases rest with
      | nil => exact ⟨by simp, hc, hsingle⟩
      | cons e rest =>
        refine ⟨by simp, hc, fun f hf x hx => ?_⟩
        obtain rfl := Option.some.inj hf
        exact hd x (by rw [hs]; exact List.mem_cons_of_mem c hx)

/-- Digits that do not begin with zero have a strict text. -/
theorem Decimal.spelling_strict {d : Decimal} (hne : d.digits ≠ [])
    (hd : ∀ rest, d.digits ≠ CodePoint.ofChar '0' :: rest) (hsingle : single ≠ some []) :
    (d.spelling single).Strict := by
  obtain ⟨c, rest, hs⟩ := List.exists_cons_of_ne_nil hne
  have hc : c ≠ CodePoint.ofChar '0' := fun he => hd rest (he ▸ hs)
  unfold Decimal.spelling
  dsimp only
  split_ifs with hp h0 hl
  · exact ⟨fun rest he => (List.cons.inj he).2.symm, by simp [hs], by simp⟩
  · refine ⟨fun rest he => ?_, by simp, by simp⟩
    simp only [Text.padRight, hs, List.cons_append, List.cons.injEq] at he
    exact absurd he.1 hc
  · refine ⟨fun rest he => ?_, fun he => ?_, by simp⟩
    · obtain ⟨k, hk⟩ : ∃ k, d.point.toNat = k + 1 := ⟨d.point.toNat - 1, by omega⟩
      simp only [hs, hk, List.take_succ_cons, List.cons.injEq] at he
      exact absurd he.1 hc
    · have := congrArg List.length (Option.some.inj he)
      simp only [List.length_drop, List.length_nil] at this
      omega
  · rw [hs]
    cases rest with
    | nil => exact ⟨fun rest he => (List.cons.inj he).2.symm, hsingle, by simp⟩
    | cons e rest => exact ⟨fun rest he => (List.cons.inj he).2.symm, by simp, by simp⟩

lemma shortest_digits_eq (m : Nat) (q : Int) : ∃ n,
    (shortest m q).digits = (Text.ofNat n).rdropWhile (· == CodePoint.ofChar '0') := ⟨_, rfl⟩

lemma shortest_isDigit (m : Nat) (q : Int) : ∀ c ∈ (shortest m q).digits, c.isDigit = true := by
  obtain ⟨n, hn⟩ := shortest_digits_eq m q
  intro c hc
  rw [hn] at hc
  exact Text.ofNat_isDigit n c ((List.rdropWhile_prefix _ _).subset hc)

lemma shortest_ne_zero_cons (m : Nat) (q : Int) (rest : Text) :
    (shortest m q).digits ≠ CodePoint.ofChar '0' :: rest := by
  obtain ⟨n, hn⟩ := shortest_digits_eq m q
  intro he
  rw [he] at hn
  obtain ⟨more, hm⟩ := hn ▸ List.rdropWhile_prefix (· == CodePoint.ofChar '0') (Text.ofNat n)
  rw [List.cons_append] at hm
  obtain ⟨rfl, -⟩ := ofNat_eq_zero_cons hm.symm
  cases hn

lemma tenPow_pos (k : Nat) : 0 < tenPow k := Nat.pow_pos (by decide)
lemma twoPow_pos (k : Nat) : 0 < twoPow k := Nat.pow_pos (by decide)

lemma powerOfTen_pos (e : Int) : 0 < (powerOfTen e).2 := by
  unfold powerOfTen
  split_ifs
  · exact Nat.one_pos
  · exact tenPow_pos _

/-- A point of the grid below a value is not zero, because zero lies too far below to be read as the value. -/
lemma below_ne_zero {value unit quarter m low : Nat} {closed : Bool} (hvalue : value = 4 * m * quarter)
    (hquarter : 0 < quarter) (hm : m ≠ 0) (hl : low ≤ 2)
    (hin : if closed then value - value / unit * unit ≤ low * quarter
      else value - value / unit * unit < low * quarter) : value / unit ≠ 0 := by
  intro hd
  rw [hd, Nat.zero_mul, Nat.sub_zero] at hin
  have hle : value ≤ low * quarter := by
    split_ifs at hin
    · exact hin
    · exact hin.le
  have hfar : 2 * quarter < 4 * m * quarter := Nat.mul_lt_mul_of_pos_right (by omega) hquarter
  have hnear : low * quarter ≤ 2 * quarter := Nat.mul_le_mul_right quarter hl
  omega

/-- Of the two points around a value, the one above is never zero. -/
lemma nearest_ne_zero {downIn upIn : Prop} [Decidable downIn] [Decidable upIn] {d d' down up : Nat} {e e' : Int}
    (hd : downIn → d ≠ 0)
    (h : (if downIn && upIn then
        if down < up then some (d, e) else if up < down then some (d + 1, e) else some (d + d % 2, e)
      else if downIn then some (d, e) else if upIn then some (d + 1, e) else none) = some (d', e')) : d' ≠ 0 := by
  by_cases hdown : downIn
  · have := hd hdown
    split_ifs at h <;> simp only [Option.some.injEq, Prod.mk.injEq] at h <;> omega
  · simp only [hdown, decide_false, Bool.false_and, Bool.false_eq_true, if_false] at h
    split_ifs at h
    simp only [Option.some.injEq, Prod.mk.injEq] at h
    omega

lemma gridPoint?_ne_zero {m low count d : Nat} {q e : Int} {closed : Bool} (hm : m ≠ 0) (hl : low ≤ 2)
    (h : gridPoint? m q low closed count = some (d, e)) : d ≠ 0 := by
  unfold gridPoint? at h
  generalize hn : (if 0 ≤ q then (m * twoPow q.toNat, 1) else (m, twoPow (-q).toNat)) = n at h
  obtain ⟨num, den⟩ := n
  dsimp only at h
  have hb := powerOfTen_pos (decade num den - count)
  generalize powerOfTen (decade num den - count) = p at h hb
  obtain ⟨a, b⟩ := p
  dsimp only at h hb
  have hquarter : 0 < (if 0 ≤ q then twoPow q.toNat * b else b) := by
    split_ifs
    · exact Nat.mul_pos (twoPow_pos _) hb
    · exact hb
  have hvalue : 4 * num * b = 4 * m * (if 0 ≤ q then twoPow q.toNat * b else b) := by
    split_ifs at hn ⊢ with hq
    · rw [← (Prod.mk.inj hn).1, ← Nat.mul_assoc, ← Nat.mul_assoc]
    · rw [← (Prod.mk.inj hn).1]
  exact nearest_ne_zero (below_ne_zero hvalue hquarter hm hl) h

lemma firstGridPoint_ne_zero {m low : Nat} {q : Int} {closed : Bool} (hm : m ≠ 0) (hl : low ≤ 2) (left count : Nat) :
    (firstGridPoint m q low closed left count).1 ≠ 0 := by
  induction left generalizing count with
  | zero =>
    rw [firstGridPoint]
    cases h : gridPoint? m q low closed count with
    | none => exact hm
    | some p => exact gridPoint?_ne_zero hm hl h
  | succ left ih =>
    rw [firstGridPoint]
    split
    · next p h => exact gridPoint?_ne_zero hm hl h
    · exact ih _

lemma shortest_ne_nil {m : Nat} (hm : m ≠ 0) (q : Int) : (shortest m q).digits ≠ [] := by
  intro hnil
  have hpoint := @firstGridPoint_ne_zero m (if m = twoPow 52 ∧ -1074 < q then 1 else 2) q (m % 2 == 0) hm
    (by split_ifs <;> decide) 16 1
  have hdigits : (Text.ofNat (firstGridPoint m q (if m = twoPow 52 ∧ -1074 < q then 1 else 2) (m % 2 == 0) 16 1).1).rdropWhile
      (· == CodePoint.ofChar '0') = [] := hnil
  rw [List.rdropWhile_eq_nil_iff] at hdigits
  have hzeros : ∀ t : Text, (∀ c ∈ t, (c == CodePoint.ofChar '0') = true) → value 10 t = 0 := by
    intro t ht
    rw [List.eq_replicate_of_mem fun c hc => beq_iff_eq.mp (ht c hc)]
    exact value_replicate_zero _
  have hvalue := hzeros _ hdigits
  rw [Text.value_ofNat] at hvalue
  exact hpoint hvalue

/-- The parts of the layout of a finite number without its sign. Zero is no exception: it is written `0.0`. -/
def finiteSpelling (single : Option Text) (m : Nat) (q : Int) : Spelling :=
  if m = 0 then ⟨[CodePoint.ofChar '0'], some [CodePoint.ofChar '0'], none⟩ else (shortest m q).spelling single

section Finite

variable {x : Binary64} {negative : Bool} {m : Nat} {q : Int} {l : Layout}

lemma layout_finite (hx : x.shape = .finite negative m q) (hl : l.wholeSignificand = fractionText single) :
    x.layout l = signedText negative (finiteSpelling single m q).text := by
  have htext : (if m = 0 then Text.ofString "0.0" else (shortest m q).layout l.wholeSignificand) =
      (finiteSpelling single m q).text := by
    rw [finiteSpelling, hl, Decimal.layout_eq_text]
    split_ifs <;> rfl
  rw [← htext, layout, hx]
  rfl

lemma finiteSpelling_digital (hsingle : ∀ f ∈ single, ∀ c ∈ f, c.isDigit = true) :
    (finiteSpelling single m q).Digital := by
  rw [finiteSpelling]
  split_ifs
  · refine ⟨List.cons_ne_nil _ _, isDigit_replicate_zero (k := 1), fun f hf => ?_⟩
    obtain rfl := Option.some.inj hf
    exact isDigit_replicate_zero (k := 1)
  · exact Decimal.spelling_digital (shortest_isDigit m q) hsingle

lemma finiteSpelling_strict (hsingle : single ≠ some []) : (finiteSpelling single m q).Strict := by
  rw [finiteSpelling]
  split_ifs with hm
  · exact ⟨fun rest he => (List.cons.inj he).2.symm, by simp, by simp⟩
  · exact Decimal.spelling_strict (shortest_ne_nil hm q) (shortest_ne_zero_cons m q) hsingle

/-- A finite number has a strict decimal text in every layout, and it is read as the number its parts stand for. -/
theorem layout_strict (hx : x.shape = .finite negative m q) (l : Layout) (hl : l.wholeSignificand = []) :
    ∃ s : Spelling, s.Digital ∧ s.Strict ∧
      readFloat (x.layout plainLayout) = .ok (s.number negative) ∧
      x.layout l = signedText negative s.text := by
  have hd : (finiteSpelling none m q).Digital := finiteSpelling_digital (by simp)
  refine ⟨_, hd, finiteSpelling_strict (by simp), ?_, layout_finite hx hl⟩
  rw [layout_finite hx (show plainLayout.wholeSignificand = fractionText none from rfl)]
  exact readFloat_text hd negative

/-- Where a single digit has a fraction in front of an exponent, every finite number has a fraction. -/
theorem layout_pointed (hx : x.shape = .finite negative m q) {f : Text} (hne : f ≠ [])
    (hf : ∀ c ∈ f, c.isDigit = true) (hl : l.wholeSignificand = CodePoint.ofChar '.' :: f) :
    ∃ s : Spelling, s.Digital ∧ s.Strict ∧ s.fraction ≠ none ∧
      x.layout l = signedText negative s.text := by
  refine ⟨finiteSpelling (some f) m q, finiteSpelling_digital fun g hg => Option.some.inj hg ▸ hf,
    finiteSpelling_strict fun h => hne (Option.some.inj h), ?_, layout_finite hx hl⟩
  rw [finiteSpelling]
  split_ifs with hm
  · simp
  · obtain ⟨c, rest, hs⟩ := List.exists_cons_of_ne_nil (shortest_ne_nil hm q)
    unfold Decimal.spelling
    dsimp only
    rw [hs]
    split_ifs
    · simp
    · simp
    · simp
    · cases rest <;> simp

end Finite

end Binary64

end DocPath
