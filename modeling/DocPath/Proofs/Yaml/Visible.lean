import DocPath.Proofs.Yaml.Plain
import DocPath.Proofs.Yaml.Double
import DocPath.Proofs.Yaml.Pen

/-! What is written has only code points that can be read, and lines end only where the text has breaks or may
be broken. -/

namespace DocPath.Yaml

open Layout

/-- No code points but those that stand for themselves, and no breaks unless there may be. -/
def Visible (mayBreak : Prop) (w : Text) : Prop :=
  ∀ d ∈ w, isSpecial d = false ∧ (isTextBreak d = true → mayBreak)

namespace Visible

variable {mayBreak : Prop} {d : CodePoint} {t u w : Text}

lemma nil : Visible mayBreak [] := by simp [Visible]

lemma cons (hs : isSpecial d = false) (hb : isTextBreak d = true → mayBreak) (h : Visible mayBreak w) :
    Visible mayBreak (d :: w) := by
  intro e he
  rcases List.mem_cons.mp he with rfl | he
  · exact ⟨hs, hb⟩
  · exact h e he

lemma append (hu : Visible mayBreak u) (hw : Visible mayBreak w) : Visible mayBreak (u ++ w) := by
  intro e he
  rcases List.mem_append.mp he with he | he
  · exact hu e he
  · exact hw e he

lemma mono {other : Prop} (h : Visible mayBreak w) (hi : mayBreak → other) : Visible other w :=
  fun d hd => ⟨(h d hd).1, fun hb => hi ((h d hd).2 hb)⟩

lemma blanks (n : Nat) : Visible mayBreak (blanks n) := by
  intro e he
  rw [eq_of_mem_blanks he]
  exact ⟨by decide, fun hb => absurd hb (by decide)⟩

lemma newLine (h : mayBreak) (n : Nat) : Visible mayBreak (newLine n) :=
  cons (by decide) (fun _ => h) (blanks n)

lemma enclosed {q : CodePoint} (hs : isSpecial q = false) (hb : isTextBreak q = false)
    (h : Visible mayBreak w) : Visible mayBreak (q :: (w ++ [q])) :=
  have hq : isTextBreak q = true → mayBreak := fun h => by rw [hb] at h; cases h
  cons hs hq (append h (cons hs hq nil))

lemma isInline (h : Visible False w) : IsInline w := by
  intro d hd
  obtain ⟨hs, hb⟩ := h d hd
  rcases Token.blank_or_solid hs (Bool.not_eq_true _ ▸ hb) with rfl | ⟨hsolid, hmark⟩
  · decide
  · exact ⟨(Token.solid_iff.mp hsolid).2.2.1, hmark⟩

end Visible

section Bodies

variable {split begun held : Bool} {inner : Nat} {before : Option CodePoint} {t w : Text}

lemma visible_plain (h : PlainBody split inner before t w) (hs : t.any isSpecial = false) :
    Visible (split = true ∨ isMultiline t = true) w := by
  induction h with
  | nil => exact .nil
  | put h ih =>
    rw [List.any_cons, Bool.or_eq_false_iff] at hs
    refine .cons hs.1 (fun hb => ?_) ((ih hs.2).mono ?_)
    · simp [isMultiline, hb]
    · simp only [isMultiline, List.any_cons, Bool.or_eq_true]
      tauto
  | fold hsplit hf h ih =>
    rw [List.any_cons, Bool.or_eq_false_iff] at hs
    exact .append (.newLine (.inl hsplit) _) ((ih hs.2).mono fun _ => .inl hsplit)

lemma visible_single (h : SingleBody split inner before t w) (hs : t.any isSpecial = false) :
    Visible (split = true ∨ isMultiline t = true) w := by
  induction h with
  | nil => exact .nil
  | put hb hq h ih =>
    rw [List.any_cons, Bool.or_eq_false_iff] at hs
    refine .cons hs.1 (fun hbreak => ?_) ((ih hs.2).mono ?_)
    · simp [isMultiline, hbreak]
    · simp only [isMultiline, List.any_cons, Bool.or_eq_true]
      tauto
  | quote h ih =>
    rw [List.any_cons, Bool.or_eq_false_iff] at hs
    refine .cons (by decide) (fun h => absurd h (by decide)) (.cons (by decide) (fun h => absurd h (by decide))
      ((ih hs.2).mono ?_))
    simp only [isMultiline, List.any_cons, Bool.or_eq_true]
    tauto
  | fold hsplit hf h ih =>
    rw [List.any_cons, Bool.or_eq_false_iff] at hs
    exact .append (.newLine (.inl hsplit) _) ((ih hs.2).mono fun _ => .inl hsplit)
  | @breaks before d t w hb h ih =>
    rw [List.any_cons, Bool.or_eq_false_iff] at hs
    have hm : split = true ∨ isMultiline (d :: t) = true := by simp [isMultiline, hb]
    refine .append (.append ?_ (.cons hs.1 (fun _ => hm) ?_)) ((ih hs.2).mono fun _ => hm)
    · split_ifs
      · exact .cons (by decide) (fun _ => hm) .nil
      · exact .nil
    · split_ifs
      · exact .nil
      · exact .blanks inner

/-- Letters, digits and signs. -/
def IsAscii (d : CodePoint) : Prop := 0x20 ≤ d.val ∧ d.val ≤ 0x7E

lemma IsAscii.visible {d : CodePoint} (h : IsAscii d) : isSpecial d = false ∧ isTextBreak d = false := by
  obtain ⟨h1, h2⟩ := h
  refine ⟨by simp [isSpecial, h1, h2], ?_⟩
  rw [← Bool.not_eq_true, Token.isTextBreak_iff]
  omega

lemma isAscii_of_isHexDigit {d : CodePoint} (h : d.isHexDigit = true) : IsAscii d := by
  have hv (c : Char) : (CodePoint.ofChar c).val = c.toNat := rfl
  simp only [CodePoint.isHexDigit, CodePoint.digitValue, Bool.and_eq_true, decide_eq_true_eq, Fin.le_def, hv,
    Char.reduceToNat] at h
  rw [IsAscii]
  split_ifs at h <;> omega

lemma isAscii_doubleEscape (d : CodePoint) : ∀ e ∈ doubleEscape d, IsAscii e := by
  have hletters : ∀ e ∈ Token.escapes, e.1 ≠ '\t' → IsAscii (CodePoint.ofChar e.1) := by
    unfold IsAscii
    decide +kernel
  have hlong (l : Char) (k : Nat) (hl : IsAscii (CodePoint.ofChar l)) :
      ∀ e ∈ CodePoint.ofChar '\\' :: CodePoint.ofChar l :: Text.hexCapital k d.val, IsAscii e := by
    intro e he
    rcases List.mem_cons.mp he with rfl | he
    · exact ⟨by decide, by decide⟩
    rcases List.mem_cons.mp he with rfl | he
    · exact hl
    · exact isAscii_of_isHexDigit (Text.isHexDigit_hexCapital k d.val e he)
  unfold doubleEscape
  cases hl : escapeLetter? d with
  | some l =>
    obtain ⟨x, hx, rfl⟩ := Option.map_eq_some_iff.mp hl
    have hp := List.find?_some hx
    simp only [Bool.and_eq_true, bne_iff_ne, ne_eq] at hp
    intro e he
    rcases List.mem_cons.mp he with rfl | he
    · exact ⟨by decide, by decide⟩
    · rw [List.mem_singleton.mp he]
      exact hletters x (List.mem_of_find?_eq_some hx) hp.1.1.2
  | none =>
    dsimp only
    split_ifs
    · exact hlong 'x' 2 ⟨by decide, by decide⟩
    · exact hlong 'u' 4 ⟨by decide, by decide⟩
    · exact hlong 'U' 8 ⟨by decide, by decide⟩

lemma visible_doublePlain {d : CodePoint} (h : isDoublePlain d = true) :
    isSpecial d = false ∧ isTextBreak d = false := by
  simp only [isDoublePlain, Bool.and_eq_true, Bool.or_eq_true, Bool.not_eq_true', decide_eq_true_eq,
    bne_iff_ne, ne_eq] at h
  obtain ⟨-, hvals⟩ := h
  constructor
  · simp only [isSpecial, Bool.not_eq_false', Bool.or_eq_true, Bool.and_eq_true, decide_eq_true_eq,
      beq_iff_eq, bne_iff_ne, ne_eq]
    omega
  · rw [← Bool.not_eq_true, Token.isTextBreak_iff]
    omega

lemma visible_escape (d : CodePoint) {mayBreak : Prop} : Visible mayBreak (doubleEscape d) := by
  intro e he
  obtain ⟨hs, hb⟩ := (isAscii_doubleEscape d e he).visible
  exact ⟨hs, fun h => by rw [hb] at h; cases h⟩

lemma visible_escapedBreak {mayBreak : Prop} (h : mayBreak) (t : Text) :
    Visible mayBreak (escapedBreak inner t) := by
  refine .cons (by decide) (fun h => absurd h (by decide)) (.append (.newLine h _) ?_)
  unfold blankGuard
  split_ifs
  · exact .cons (by decide) (fun h => absurd h (by decide)) .nil
  · exact .nil

lemma visible_double (h : DoubleBody split inner begun held t w) : Visible (split = true) w := by
  induction h with
  | nil => exact .nil
  | plain hc hh h ih =>
    obtain ⟨hs, hb⟩ := visible_doublePlain hc
    exact .cons hs (fun h => by rw [hb] at h; cases h) ih
  | breakPlain hsplit hc ht hh h ih =>
    obtain ⟨hs, hb⟩ := visible_doublePlain hc
    exact .append (visible_escapedBreak hsplit _) (.cons hs (fun h => by rw [hb] at h; cases h) ih)
  | special hc hb h ih => exact .append (visible_escape _) ih
  | breakSpecial hsplit hc ht h ih =>
    exact .append (visible_escape _) (.append (visible_escapedBreak hsplit _) ih)

/-- A scalar in any of its forms. -/
theorem visible_scalar {tag : Text} (h : ScalarBody split inner tag t w) :
    Visible (split = true ∨ isMultiline t = true) w := by
  unfold ScalarBody at h
  cases hs : style (!split) tag t with
  | plain =>
    rw [hs] at h
    have ht := (style_eq_plain hs).2.1
    simp only [allowsPlain, Bool.not_eq_true', Bool.or_eq_false_iff] at ht
    exact visible_plain h ht.1.1.1.2
  | single =>
    rw [hs] at h
    obtain ⟨b, hb, rfl⟩ := h
    have ht := (style_eq_single hs).1
    rw [allowsSingle, Bool.not_eq_true', Bool.or_eq_false_iff] at ht
    exact .enclosed (by decide) (by decide) (visible_single hb ht.1)
  | double =>
    rw [hs] at h
    obtain ⟨b, hb, rfl⟩ := h
    exact .enclosed (by decide) (by decide) ((visible_double hb).mono .inl)

end Bodies

end DocPath.Yaml
