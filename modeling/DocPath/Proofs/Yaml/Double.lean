import DocPath.Proofs.Yaml.Quoted
import Mathlib.Data.List.TakeWhile

/-! Scalars between double quotation marks as they are read. -/

namespace DocPath.Yaml.Token

open Layout

section Escapes

variable {start : Mark} {c : Cursor} {rest : Text}

lemma hexPoint_eq {k n : Nat} (hk : 0 < k) (hn : n < 16 ^ k) (hp : n < 0x110000)
    (hrest : c.rest = Text.hexCapital k n ++ rest) :
    hexPoint start k c = .ok (CodePoint.ofNat n, c.skip k) := by
  have hlen := Text.length_hexCapital hk hn
  have hdigits : (c.rest.take k).takeWhile CodePoint.isHexDigit = Text.hexCapital k n := by
    rw [hrest, List.take_left' hlen, List.takeWhile_eq_self_iff]
    exact Text.isHexDigit_hexCapital k n
  simp only [hexPoint, hdigits, hlen, Text.value_hexCapital]
  rw [if_neg (Nat.lt_irrefl k), if_pos hp]

lemma escapeSequence_letter {d : CodePoint} {l : Char} (hl : escapeLetter? d = some l)
    (hrest : c.rest = CodePoint.ofChar l :: rest) : escapeSequence start c = .ok ([d], c.next) := by
  have hall : ∀ e ∈ escapes, e.1 ≠ '\t' → e.1 ≠ ' ' → e.1 ≠ '/' →
      escape? (CodePoint.ofChar e.1) = some (CodePoint.ofNat e.2) := by
    decide +kernel
  obtain ⟨e, he, rfl⟩ := Option.map_eq_some_iff.mp hl
  have hp := List.find?_some he
  simp only [Bool.and_eq_true, beq_iff_eq, bne_iff_ne, ne_eq] at hp
  have hread := hall e (List.mem_of_find?_eq_some he) hp.1.1.2 hp.1.2 hp.2
  rw [hp.1.1.1, CodePoint.ofNat_of_val] at hread
  rw [escapeSequence, Cursor.now_of_cons _ hrest, hread]

lemma escapeSequence_hex {d : CodePoint} {l : Char} {k : Nat} (hl : escape? (CodePoint.ofChar l) = none)
    (hk : digitCount? (CodePoint.ofChar l) = some k) (hpos : 0 < k) (hd : d.val < 16 ^ k)
    (hrest : c.rest = CodePoint.ofChar l :: (Text.hexCapital k d.val ++ rest)) :
    escapeSequence start c = .ok ([d], c.skip (k + 1)) := by
  rw [escapeSequence, Cursor.now_of_cons _ hrest, hl, hk]
  simp only [hexPoint_eq hpos hd d.isLt (Cursor.rest_next hrest), CodePoint.ofNat_of_val]
  rfl

/-- An escape is read as the code point that it is written for. -/
theorem escapeSequence_escape (d : CodePoint) :
    ∃ e, doubleEscape d = CodePoint.ofChar '\\' :: e ∧ ∀ (start : Mark) (c : Cursor) (rest : Text),
      c.rest = e ++ rest → escapeSequence start c = .ok ([d], c.skip e.length) := by
  have hlong (l : Char) (k : Nat) (hl : escape? (CodePoint.ofChar l) = none)
      (hk : digitCount? (CodePoint.ofChar l) = some k) (hpos : 0 < k) (hd : d.val < 16 ^ k) :
      ∃ e, CodePoint.ofChar '\\' :: CodePoint.ofChar l :: Text.hexCapital k d.val =
          CodePoint.ofChar '\\' :: e ∧
        ∀ (start : Mark) (c : Cursor) (rest : Text), c.rest = e ++ rest →
          escapeSequence start c = .ok ([d], c.skip e.length) := by
    refine ⟨_, rfl, fun start c rest hc => ?_⟩
    rw [List.length_cons, Text.length_hexCapital hpos hd]
    exact escapeSequence_hex hl hk hpos hd hc
  unfold doubleEscape
  cases hl : escapeLetter? d with
  | some l => exact ⟨[CodePoint.ofChar l], rfl, fun start c rest hc => escapeSequence_letter hl hc⟩
  | none =>
    dsimp only
    split_ifs with h2 h4
    · exact hlong 'x' 2 (by decide) (by decide) (by decide) h2
    · exact hlong 'u' 4 (by decide) (by decide) (by decide) h4
    · exact hlong 'U' 8 (by decide) (by decide) (by decide) (Nat.lt_trans d.isLt (by decide))

lemma escapeSequence_break {n : Nat} (hn : 0 < n) (hrest : c.rest = newLine n ++ rest)
    (hhead : ∀ e ∈ rest.head?, isQuotedSpace e = false ∧ isBreak e = false) :
    escapeSequence start c = .ok ([], c.skip (n + 1)) := by
  have hfirst : c.rest = CodePoint.ofChar '\n' :: (blanks n ++ rest) := hrest
  have hbreaks := @quotedBreaks_blanks start (c.next.rest.length) c.next rest n hn
    (Cursor.rest_next hfirst) (fun e he => (hhead e he).1) (fun e he => (hhead e he).2)
  have hescape : escape? (CodePoint.ofChar '\n') = none := by decide
  have hcount : digitCount? (CodePoint.ofChar '\n') = none := by decide
  rw [escapeSequence, Cursor.now_of_cons _ hfirst, hescape, hcount]
  simp only [lineBreak_eq (by decide) hfirst, hbreaks]
  rfl

end Escapes

section Double

variable {split : Bool} {inner : Nat} {begun held : Bool} {t w : Text} {k : Text}

/-- A code point that stands for itself is a blank, an apostrophe or no sign at all. -/
lemma cases_of_doublePlain {d : CodePoint} (h : isDoublePlain d = true) :
    d = CodePoint.ofChar ' ' ∨ d = CodePoint.ofChar '\'' ∨
      isQuotedPlain d = true ∧ isQuotedSpace d = false ∧ isBreak d = false := by
  by_cases h1 : d = CodePoint.ofChar ' '
  · exact .inl h1
  by_cases h2 : d = CodePoint.ofChar '\''
  · exact .inr (.inl h2)
  have h32 : d.val ≠ 32 := fun h => h1 (CodePoint.eq_ofChar_iff.mpr h)
  simp only [isDoublePlain, Bool.and_eq_true, Bool.or_eq_true, Bool.not_eq_true', decide_eq_true_eq,
    bne_iff_ne, ne_eq] at h
  obtain ⟨⟨hq, hb⟩, hvals⟩ := h
  have hbreak : isBreak d = false := by
    rw [← Bool.not_eq_true, isBreak_iff]
    omega
  have hspace : isSpaceOrEnd d = false := by
    rw [← Bool.not_eq_true, isSpaceOrEnd_iff, hbreak]
    simp only [Bool.false_eq_true, false_or]
    omega
  refine .inr (.inr ⟨?_, ?_, hbreak⟩)
  · simp [isQuotedPlain, hspace, CodePoint.is, h2] at hq hb ⊢
    exact ⟨hq, hb⟩
  · rw [← Bool.not_eq_true, isQuotedSpace, Bool.or_eq_true, CodePoint.is_iff, CodePoint.is_iff]
    rintro (h | h)
    · exact h32 h
    · change d.val = 9 at h
      omega

lemma doubleEscape_cons (d : CodePoint) : ∃ e, doubleEscape d = CodePoint.ofChar '\\' :: e := by
  obtain ⟨e, he, -⟩ := escapeSequence_escape d
  exact ⟨e, he⟩

/-- What comes behind blanks is no break. -/
lemma spaces_of_double (h : DoubleBody split inner begun held t w) :
    ∃ d r, (w ++ CodePoint.ofChar '"' :: k).dropWhile isQuotedSpace = d :: r ∧ isBreak d = false := by
  induction h with
  | nil => exact ⟨_, _, rfl, by decide⟩
  | @plain begun held d t w hd hh h ih =>
    rcases cases_of_doublePlain hd with rfl | rfl | ⟨-, hs, hb⟩
    · exact ih
    · exact ⟨_, _, rfl, by decide⟩
    · exact ⟨d, _, List.dropWhile_cons_of_neg (by simp [hs]), hb⟩
  | breakPlain => exact ⟨_, _, rfl, by decide⟩
  | @special begun d =>
    obtain ⟨e, he⟩ := doubleEscape_cons d
    rw [he]
    exact ⟨_, _, rfl, by decide⟩
  | @breakSpecial d =>
    obtain ⟨e, he⟩ := doubleEscape_cons d
    rw [he]
    exact ⟨_, _, rfl, by decide⟩

/-- What begins an indented line with a code point that stands for itself. -/
lemma head_of_plain {d : CodePoint} (hd : isDoublePlain d = true) :
    ∀ e ∈ (blankGuard (d :: t) ++ d :: k).head?, isQuotedSpace e = false ∧ isBreak e = false := by
  intro e he
  by_cases hblank : d = CodePoint.ofChar ' '
  · subst hblank
    obtain rfl := Option.some.inj he
    decide
  · have hhead : ¬(d :: t).head? = some (CodePoint.ofChar ' ') := fun h => hblank (Option.some.inj h)
    rw [blankGuard, if_neg hhead] at he
    obtain rfl := Option.some.inj he
    rcases cases_of_doublePlain hd with rfl | rfl | ⟨-, hs, hb⟩
    · exact absurd rfl hblank
    · decide
    · exact ⟨hs, hb⟩

lemma head_of_backslash {d : CodePoint} {rest : Text} (hd : d = CodePoint.ofChar '\\') :
    ∀ e ∈ (d :: rest).head?, isQuotedSpace e = false ∧ isBreak e = false := by
  intro e he
  obtain rfl := Option.some.inj he
  subst hd
  decide

/-- What begins an indented line, behind the backslash that guards a blank. -/
lemma head_of_double (h : DoubleBody split inner begun held t w)
    (hh : t.head? = some (CodePoint.ofChar ' ') → held = true) :
    ∀ e ∈ (blankGuard t ++ (w ++ CodePoint.ofChar '"' :: k)).head?,
      isQuotedSpace e = false ∧ isBreak e = false := by
  by_cases hblank : t.head? = some (CodePoint.ofChar ' ')
  · rw [blankGuard, if_pos hblank]
    exact head_of_backslash rfl
  cases h with
  | nil => simp [blankGuard]; decide
  | plain hd => exact head_of_plain hd
  | breakPlain =>
    rw [blankGuard, if_neg hblank]
    exact head_of_backslash rfl
  | @special begun d =>
    obtain ⟨x, hx⟩ := doubleEscape_cons d
    rw [blankGuard, if_neg hblank, hx]
    exact head_of_backslash rfl
  | @breakSpecial d =>
    obtain ⟨x, hx⟩ := doubleEscape_cons d
    rw [blankGuard, if_neg hblank, hx]
    exact head_of_backslash rfl

/-- What is read from between double quotation marks, perhaps behind a backslash in front of the blank that
comes next. -/
def heardFrom (far begun held : Bool) (t : Text) : Text :=
  (if far ∧ held ∧ 1 < t.length then [CodePoint.ofChar '\\', CodePoint.ofChar ' '] else []) ++
    if far then heardDouble begun t else t

lemma heardFrom_plain {far begun : Bool} {d : CodePoint} (hd : isDoublePlain d = true) :
    heardFrom far begun false (d :: t) = d :: heardFrom far true false t := by
  cases far <;> simp [heardFrom, heardDouble, hd]

lemma heardFrom_special {far begun : Bool} {d : CodePoint} (hd : isDoublePlain d = false) :
    heardFrom far begun false (d :: t) =
      d :: heardFrom far true (begun && t.head? = some (CodePoint.ofChar ' ')) t := by
  cases far with
  | false => simp [heardFrom]
  | true => simp [heardFrom, heardDouble, hd, and_assoc]

lemma heardFrom_nil {far begun : Bool} : heardFrom far begun false [] = [] := by cases far <;> rfl

lemma heardFrom_unguarded {far begun : Bool} {d : CodePoint} (hd : isDoublePlain d = false)
    (hlast : far = true → begun = true → t = []) : heardFrom far begun false (d :: t) = d :: heardFrom far true false t := by
  rw [heardFrom_special hd]
  cases begun with
  | false => rfl
  | true =>
    cases far with
    | false => rfl
    | true =>
      rw [hlast rfl rfl]
      rfl

/-- A guarded blank is heard once on a line that is not too long, or where the text ends. -/
lemma heardFrom_held {far begun : Bool} (hlast : far = true → t = []) :
    heardFrom far begun true (CodePoint.ofChar ' ' :: t) = CodePoint.ofChar ' ' :: heardFrom far true false t := by
  cases far with
  | false => rfl
  | true =>
    rw [hlast rfl]
    cases begun <;> rfl

lemma heardFrom_held_twice (ht : t ≠ []) :
    heardFrom true true true (CodePoint.ofChar ' ' :: t) =
      CodePoint.ofChar '\\' :: CodePoint.ofChar ' ' :: CodePoint.ofChar ' ' :: heardFrom true true false t := by
  have hplain : isDoublePlain (CodePoint.ofChar ' ') = true := by decide
  have hlen : 0 < t.length := List.length_pos_of_ne_nil ht
  simp [heardFrom, heardDouble, hplain, hlen]

/-- What is written is read as a text in front of a closing mark, wherever it stands. -/
def ReadsAs (k : Text) (start : Mark) (w text : Text) : Prop :=
  ∀ c : Cursor, c.rest = w ++ CodePoint.ofChar '"' :: k → Reads true start c text w.length

namespace ReadsAs

variable {start : Mark} {d : CodePoint} {text : Text}

lemma nil : ReadsAs k start [] [] := fun _ hc => Reads.close_double hc

/-- A code point that stands for itself, if no break comes behind the blanks that it may begin. -/
lemma plain (hd : isDoublePlain d = true)
    (hspaces : ∃ e r, (w ++ CodePoint.ofChar '"' :: k).dropWhile isQuotedSpace = e :: r ∧ isBreak e = false)
    (h : ReadsAs k start w text) : ReadsAs k start (d :: w) (d :: text) := by
  intro c hc
  have hnext := h c.next (Cursor.rest_next hc)
  rcases cases_of_doublePlain hd with rfl | rfl | ⟨hplain, -, -⟩
  · obtain ⟨e, r, he, hbreak⟩ := hspaces
    have hpass : (c.skipWhile isQuotedSpace).rest = e :: r := by
      rw [Cursor.skipWhile_rest, hc]
      exact he
    refine Reads.blank hc ?_ (by simp [hpass]) hnext
    rwa [Cursor.now_of_cons _ hpass]
  · exact Reads.apostrophe hc hnext
  · exact Reads.plain hc hplain hnext

lemma escape (h : ReadsAs k start w text) : ReadsAs k start (doubleEscape d ++ w) (d :: text) := by
  obtain ⟨e, he, hread⟩ := escapeSequence_escape d
  intro c hc
  have hfirst : c.rest = CodePoint.ofChar '\\' :: (e ++ (w ++ CodePoint.ofChar '"' :: k)) := by
    rw [hc, he]
    simp
  have hnext := h (c.next.skip e.length) (c.next.skip_append (Cursor.rest_next hfirst))
  rw [he, List.length_append, List.length_cons]
  exact Reads.escape hfirst (hread start c.next _ (Cursor.rest_next hfirst)) hnext

lemma guarded (h : ReadsAs k start w text) :
    ReadsAs k start (CodePoint.ofChar '\\' :: CodePoint.ofChar ' ' :: w) (CodePoint.ofChar ' ' :: text) := by
  intro c hc
  have hescape : escapeSequence start c.next = .ok ([CodePoint.ofChar ' '], c.next.skip 1) := by
    rw [escapeSequence, Cursor.now_of_cons _ (Cursor.rest_next hc)]
    rfl
  have hnext := h (c.skip 2) (Cursor.rest_next (Cursor.rest_next hc))
  rw [List.length_cons, List.length_cons, Nat.add_comm, ← Nat.add_assoc, Nat.add_right_comm]
  exact Reads.escape hc hescape hnext

lemma brokenLine (hi : 0 < inner)
    (hhead : ∀ e ∈ (w ++ CodePoint.ofChar '"' :: k).head?, isQuotedSpace e = false ∧ isBreak e = false)
    (h : ReadsAs k start w text) :
    ReadsAs k start (CodePoint.ofChar '\\' :: (newLine inner ++ w)) text := by
  intro c hc
  have hline : c.next.rest = newLine inner ++ (w ++ CodePoint.ofChar '"' :: k) := by
    rw [Cursor.rest_next hc]
    exact List.append_assoc ..
  have hnext := h (c.next.skip (inner + 1)) (by simpa using c.next.skip_append hline)
  have hall := Reads.escape hc (escapeSequence_break hi hline hhead) hnext
  rwa [List.length_cons, List.length_append, length_newLine, Nat.add_right_comm]

/-- Two backslashes in front of a line feed are one, and a blank. -/
lemma heldBreak (hi : 0 < inner)
    (hhead : ∀ e ∈ (w ++ CodePoint.ofChar '"' :: k).head?, isQuotedSpace e = false ∧ isBreak e = false)
    (h : ReadsAs k start w text) :
    ReadsAs k start (CodePoint.ofChar '\\' :: CodePoint.ofChar '\\' :: (newLine inner ++ w))
      (CodePoint.ofChar '\\' :: CodePoint.ofChar ' ' :: text) := by
  intro c hc
  have hescape : escapeSequence start c.next = .ok ([CodePoint.ofChar '\\'], c.next.skip 1) := by
    rw [escapeSequence, Cursor.now_of_cons _ (Cursor.rest_next hc)]
    rfl
  have hline : (c.skip 2).rest = CodePoint.ofChar '\n' :: (blanks inner ++ (w ++ CodePoint.ofChar '"' :: k)) := by
    rw [show c.skip 2 = c.next.next from rfl, Cursor.rest_next (Cursor.rest_next hc), newLine]
    simp
  have hnext := h ((c.skip 2).next.skip inner)
    (by simpa using (c.skip 2).next.skip_append (Cursor.rest_next hline))
  have hfold := Reads.fold (by decide) hline (.blanks hi (Cursor.rest_next hline) hhead) hnext
  have hall := Reads.escape hc hescape hfold
  have hlen : (CodePoint.ofChar '\\' :: CodePoint.ofChar '\\' :: (newLine inner ++ w)).length =
      1 + 1 + (inner + 1 + w.length) := by
    rw [List.length_cons, List.length_cons, List.length_append, length_newLine]
    omega
  rw [hlen]
  exact hall

end ReadsAs

/-- Between double quotation marks the text is read as it is heard. -/
theorem reads_double (hi : 0 < inner) (h : DoubleBody split inner begun held t w) (k : Text) (start : Mark) :
    ReadsAs k start ((if held then [CodePoint.ofChar '\\'] else []) ++ w)
      (heardFrom (split && width ≤ inner) begun held t) := by
  induction h with
  | @nil begun =>
    rw [heardFrom_nil]
    exact .nil
  | @plain begun held d t w hd hh h ih =>
    cases held with
    | false =>
      rw [heardFrom_plain hd]
      exact ih.plain hd (spaces_of_double h)
    | true =>
      obtain ⟨rfl, hlast⟩ := hh rfl
      rw [heardFrom_held fun hfar => hlast (of_decide_eq_true (Bool.and_eq_true_iff.mp hfar).2)]
      exact ih.guarded
  | @breakPlain held d t w hs hd ht hh h ih =>
    -- the broken line begins with the code point, or with a backslash and a blank
    have hline : ReadsAs k start (blankGuard (d :: t) ++ d :: w)
        (d :: heardFrom (split && width ≤ inner) true false t) := by
      by_cases hblank : d = CodePoint.ofChar ' '
      · subst hblank
        exact ih.guarded
      · have hhead : ¬(d :: t).head? = some (CodePoint.ofChar ' ') := fun h => hblank (Option.some.inj h)
        rw [blankGuard, if_neg hhead]
        exact ih.plain hd (spaces_of_double h)
    have hhead : ∀ e ∈ (blankGuard (d :: t) ++ d :: w ++ CodePoint.ofChar '"' :: k).head?,
        isQuotedSpace e = false ∧ isBreak e = false := by
      rw [List.append_assoc]
      exact head_of_plain hd
    have hwritten : escapedBreak inner (d :: t) ++ d :: w =
        CodePoint.ofChar '\\' :: (newLine inner ++ (blankGuard (d :: t) ++ d :: w)) := by
      simp [escapedBreak]
    rw [hwritten]
    cases held with
    | false =>
      rw [heardFrom_plain hd]
      exact hline.brokenLine hi hhead
    | true =>
      obtain ⟨rfl, hfar⟩ := hh rfl
      have hlong : (split && width ≤ inner) = true := Bool.and_eq_true_iff.mpr ⟨hs, decide_eq_true hfar⟩
      rw [hlong] at hline ⊢
      rw [heardFrom_held_twice ht]
      exact hline.heldBreak hi hhead
  | @special begun d t w hd hb h ih =>
    have hlast (hfar : (split && width ≤ inner) = true) : begun = true → t = [] := by
      rw [Bool.and_eq_true, decide_eq_true_eq] at hfar
      exact hb hfar.1 hfar.2
    rw [heardFrom_unguarded hd hlast]
    exact ih.escape
  | @breakSpecial d t w hs hd ht h ih =>
    rw [heardFrom_special hd, Bool.true_and]
    have hguard : blankGuard t =
        if decide (t.head? = some (CodePoint.ofChar ' ')) then [CodePoint.ofChar '\\'] else [] := by
      simp only [blankGuard, decide_eq_true_eq]
    have hwritten : escapedBreak inner t ++ w = CodePoint.ofChar '\\' :: (newLine inner ++ (blankGuard t ++ w)) := by
      simp [escapedBreak]
    rw [hwritten]
    rw [← hguard] at ih
    refine (ih.brokenLine hi ?_).escape
    rw [List.append_assoc]
    exact head_of_double h (by simp)

/-- A scalar between double quotation marks is read as it is heard. -/
theorem quoted_double (hi : 0 < inner) (h : DoubleBody split inner false false t w) {c : Cursor}
    (hc : c.rest = CodePoint.ofChar '"' :: (w ++ [CodePoint.ofChar '"']) ++ k) :
    ∃ m, quoted true c = .ok (⟨.scalar (if split ∧ width ≤ inner then heardDouble false t else t) false,
      c.mark, m⟩, c.skip (w.length + 2)) := by
  have hrest : c.next.rest = w ++ CodePoint.ofChar '"' :: k := by
    rw [Cursor.rest_next hc]
    simp
  refine ⟨_, quoted_eq hc ?_⟩
  have hheard : heardFrom (split && width ≤ inner) false false t =
      if split ∧ width ≤ inner then heardDouble false t else t := by
    simp [heardFrom]
  rw [← hheard]
  exact reads_double hi h k c.mark c.next hrest

end Double

end DocPath.Yaml.Token
