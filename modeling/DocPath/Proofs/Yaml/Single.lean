import DocPath.Proofs.Yaml.Quoted

/-! Scalars between single quotation marks as they are read. -/

namespace DocPath.Yaml.Token

section Single

open Layout

variable {split : Bool} {inner : Nat} {before : Option CodePoint} {t w : Text} {k : Text}

/-- A code point that is not written as an escape is a blank, a break, a mark or stands for itself. -/
lemma cases_of_not_special {d : CodePoint} (h : isSpecial d = false) (hb : isTextBreak d = false) :
    d = CodePoint.ofChar ' ' ∨ d = CodePoint.ofChar '\'' ∨ d = CodePoint.ofChar '"' ∨
      d = CodePoint.ofChar '\\' ∨ isQuotedPlain d = true ∧ isBreak d = false ∧ isQuotedSpace d = false := by
  by_cases h1 : d = CodePoint.ofChar ' '
  · exact .inl h1
  by_cases h2 : d = CodePoint.ofChar '\''
  · exact .inr (.inl h2)
  by_cases h3 : d = CodePoint.ofChar '"'
  · exact .inr (.inr (.inl h3))
  by_cases h4 : d = CodePoint.ofChar '\\'
  · exact .inr (.inr (.inr (.inl h4)))
  have hvals : d.val ≠ 0 ∧ d.val ≠ 9 ∧ d.val ≠ 13 := by
    simp only [isSpecial, Bool.not_eq_false', Bool.or_eq_true, Bool.and_eq_true, beq_iff_eq,
      decide_eq_true_eq] at h
    omega
  have hbreak : isBreak d = false := by
    rw [← Bool.not_eq_true, isTextBreak_iff] at hb
    rw [← Bool.not_eq_true, isBreak_iff]
    omega
  have hspace : isSpaceOrEnd d = false := by
    rw [← Bool.not_eq_true, isSpaceOrEnd_iff, hbreak]
    have h32 : d.val ≠ 32 := fun h => h1 (CodePoint.eq_ofChar_iff.mpr h)
    simp only [Bool.false_eq_true, false_or]
    omega
  refine .inr (.inr (.inr (.inr ⟨?_, hbreak, ?_⟩)))
  · simp [isQuotedPlain, hspace, CodePoint.is, h2, h3, h4]
  · rw [← Bool.not_eq_true, isQuotedSpace, Bool.or_eq_true, CodePoint.is_iff, CodePoint.is_iff]
    rintro (h | h)
    · exact h1 (CodePoint.eq_ofChar_iff.mpr h)
    · exact hvals.2.1 h

/-- What begins a line that is indented. -/
lemma head_of_single (h : SingleBody split inner before t w) (hs : t.any isSpecial = false)
    (hblank : t.head? ≠ some (CodePoint.ofChar ' ')) (hbreak : t.head?.any isTextBreak = false) :
    ∀ e ∈ (w ++ CodePoint.ofChar '\'' :: k).head?, isQuotedSpace e = false ∧ isBreak e = false := by
  cases h with
  | nil => simp; decide
  | @put _ c t w hb hq h =>
    intro e he
    obtain rfl := Option.some.inj he
    rw [List.any_cons, Bool.or_eq_false_iff] at hs
    rcases cases_of_not_special hs.1 hb with rfl | rfl | rfl | rfl | ⟨-, hn, hsp⟩
    · exact absurd rfl hblank
    · exact absurd rfl hq
    · decide
    · decide
    · exact ⟨hsp, hn⟩
  | quote h =>
    intro e he
    obtain rfl := Option.some.inj he
    decide
  | fold => exact absurd rfl hblank
  | breaks hb => simp [hb] at hbreak

/-- Behind a blank no break comes, whatever number of blanks follow. -/
lemma spaces_of_single (h : SingleBody split inner before t w) (hbefore : before = some (CodePoint.ofChar ' '))
    (hs : t.any isSpecial = false) (hb : hasBlankAtBreak (CodePoint.ofChar ' ' :: t) = false) :
    ∃ d r, (w ++ CodePoint.ofChar '\'' :: k).dropWhile isQuotedSpace = d :: r ∧ isBreak d = false := by
  induction h with
  | nil => exact ⟨_, _, rfl, by decide⟩
  | @put _ c t w hc hq h ih =>
    rw [List.any_cons, Bool.or_eq_false_iff] at hs
    rcases cases_of_not_special hs.1 hc with rfl | rfl | rfl | rfl | ⟨-, hn, hsp⟩
    · exact ih rfl hs.2 (hasBlankAtBreak_tail hb)
    · exact absurd rfl hq
    · exact ⟨_, _, rfl, by decide⟩
    · exact ⟨_, _, rfl, by decide⟩
    · exact ⟨c, _, List.dropWhile_cons_of_neg (by simp [hsp]), hn⟩
  | quote h => exact ⟨_, _, rfl, by decide⟩
  | fold _ hf =>
    obtain ⟨⟨b, hb, hne⟩, -⟩ := hf
    exact absurd (Option.some.inj (hb.symm.trans hbefore)) hne
  | @breaks _ c t w hc h =>
    rw [hasBlankAtBreak, Bool.or_eq_false_iff, Bool.or_eq_false_iff] at hb
    simp [hc] at hb

/-- The breaks in front of a text, and the text itself, behind a break between single quotation marks. -/
def ReadsBroken (start : Mark) (c : Cursor) (text : Text) (n : Nat) (further : Bool) : Prop :=
  ∃ breaks more m l, Passes start c breaks m ∧ Reads false start (c.skip m) more l ∧ m + l = n ∧
    breaks ++ more = text ∧ breaks.isEmpty = !further

lemma readsBroken_indent (hi : 0 < inner) (h : SingleBody split inner before t w)
    (hs : t.any isSpecial = false) (hblank : t.head? ≠ some (CodePoint.ofChar ' '))
    (hbreak : t.head?.any isTextBreak = false) {start : Mark} {c : Cursor}
    (hrest : c.rest = blanks inner ++ (w ++ CodePoint.ofChar '\'' :: k))
    (hread : ∀ c, c.rest = w ++ CodePoint.ofChar '\'' :: k →
      Reads false start c (heardSingle before t) w.length) :
    ReadsBroken start c (heardSingle before t) (inner + w.length) false := by
  refine ⟨[], _, inner, _, .blanks hi hrest (head_of_single h hs hblank hbreak),
    hread (c.skip inner) ?_, rfl, rfl, rfl⟩
  have := c.skip_append hrest
  rwa [length_blanks] at this

lemma singleBreak_twice (hbefore : before.any isTextBreak = false) :
    singleBreak inner before (CodePoint.ofChar '\n') t = CodePoint.ofChar '\n' :: CodePoint.ofChar '\n' ::
      (if t.head?.any isTextBreak then [] else blanks inner) := by
  simp only [singleBreak, hbefore, and_self, if_true, List.singleton_append]

lemma singleBreak_once {d : CodePoint} (h : before.any isTextBreak = true ∨ d ≠ CodePoint.ofChar '\n') :
    singleBreak inner before d t = d :: (if t.head?.any isTextBreak then [] else blanks inner) := by
  rcases h with h | h <;> simp [singleBreak, h]

lemma heardBreak_further {d : CodePoint} (hd : isTextBreak d = true)
    (hbefore : before.any isTextBreak = true) : heardBreak before d t = breakText d := by
  rw [heardBreak, breakText, hbefore]
  rcases isTextBreak_iff.mp hd with h | h | h | h <;> simp [h]
  exact CodePoint.eq_ofChar_iff.mpr h

/-- A break that is the first and is not written twice. -/
lemma heardBreak_first {d : CodePoint} (hd : isTextBreak d = true) (hn : d ≠ CodePoint.ofChar '\n')
    (hbefore : before.any isTextBreak = false) :
    heardBreak before d t = if breakText d ≠ [CodePoint.ofChar '\n'] then breakText d
      else if t.head?.any isTextBreak then [] else [CodePoint.ofChar ' '] := by
  rw [heardBreak, breakText, hbefore]
  rcases isTextBreak_iff.mp hd with h | h | h | h
  · exact absurd (CodePoint.eq_ofChar_iff.mpr h) hn
  · simp [h]
  · simp [h, hn]
  · simp [h, hn]

/-- What is written of a text is read as the text is heard, be it in a line or behind a break. -/
structure ReadsSingle (inner : Nat) (k : Text) (start : Mark) (before : Option CodePoint) (t w : Text) : Prop where
  inLine : before.any isTextBreak = false ∨ t.head?.any isTextBreak = false →
    ∀ c : Cursor, c.rest = w ++ CodePoint.ofChar '\'' :: k → Reads false start c (heardSingle before t) w.length
  broken : before.any isTextBreak = true → t.head? ≠ some (CodePoint.ofChar ' ') → ∀ c : Cursor,
    c.rest = (if t.head?.any isTextBreak then [] else blanks inner) ++ (w ++ CodePoint.ofChar '\'' :: k) →
    ReadsBroken start c (heardSingle before t) ((if t.head?.any isTextBreak then 0 else inner) + w.length)
      (t.head?.any isTextBreak)

namespace ReadsSingle

variable {start : Mark} {d : CodePoint}

lemma of_reads (hi : 0 < inner) (h : SingleBody split inner before t w) (hs : t.any isSpecial = false)
    (hbreak : t.head?.any isTextBreak = false)
    (hread : ∀ c : Cursor, c.rest = w ++ CodePoint.ofChar '\'' :: k → Reads false start c (heardSingle before t) w.length) :
    ReadsSingle inner k start before t w where
  inLine _ := hread
  broken _ hblank c hc := by
    rw [hbreak] at hc ⊢
    exact readsBroken_indent hi h hs hblank hbreak hc hread

/-- A code point that stands for itself. -/
lemma put (h : SingleBody split inner (some d) t w) (hd : isTextBreak d = false) (hq : d ≠ CodePoint.ofChar '\'')
    (hs : (d :: t).any isSpecial = false) (hb : hasBlankAtBreak (d :: t) = false)
    (ht : ReadsSingle inner k start (some d) t w) {c : Cursor} (hc : c.rest = d :: w ++ CodePoint.ofChar '\'' :: k) :
    Reads false start c (heardSingle before (d :: t)) (d :: w).length := by
  rw [List.any_cons, Bool.or_eq_false_iff] at hs
  have hnext := ht.inLine (.inl hd) c.next (Cursor.rest_next hc)
  have hnow := Cursor.now_of_cons _ hc
  rw [heardSingle, if_neg (by simp [hd])]
  rcases cases_of_not_special hs.1 hd with rfl | rfl | rfl | rfl | ⟨hplain, -, -⟩
  · obtain ⟨e, r, he, hbreak⟩ := spaces_of_single (k := k) h rfl hs.2 hb
    have hpass : (c.skipWhile isQuotedSpace).rest = e :: r := by
      rw [Cursor.skipWhile_rest, hc]
      exact he
    refine Reads.blank hc ?_ (by simp [hpass]) hnext
    rwa [Cursor.now_of_cons _ hpass]
  · exact absurd rfl hq
  · exact Reads.mark hc (.inl rfl) hnext
  · exact Reads.mark hc (.inr rfl) hnext
  · exact Reads.plain hc hplain hnext

/-- A blank that is written as a line feed. -/
lemma fold (hi : 0 < inner) (h : SingleBody split inner (some (CodePoint.ofChar ' ')) t w)
    (hf : ∃ d more, t = d :: more ∧ d ≠ CodePoint.ofChar ' ') (hs : t.any isSpecial = false)
    (hb : hasBlankAtBreak (CodePoint.ofChar ' ' :: t) = false)
    (ht : ReadsSingle inner k start (some (CodePoint.ofChar ' ')) t w) {c : Cursor}
    (hc : c.rest = newLine inner ++ w ++ CodePoint.ofChar '\'' :: k) :
    Reads false start c (heardSingle before (CodePoint.ofChar ' ' :: t)) (newLine inner ++ w).length := by
  obtain ⟨d, more, rfl, hd⟩ := hf
  have hbreak : (d :: more).head?.any isTextBreak = false := by
    rw [hasBlankAtBreak, Bool.or_eq_false_iff, Bool.or_eq_false_iff] at hb
    simpa using hb.1.1
  have hblank : (d :: more).head? ≠ some (CodePoint.ofChar ' ') := fun h => hd (Option.some.inj h)
  have hfirst : c.rest = CodePoint.ofChar '\n' :: (blanks inner ++ (w ++ CodePoint.ofChar '\'' :: k)) := by
    rw [hc, newLine]
    simp
  obtain ⟨breaks, more, m, l, hpass, hread, hlen, htext, hnone⟩ := readsBroken_indent hi h hs hblank
    hbreak (Cursor.rest_next hfirst) (ht.inLine (.inr hbreak))
  obtain rfl : breaks = [] := by simpa using hnone
  have hall := Reads.fold (by decide) hfirst hpass hread
  rw [heardSingle, if_neg (by decide), ← htext]
  rw [show (newLine inner ++ w).length = m + 1 + l by simp; omega]
  exact hall

/-- A line feed behind no other break is written twice. -/
lemma lineFeed (hbefore : before.any isTextBreak = false) (hblank : t.head? ≠ some (CodePoint.ofChar ' '))
    (ht : ReadsSingle inner k start (some (CodePoint.ofChar '\n')) t w) {c : Cursor}
    (hc : c.rest = singleBreak inner before (CodePoint.ofChar '\n') t ++ w ++ CodePoint.ofChar '\'' :: k) :
    Reads false start c (heardSingle before (CodePoint.ofChar '\n' :: t))
      (singleBreak inner before (CodePoint.ofChar '\n') t ++ w).length := by
  have hfirst : c.rest = CodePoint.ofChar '\n' :: CodePoint.ofChar '\n' ::
      ((if t.head?.any isTextBreak then [] else blanks inner) ++ (w ++ CodePoint.ofChar '\'' :: k)) := by
    rw [hc, singleBreak_twice hbefore]
    simp
  obtain ⟨breaks, more, m, l, hpass, hread, hlen, htext, -⟩ :=
    ht.broken rfl hblank c.next.next (Cursor.rest_next (Cursor.rest_next hfirst))
  have hall := Reads.fold (by decide) hfirst (hpass.further (by decide) (Cursor.rest_next hfirst)) hread
  have hsize : (singleBreak inner before (CodePoint.ofChar '\n') t ++ w).length = m + 1 + 1 + l := by
    rw [singleBreak_twice hbefore]
    split_ifs at hlen ⊢ <;> simp <;> omega
  rw [heardSingle, if_pos (by decide), hsize, heardBreak, if_neg (by decide), ← htext]
  exact hall

/-- Another break behind none is written once. -/
lemma otherBreak (hd : isTextBreak d = true) (hn : d ≠ CodePoint.ofChar '\n') (hbefore : before.any isTextBreak = false)
    (hblank : t.head? ≠ some (CodePoint.ofChar ' ')) (ht : ReadsSingle inner k start (some d) t w) {c : Cursor}
    (hc : c.rest = singleBreak inner before d t ++ w ++ CodePoint.ofChar '\'' :: k) :
    Reads false start c (heardSingle before (d :: t)) (singleBreak inner before d t ++ w).length := by
  have hfirst : c.rest = d :: ((if t.head?.any isTextBreak then [] else blanks inner) ++
      (w ++ CodePoint.ofChar '\'' :: k)) := by
    rw [hc, singleBreak_once (.inr hn)]
    simp
  obtain ⟨breaks, more, m, l, hpass, hread, hlen, htext, hfurther⟩ :=
    ht.broken hd hblank c.next (Cursor.rest_next hfirst)
  have hall := Reads.fold hd hfirst hpass hread
  have hsize : (singleBreak inner before d t ++ w).length = m + 1 + l := by
    rw [singleBreak_once (.inr hn)]
    split_ifs at hlen ⊢ <;> simp <;> omega
  rw [heardSingle, if_pos hd, hsize, heardBreak_first hd hn hbefore, ← htext, ← List.append_assoc]
  rw [hfurther] at hall
  cases hb : t.head?.any isTextBreak <;> rw [hb] at hall <;> exact hall

/-- A break behind another one is written once, too. -/
lemma furtherBreak (hd : isTextBreak d = true) (hbefore : before.any isTextBreak = true)
    (hblank : t.head? ≠ some (CodePoint.ofChar ' ')) (ht : ReadsSingle inner k start (some d) t w) {c : Cursor}
    (hc : c.rest = singleBreak inner before d t ++ w ++ CodePoint.ofChar '\'' :: k) :
    ReadsBroken start c (heardSingle before (d :: t)) (singleBreak inner before d t ++ w).length true := by
  have hfirst : c.rest = d :: ((if t.head?.any isTextBreak then [] else blanks inner) ++
      (w ++ CodePoint.ofChar '\'' :: k)) := by
    rw [hc, singleBreak_once (.inl hbefore)]
    simp
  obtain ⟨breaks, more, m, l, hpass, hread, hlen, htext, -⟩ := ht.broken hd hblank c.next (Cursor.rest_next hfirst)
  refine ⟨breakText d ++ breaks, more, m + 1, l, hpass.further hd hfirst, hread, ?_, ?_, ?_⟩
  · rw [singleBreak_once (.inl hbefore)]
    split_ifs at hlen ⊢ <;> simp <;> omega
  · rw [heardSingle, if_pos hd, heardBreak_further hd hbefore, ← htext, List.append_assoc]
  · have hne : breakText d ≠ [] := by
      unfold breakText
      split_ifs <;> simp
    simp [hne]

end ReadsSingle

/-- Between single quotation marks the text is read as it is heard. -/
theorem reads_single (hi : 0 < inner) (h : SingleBody split inner before t w)
    (hs : t.any isSpecial = false) (hb : hasBlankAtBreak t = false)
    (hk : k.head? ≠ some (CodePoint.ofChar '\'')) {start : Mark} : ReadsSingle inner k start before t w := by
  induction h with
  | nil => exact .of_reads hi (.nil : SingleBody split _ _ _ _) hs rfl fun c hc => Reads.close_single hc hk
  | @put before d t w hd hq h ih =>
    have htail := ih (Bool.or_eq_false_iff.mp hs).2 (hasBlankAtBreak_tail hb)
    exact .of_reads hi (.put hd hq h) hs hd fun c hc => htail.put h hd hq hs hb hc
  | @quote before t w h ih =>
    have htail := ih (Bool.or_eq_false_iff.mp hs).2 (hasBlankAtBreak_tail hb)
    exact .of_reads hi (.quote h) hs rfl fun c hc =>
      Reads.twice hc (htail.inLine (.inl rfl) (c.skip 2) (Cursor.rest_next (Cursor.rest_next hc)))
  | @fold before t w hsplit hf h ih =>
    have hspecial := (Bool.or_eq_false_iff.mp hs).2
    have htail := ih hspecial (hasBlankAtBreak_tail hb)
    exact ⟨fun _ c hc => htail.fold hi h hf.2 hspecial hb hc, fun _ hblank => absurd rfl hblank⟩
  | @breaks before d t w hd h ih =>
    have htail := ih (Bool.or_eq_false_iff.mp hs).2 (hasBlankAtBreak_tail hb)
    have hblank := head_ne_blank_of_break hb hd
    have hhead : (d :: t).head?.any isTextBreak = true := hd
    refine ⟨fun hbefore c hc => ?_, fun hbefore _ c hc => ?_⟩
    · have hfirst : before.any isTextBreak = false := hbefore.resolve_right fun h => by rw [hhead] at h; cases h
      by_cases hn : d = CodePoint.ofChar '\n'
      · subst hn
        exact htail.lineFeed hfirst hblank hc
      · exact htail.otherBreak hd hn hfirst hblank hc
    · rw [hhead] at hc ⊢
      rw [if_pos rfl, Nat.zero_add]
      exact htail.furtherBreak hd hbefore hblank hc

/-- A scalar between single quotation marks is read as it is heard. -/
theorem quoted_single (hi : 0 < inner) (h : SingleBody split inner none t w) (ht : allowsSingle t = true)
    (hk : k.head? ≠ some (CodePoint.ofChar '\'')) {c : Cursor}
    (hc : c.rest = CodePoint.ofChar '\'' :: (w ++ [CodePoint.ofChar '\'']) ++ k) :
    ∃ m, quoted false c =
      .ok (⟨.scalar (heardSingle none t) false, c.mark, m⟩, c.skip (w.length + 2)) := by
  have hrest : c.next.rest = w ++ CodePoint.ofChar '\'' :: k := by
    rw [Cursor.rest_next hc]
    simp
  rw [allowsSingle, Bool.not_eq_true', Bool.or_eq_false_iff] at ht
  exact ⟨_, quoted_eq hc ((reads_single hi h ht.1 ht.2 hk).inLine (.inl rfl) c.next hrest)⟩

end Single

end DocPath.Yaml.Token
