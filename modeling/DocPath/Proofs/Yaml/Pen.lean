import DocPath.Proofs.Yaml.Spelling

/-! What the writer of scalars writes, whatever the column it starts from. -/

namespace DocPath.Yaml.Layout

section Steps

variable (p : Pen)

lemma put_run (t : Text) : put t p = (t, { p with column := p.column + t.length }) := rfl

lemma breakLine_run (t : Text) :
    breakLine t p = (t, { p with column := 0, spaced := true, fresh := true }) := rfl

lemma settle_run : settle p = ([], { p with spaced := false, fresh := false }) := rfl

lemma sequentially_cons_run (w : Writing) (ws : List Writing) :
    sequentially (w :: ws) p =
      ((w p).1 ++ (sequentially ws (w p).2).1, (sequentially ws (w p).2).2) := rfl

lemma sequentially_nil_run : sequentially [] p = ([], p) := rfl

lemma pure_run (t : Text) : (pure t : Writing) p = (t, p) := rfl

lemma map_run (f : Text → Text) (w : Writing) : (f <$> w) p = (f (w p).1, (w p).2) := rfl

lemma sign_run (t : Text) (needsSpace spacedAfter keepsFresh : Bool) :
    sign t needsSpace spacedAfter keepsFresh p =
      let data := if p.spaced || !needsSpace then t else CodePoint.ofChar ' ' :: t
      (data, ⟨p.column + data.length, spacedAfter, p.fresh && keepsFresh, false⟩) := rfl

lemma bind_run (w : Writing) (f : Text → Writing) : (w >>= f) p = f (w p).1 (w p).2 := rfl

lemma get_bind_run (f : Pen → Writing) : ((get : StateM Pen Pen) >>= f) p = f p p := rfl

/-- On a line that is not fresh, or too long, going to a column begins a new line. -/
lemma goTo_run {column : Nat} (h : p.fresh = false ∨ column < p.column) :
    goTo column p =
      (newLine column, { p with column := column, spaced := true, fresh := true }) := by
  have hb : (!p.fresh || decide (column < p.column) || (p.column == column && !p.spaced)) = true := by
    rcases h with h | h <;> simp [h]
  rw [goTo, get_bind_run, hb, if_pos rfl, bind_run, breakLine_run]
  dsimp only
  rw [get_bind_run]
  dsimp only
  split_ifs with hc
  · rfl
  · obtain rfl : column = 0 := by omega
    rfl

lemma goTo_fresh {column : Nat} (h : p.fresh = true) (hc : p.column < column) :
    goTo column p =
      (blanks (column - p.column), { p with column := column, spaced := true }) := by
  have hb : (!p.fresh || decide (column < p.column) || (p.column == column && !p.spaced)) = false := by
    simp [h]
    omega
  rw [goTo, get_bind_run, hb, if_neg Bool.false_ne_true, bind_run, pure_run]
  dsimp only
  rw [get_bind_run, if_pos hc]
  rfl

end Steps

section Plain

lemma foldable_of_foldsAt {split : Bool} {before : Option CodePoint} {rest : Text} {column : Nat}
    (h : foldsAt split before rest column = true) : split = true ∧ width < column ∧ Foldable before rest := by
  simp only [foldsAt, Bool.and_eq_true, decide_eq_true_eq, bne_iff_ne, ne_eq] at h
  obtain ⟨⟨⟨⟨⟨hs, hw⟩, hsome⟩, hb⟩, hr⟩, hd⟩ := h
  obtain ⟨b, rfl⟩ := Option.isSome_iff_exists.mp hsome
  refine ⟨hs, hw, ⟨b, rfl, fun he => hb (by rw [he])⟩, ?_⟩
  cases rest with
  | nil => simp at hr
  | cons d more => exact ⟨d, more, rfl, fun he => hd (by rw [he]; rfl)⟩

lemma plainFrom_cons_run (split : Bool) (indent : Nat) (before : Option CodePoint) (c : CodePoint)
    (rest : Text) (p : Pen) : plainFrom split indent before (c :: rest) p =
      let r := if c = ' ' ∧ foldsAt split before rest p.column then
        sequentially [goTo indent, settle] p else put [c] p
      (r.1 ++ (plainFrom split indent (some c) rest r.2).1, (plainFrom split indent (some c) rest r.2).2) := by
  rw [plainFrom, get_bind_run]
  split_ifs <;> rfl

/-- The words of a plain scalar are written in one of its forms; the line does not become fresh. -/
theorem plainFrom_run {split : Bool} {indent : Nat} {before : Option CodePoint} (t : Text) (p : Pen)
    (hp : p.fresh = false) :
    PlainBody split indent before t (plainFrom split indent before t p).1 ∧
      (plainFrom split indent before t p).2.fresh = false ∧
      (plainFrom split indent before t p).2.openEnded = p.openEnded ∧
      (split = false → p.column ≤ (plainFrom split indent before t p).2.column) := by
  induction t generalizing before p with
  | nil => exact ⟨.nil, hp, rfl, fun _ => Nat.le_refl _⟩
  | cons c rest ih =>
    rw [plainFrom_cons_run]
    split_ifs with hc
    · obtain ⟨rfl, hf⟩ := hc
      obtain ⟨hs, -, hf⟩ := foldable_of_foldsAt hf
      simp only [sequentially_cons_run, goTo_run p (.inl hp), settle_run, sequentially_nil_run]
      obtain ⟨hb, hfresh, hopen, -⟩ := @ih (some (CodePoint.ofChar ' '))
        { p with column := indent, spaced := false, fresh := false } rfl
      refine ⟨?_, hfresh, hopen, fun h => ?_⟩
      · simpa using PlainBody.fold hs hf hb
      · rw [hs] at h
        cases h
    · obtain ⟨hb, hfresh, hopen, hcol⟩ := @ih (some c) { p with column := p.column + 1 } hp
      exact ⟨.put hb, hfresh, hopen, fun h => Nat.le_of_succ_le (hcol h)⟩

end Plain

section Single

section Steps

variable (split : Bool) (indent : Nat) (before : Option CodePoint) (rest : Text) (p : Pen)

/-- A text is written, and the rest of the scalar behind it. -/
def behind (c : CodePoint) (r : Text × Pen) : Text × Pen :=
  (r.1 ++ (singleFrom split indent (some c) rest r.2).1, (singleFrom split indent (some c) rest r.2).2)

lemma singleFrom_blank_run : singleFrom split indent before (CodePoint.ofChar ' ' :: rest) p =
    behind split indent rest ' ' (if foldsAt split before rest p.column then goTo indent p
      else put [CodePoint.ofChar ' '] p) := by
  rw [singleFrom, if_pos rfl, get_bind_run]
  split_ifs <;> rfl

lemma singleFrom_break_run {c : CodePoint} (hb : isTextBreak c = true) :
    singleFrom split indent before (c :: rest) p =
      behind split indent rest c (sequentially
        [if !(before.any isTextBreak) ∧ c = '\n' then breakLine "\n" else pure [], breakLine [c],
          if !(rest.head?.any isTextBreak) then goTo indent else pure []] p) := by
  have hc : c ≠ CodePoint.ofChar ' ' := by
    rintro rfl
    exact absurd hb (by decide)
  rw [singleFrom, if_neg hc, if_pos hb]
  rfl

lemma singleFrom_quote_run : singleFrom split indent before (CodePoint.ofChar '\'' :: rest) p =
    behind split indent rest '\'' (put "''" p) := by
  rw [singleFrom, if_neg (by decide), if_neg (by decide), if_pos rfl]
  rfl

lemma singleFrom_put_run {c : CodePoint} (hc : c ≠ ' ') (hb : isTextBreak c = false) (hq : c ≠ '\'') :
    singleFrom split indent before (c :: rest) p = behind split indent rest c (put [c] p) := by
  rw [singleFrom, if_neg hc, if_neg (by simp [hb]), if_neg hq]
  rfl

end Steps

/-- On a fresh line the next blank can be a break: the line is long enough, or no blank comes next. -/
def CanFold (indent : Nat) (t : Text) (p : Pen) : Prop :=
  p.fresh = true → indent < p.column ∨ t.head?.any isTextBreak = true ∨
    p.column = indent ∧ t.head? ≠ some (CodePoint.ofChar ' ')

lemma CanFold.long {indent : Nat} {c : CodePoint} {t : Text} {p : Pen} (h : CanFold indent (c :: t) p)
    (hf : p.fresh = true) (hb : isTextBreak c = false) : indent ≤ p.column := by
  rcases h hf with h | h | ⟨h, -⟩
  · exact Nat.le_of_lt h
  · simp [hb] at h
  · exact Nat.le_of_eq h.symm

lemma CanFold.blank {indent : Nat} {t : Text} {p : Pen} (h : CanFold indent (CodePoint.ofChar ' ' :: t) p) :
    p.fresh = false ∨ indent < p.column := by
  cases hf : p.fresh with
  | false => exact .inl rfl
  | true =>
    rcases h hf with h | h | ⟨-, h⟩
    · exact .inr h
    · exact absurd (show isTextBreak (CodePoint.ofChar ' ') = true from h) (by decide)
    · exact absurd rfl h

/-- Behind a break another break comes, or the line is indented. -/
lemma break_run (indent : Nat) (hi : 0 < indent) (before : Option CodePoint) (c : CodePoint) (rest : Text)
    (p : Pen) : ∃ q : Pen, (rest.head?.any isTextBreak = true ∨ q.column = indent) ∧
      sequentially
        [if !(before.any isTextBreak) ∧ c = '\n' then breakLine "\n" else pure [], breakLine [c],
          if !(rest.head?.any isTextBreak) then goTo indent else pure []] p =
        (singleBreak indent before c rest, q) := by
  have hfirst : ∃ q : Pen, (if !(before.any isTextBreak) ∧ c = '\n' then breakLine "\n" else pure []) p =
      (if before.any isTextBreak = false ∧ c = '\n' then [CodePoint.ofChar '\n'] else [], q) := by
    by_cases h : before.any isTextBreak = false ∧ c = CodePoint.ofChar '\n'
    · rw [if_pos (by simpa using h), if_pos h]
      exact ⟨_, breakLine_run p _⟩
    · rw [if_neg (by simpa using h), if_neg h]
      exact ⟨p, rfl⟩
  obtain ⟨q, hq⟩ := hfirst
  simp only [sequentially_cons_run, hq, breakLine_run, sequentially_nil_run, List.append_nil,
    singleBreak]
  cases hr : rest.head?.any isTextBreak with
  | true => exact ⟨_, .inl rfl, by simp [pure_run]; rfl⟩
  | false =>
    simp only [Bool.not_false, if_true, Bool.false_eq_true, if_false]
    rw [goTo_fresh ⟨0, true, true, q.openEnded⟩ rfl hi]
    exact ⟨⟨indent, true, true, q.openEnded⟩, .inr rfl, by simp⟩

/-- The text between single quotation marks is written in one of its forms. -/
theorem singleFrom_run {split : Bool} {indent : Nat} (hi : 0 < indent) {before : Option CodePoint}
    (t : Text) (p : Pen) (ht : hasBlankAtBreak t = false) (hs : split = false → isMultiline t = false)
    (hp : CanFold indent t p) :
    SingleBody split indent before t (singleFrom split indent before t p).1 ∧
      (split = false → p.column ≤ (singleFrom split indent before t p).2.column) := by
  induction t generalizing before p with
  | nil => exact ⟨.nil, fun _ => Nat.le_refl _⟩
  | cons c rest ih =>
    have hrest := hasBlankAtBreak_tail ht
    have hmulti : split = false → isTextBreak c = false ∧ isMultiline rest = false := fun h => by
      simpa only [isMultiline, List.any_cons, Bool.or_eq_false_iff] using hs h
    -- a code point that is written as it is, perhaps twice, makes the line longer
    have hput (n : Nat) (hn : 0 < n) (hb : isTextBreak c = false) :
        CanFold indent rest { p with column := p.column + n } := by
      intro hf
      have := hp.long hf hb
      exact .inl (by simp only; omega)
    by_cases hc : c = CodePoint.ofChar ' '
    · subst hc
      rw [singleFrom_blank_run]
      split_ifs with hfold
      · obtain ⟨hsplit, -, hf⟩ := foldable_of_foldsAt hfold
        rw [goTo_run p hp.blank]
        obtain ⟨-, d, more, rfl, hd⟩ := hf
        have hq : CanFold indent (d :: more) { p with column := indent, spaced := true, fresh := true } :=
          fun _ => .inr (.inr ⟨rfl, fun he => hd (Option.some.inj he)⟩)
        obtain ⟨hbody, -⟩ := ih _ hrest (fun h => (hmulti h).2) hq
        exact ⟨.fold hsplit (foldable_of_foldsAt hfold).2.2 hbody, fun h => absurd h (by simp [hsplit])⟩
      · rw [put_run]
        obtain ⟨hbody, hcol⟩ := ih _ hrest (fun h => (hmulti h).2) (hput 1 (by decide) (by decide))
        exact ⟨.put (by decide) (by decide) hbody, fun h => Nat.le_of_succ_le (hcol h)⟩
    by_cases hb : isTextBreak c = true
    · have hsplit : split = true := by
        by_contra hn
        rw [Bool.not_eq_true] at hn
        exact absurd hb (by simp [(hmulti hn).1])
      have hhead := head_ne_blank_of_break ht hb
      obtain ⟨q, hq, hrun⟩ := break_run indent hi before c rest p
      rw [singleFrom_break_run _ _ _ _ _ hb, hrun]
      have hfold : CanFold indent rest q := by
        intro _
        rcases hq with hq | hq
        · exact .inr (.inl hq)
        · exact .inr (.inr ⟨hq, hhead⟩)
      obtain ⟨hbody, -⟩ := ih q hrest (fun h => (hmulti h).2) hfold
      exact ⟨.breaks hb hbody, fun h => absurd h (by simp [hsplit])⟩
    rw [Bool.not_eq_true] at hb
    by_cases hq : c = CodePoint.ofChar '\''
    · subst hq
      rw [singleFrom_quote_run, put_run]
      obtain ⟨hbody, hcol⟩ := ih _ hrest (fun h => (hmulti h).2) (hput 2 (by decide) (by decide))
      exact ⟨.quote hbody, fun h => Nat.le_trans (Nat.le_add_right _ 2) (hcol h)⟩
    · rw [singleFrom_put_run _ _ _ _ _ hc hb hq, put_run]
      obtain ⟨hbody, hcol⟩ := ih _ hrest (fun h => (hmulti h).2) (hput 1 (by decide) hb)
      exact ⟨.put hb hq hbody, fun h => Nat.le_of_succ_le (hcol h)⟩

end Single

section Double

section Steps

variable (split : Bool) (indent : Nat) (inner word : Bool) (rest : Text) (p : Pen)

lemma doubleFrom_plain_run {c : CodePoint} (hc : isDoublePlain c = true) :
    doubleFrom split indent inner word (c :: rest) p =
      let q := if (split && inner && !rest.isEmpty && (c.is ' ' || !word)) = true ∧ width < p.column then
        doubleBreak indent (c :: rest) p else ([], p)
      let r := doubleFrom split indent true true rest { q.2 with column := q.2.column + 1 }
      (q.1 ++ c :: r.1, r.2) := by
  rw [doubleFrom, if_pos hc, get_bind_run]
  dsimp only
  split_ifs <;> simp [bind_run, put_run, Text.concat, pure_run, map_run]

lemma doubleFrom_special_run {c : CodePoint} (hc : isDoublePlain c = false) :
    doubleFrom split indent inner word (c :: rest) p =
      let p' := { p with column := p.column + (doubleEscape c).length }
      let q := if (split && inner && !rest.isEmpty) = true ∧ width + 1 < p'.column then
        doubleBreak indent rest p' else ([], p')
      let r := doubleFrom split indent true false rest q.2
      (doubleEscape c ++ (q.1 ++ r.1), r.2) := by
  rw [doubleFrom, if_neg (by simp [hc])]
  dsimp only
  rw [bind_run, put_run, get_bind_run]
  dsimp only
  split_ifs <;> simp [bind_run, Text.concat, pure_run, map_run]

lemma doubleBreak_run (next : Text) (hp : p.fresh = false) :
    doubleBreak indent next p = (escapedBreak indent next,
      { p with column := indent + (blankGuard next).length, spaced := false, fresh := false }) := by
  simp only [doubleBreak, sequentially_cons_run, put_run, settle_run, sequentially_nil_run]
  rw [goTo_run { p with column := p.column + (Text.ofString "\\").length } (.inl hp)]
  by_cases h : next.head? = some (CodePoint.ofChar ' ')
  · simp [h, put_run, escapedBreak, blankGuard, Text.ofString]
  · simp [h, escapedBreak, blankGuard, pure_run, Text.ofString]

end Steps

/-- What holds while a scalar is written between double quotation marks: inside a far indentation every line
is long, and behind a backslash in front of a blank the indentation has just been written. -/
structure DoublePen (split : Bool) (indent : Nat) (held : Bool) (t : Text) (p : Pen) : Prop where
  fresh : p.fresh = false
  long : split = true → width ≤ indent → width ≤ p.column
  held : held = true → p.column = indent + 1 ∧ t.head? = some (CodePoint.ofChar ' ')

lemma length_doubleEscape (c : CodePoint) : 2 ≤ (doubleEscape c).length := by
  unfold doubleEscape
  split
  · simp
  · split_ifs <;> simp

/-- The text between double quotation marks is written in one of its forms. -/
theorem doubleFrom_run {split : Bool} {indent : Nat} {inner word held : Bool} (t : Text) (p : Pen)
    (hheld : held = true → inner = true ∧ split = true) (hp : DoublePen split indent held t p) :
    DoubleBody split indent inner held t (doubleFrom split indent inner word t p).1 ∧
      (split = false → p.column ≤ (doubleFrom split indent inner word t p).2.column) := by
  induction t generalizing inner word held p with
  | nil =>
    cases held with
    | false => exact ⟨.nil, fun _ => Nat.le_refl _⟩
    | true => exact absurd (hp.held rfl).2 (by simp)
  | cons c rest ih =>
    have hblank : held = true → c = CodePoint.ofChar ' ' := fun h => Option.some.inj (hp.held h).2
    by_cases hc : isDoublePlain c = true
    · rw [doubleFrom_plain_run _ _ _ _ _ _ hc]
      split_ifs with hbreak
      · obtain ⟨hb, hw⟩ := hbreak
        simp only [Bool.and_eq_true] at hb
        obtain ⟨⟨⟨hs, rfl⟩, hrest⟩, -⟩ := hb
        have hne : rest ≠ [] := by
          rintro rfl
          simp at hrest
        rw [doubleBreak_run indent p (c :: rest) hp.fresh]
        obtain ⟨hbody, -⟩ := @ih true true false ⟨indent + (blankGuard (c :: rest)).length + 1, false,
          false, p.openEnded⟩ (by simp) ⟨rfl, fun _ h => by simp only; omega, by simp⟩
        refine ⟨.breakPlain hs hc hne (fun h => ⟨hblank h, ?_⟩) hbody, fun h => absurd h (by simp [hs])⟩
        have := (hp.held h).1
        omega
      · obtain ⟨hbody, hcol⟩ := @ih true true false { p with column := p.column + 1 } (by simp)
          ⟨hp.fresh, fun hs h => Nat.le_succ_of_le (hp.long hs h), by simp⟩
        refine ⟨.plain hc (fun h => ⟨hblank h, fun hw => ?_⟩) hbody, fun h => Nat.le_of_succ_le (hcol h)⟩
        obtain ⟨rfl, rfl⟩ := hheld h
        by_contra hne
        refine hbreak ⟨?_, ?_⟩
        · simp [hblank h, hne]
        · have := (hp.held h).1
          omega
    · rw [Bool.not_eq_true] at hc
      have hnot : held = false := by
        cases held with
        | false => rfl
        | true =>
          rw [hblank rfl] at hc
          exact absurd hc (by decide)
      subst hnot
      rw [doubleFrom_special_run _ _ _ _ _ _ hc]
      dsimp only
      have hlen := length_doubleEscape c
      split_ifs with hbreak
      · obtain ⟨hb, hw⟩ := hbreak
        simp only [Bool.and_eq_true] at hb
        obtain ⟨⟨hs, rfl⟩, hrest⟩ := hb
        have hne : rest ≠ [] := by
          rintro rfl
          simp at hrest
        rw [doubleBreak_run indent { p with column := p.column + (doubleEscape c).length } rest hp.fresh]
        obtain ⟨hbody, -⟩ := @ih true false (rest.head? = some (CodePoint.ofChar ' '))
          ⟨indent + (blankGuard rest).length, false, false, p.openEnded⟩ (fun _ => ⟨rfl, hs⟩)
          ⟨rfl, fun _ h => by simp only; omega, fun h => by
            rw [decide_eq_true_eq] at h
            exact ⟨by simp [blankGuard, h], h⟩⟩
        exact ⟨.breakSpecial hs hc hne hbody, fun h => absurd h (by simp [hs])⟩
      · obtain ⟨hbody, hcol⟩ := @ih true false false
          { p with column := p.column + (doubleEscape c).length } (by simp)
          ⟨hp.fresh, fun hs h => Nat.le_trans (hp.long hs h) (Nat.le_add_right _ _), by simp⟩
        refine ⟨.special hc (fun hs hw hi => ?_) hbody, fun h =>
          Nat.le_trans (Nat.le_add_right _ _) (hcol h)⟩
        by_contra hne
        refine hbreak ⟨?_, ?_⟩
        · simp [hs, hi, hne]
        · have := hp.long hs hw
          omega

end Double

/-- A scalar that needs no tag: a text, or one whose plain form tells its tag. -/
def IsOrdinary (tag t : Text) : Prop :=
  tag = Tag.string ∨ tag = Plain.tag t ∧ allowsPlain t = true ∧ t ≠ []

/-- What is written in front of a scalar. -/
def gap (p : Pen) : Text := if p.spaced then [] else [CodePoint.ofChar ' ']

section Styles

variable {simple : Bool} {tag t : Text}

lemma style_eq_plain (h : style simple tag t = .plain) :
    tag = Plain.tag t ∧ allowsPlain t = true ∧ (simple = true → t ≠ [] ∧ isMultiline t = false) := by
  unfold style at h
  split_ifs at h with hp
  obtain ⟨ht, hs, ha⟩ := hp
  refine ⟨ht, ha, fun hsimple => ?_⟩
  subst hsimple
  simpa [Bool.or_eq_true, not_or] using hs

lemma style_eq_single (h : style simple tag t = .single) :
    allowsSingle t = true ∧ (simple = true → isMultiline t = false) := by
  unfold style at h
  split_ifs at h with hp hs
  obtain ⟨ha, hm⟩ := hs
  refine ⟨ha, fun hsimple => ?_⟩
  subst hsimple
  simpa using hm

lemma ne_nil_of_plain (ho : IsOrdinary tag t) (h : style simple tag t = .plain) : t ≠ [] := by
  rcases ho with rfl | ⟨-, -, hne⟩
  · rintro rfl
    exact absurd (style_eq_plain h).1 (by decide)
  · exact hne

lemma style_of_ne_string (ho : IsOrdinary tag t) (h : tag ≠ Tag.string) : style simple tag t = .plain := by
  obtain ⟨htag, hplain, hne⟩ := ho.resolve_left h
  have hline : isMultiline t = false := by
    simp only [allowsPlain, Bool.not_eq_true', Bool.or_eq_false_iff] at hplain
    exact hplain.1.1.1.1
  rw [style, if_pos ⟨htag, by simp [hline, hne], hplain⟩]

lemma showsTag_eq_false (ho : IsOrdinary tag t) : showsTag tag t (style simple tag t) = false := by
  by_cases h : tag = Tag.string
  · subst h
    cases hs : style simple Tag.string t with
    | plain => simp [showsTag, (style_eq_plain hs).1.symm]
    | _ => simp [showsTag]
  · have hstyle : style simple tag t = .plain := style_of_ne_string ho h
    rw [hstyle]
    simp [showsTag, (style_eq_plain hstyle).1.symm]

end Styles

end DocPath.Yaml.Layout
