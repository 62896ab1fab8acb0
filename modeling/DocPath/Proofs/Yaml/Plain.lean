import DocPath.Proofs.Yaml.Quoted
import DocPath.Yaml.Token.Plain

/-! Plain scalars as they are read: word by word, with the blanks or the break between two words. -/

namespace DocPath.Yaml.Token

open Layout

/-- A word of a plain scalar. -/
structure IsWord (u : Text) : Prop where
  ne_nil : u ≠ []
  solid : ∀ d ∈ u, isSpaceOrEnd d = false ∧ d.val ≠ 0xFEFF
  head : u.head? ≠ some (CodePoint.ofChar '#')
  last : u.getLast? ≠ some (CodePoint.ofChar ':')

/-- What stands between two words, and how it is written. -/
inductive Gap (inner : Nat) : Text → Text → Prop
  | blanks {n : Nat} (hn : 0 < n) : Gap inner (blanks n) (blanks n)
  | fold : Gap inner (Yaml.blanks 1) (newLine inner)

/-- The words of a plain scalar, and how they are written. -/
inductive Words (inner : Nat) : Text → Text → Prop
  | last {u : Text} (hu : IsWord u) : Words inner u u
  | more {u g g' t w : Text} (hu : IsWord u) (hg : Gap inner g g') (h : Words inner t w) :
    Words inner (u ++ (g ++ t)) (u ++ (g' ++ w))

section Split

variable {split : Bool} {inner : Nat} {before : Option CodePoint} {t w : Text}

lemma blank_or_solid {d : CodePoint} (h : isSpecial d = false) (hb : isTextBreak d = false) :
    d = CodePoint.ofChar ' ' ∨ isSpaceOrEnd d = false ∧ d.val ≠ 0xFEFF := by
  by_cases h1 : d = CodePoint.ofChar ' '
  · exact .inl h1
  have h32 : d.val ≠ 32 := fun h => h1 (CodePoint.eq_ofChar_iff.mpr h)
  rw [← Bool.not_eq_true, isTextBreak_iff] at hb
  simp only [isSpecial, Bool.not_eq_false', Bool.or_eq_true, Bool.and_eq_true, beq_iff_eq,
    decide_eq_true_eq, bne_iff_ne, ne_eq] at h
  refine .inr ⟨?_, by omega⟩
  rw [← Bool.not_eq_true, isSpaceOrEnd_iff, isBreak_iff]
  omega

lemma hasInnerSign_cons {b d : CodePoint} (h : hasInnerSign b (d :: t) = false) :
    (d = CodePoint.ofChar ':' → isSpaceOrEnd (t.headD CodePoint.nul) = false) ∧
      (d = CodePoint.ofChar '#' → isSpaceOrEnd b = false) ∧ hasInnerSign d t = false := by
  rw [hasInnerSign, Bool.or_eq_false_iff, Bool.or_eq_false_iff] at h
  obtain ⟨⟨hcolon, hhash⟩, hrest⟩ := h
  refine ⟨?_, ?_, hrest⟩
  · rintro rfl
    simpa using hcolon
  · rintro rfl
    simpa using hhash

lemma head_behind_blank (h : hasInnerSign (CodePoint.ofChar ' ') t = false) :
    t.head? ≠ some (CodePoint.ofChar '#') := by
  cases t with
  | nil => simp
  | cons d t =>
    intro hd
    exact absurd ((hasInnerSign_cons h).2.1 (Option.some.inj hd)) (by decide)

/-- The rest of a word, perhaps none of it, and a gap if more words follow. -/
structure Begins (inner : Nat) (t w u g g' t' w' : Text) : Prop where
  text : t = u ++ (g ++ t')
  written : w = u ++ (g' ++ w')
  solid : ∀ d ∈ u, isSpaceOrEnd d = false ∧ d.val ≠ 0xFEFF
  last : u.getLast? ≠ some (CodePoint.ofChar ':')
  behind : g ++ t' = [] ∧ g' ++ w' = [] ∨ Gap inner g g' ∧ Words inner t' w'

lemma Gap.head {g g' : Text} (h : Gap inner g g') (more : Text) :
    (g ++ more).head? = some (CodePoint.ofChar ' ') := by
  cases h with
  | @blanks n hn =>
    obtain ⟨m, rfl⟩ : ∃ m, n = m + 1 := ⟨n - 1, by omega⟩
    rfl
  | fold => rfl

lemma Begins.words {u g g' t' w' : Text} (h : Begins inner t w u g g' t' w') (hne : u ≠ [])
    (hh : t.head? ≠ some (CodePoint.ofChar '#')) : Words inner t w := by
  have hu : IsWord u := by
    refine ⟨hne, h.solid, fun he => hh ?_, h.last⟩
    rw [h.text, List.head?_append, he]
    rfl
  rcases h.behind with ⟨hg, hg'⟩ | ⟨hg, hw⟩
  · rw [h.text, h.written, hg, hg', List.append_nil]
    exact .last hu
  · rw [h.text, h.written]
    exact .more hu hg hw

lemma Begins.ne_nil {u g g' t' w' : Text} (h : Begins inner t w u g g' t' w') (ht : t ≠ [])
    (hh : t.head? ≠ some (CodePoint.ofChar ' ')) : u ≠ [] := by
  rintro rfl
  rcases h.behind with ⟨hg, -⟩ | ⟨hg, -⟩
  · exact ht (h.text.trans hg)
  · have hhead := hg.head t'
    rw [← List.nil_append (g ++ t'), ← h.text] at hhead
    exact hh hhead

/-- A plain scalar falls into words. -/
lemma words_of_plain (h : PlainBody split inner before t w) (hs : t.any isSpecial = false)
    (hm : isMultiline t = false) (hl : t.getLast? ≠ some (CodePoint.ofChar ' '))
    (hi : hasInnerSign (before.getD (CodePoint.ofChar 'x')) t = false) :
    ∃ u g g' t' w', Begins inner t w u g g' t' w' ∧
      (u = [] → t ≠ [] → before = some (CodePoint.ofChar ' ') →
        ∃ n, 0 < n ∧ g = blanks n ∧ g' = blanks n) := by
  induction h with
  | nil => exact ⟨[], [], [], [], [], ⟨rfl, rfl, by simp, by simp, .inl ⟨rfl, rfl⟩⟩, fun _ h => absurd rfl h⟩
  | @put before d t w h ih =>
    rw [List.any_cons, Bool.or_eq_false_iff] at hs
    rw [isMultiline, List.any_cons, Bool.or_eq_false_iff] at hm
    obtain ⟨hcolon, -, hinner⟩ := hasInnerSign_cons hi
    have hlast : t.getLast? ≠ some (CodePoint.ofChar ' ') := by
      cases t with
      | nil => simp
      | cons e t => rwa [List.getLast?_cons_cons] at hl
    obtain ⟨u, g, g', t', w', hb, hsame⟩ := ih hs.2 hm.2 hlast hinner
    -- a blank comes in front of a gap or of a word, anything else goes on with a word
    rcases blank_or_solid hs.1 hm.1 with rfl | hsolid
    · by_cases hu : u = []
      · have ht : t ≠ [] := by
          rintro rfl
          simp at hl
        obtain ⟨n, hn, rfl, rfl⟩ := hsame hu ht rfl
        subst hu
        refine ⟨[], blanks (n + 1), blanks (n + 1), t', w', ⟨?_, ?_, by simp, by simp, ?_⟩, ?_⟩
        · rw [hb.text]
          rfl
        · rw [hb.written]
          rfl
        · rcases hb.behind with ⟨hg, -⟩ | ⟨-, hw⟩
          · exact absurd (hb.text.trans hg) ht
          · exact .inr ⟨.blanks (Nat.succ_pos n), hw⟩
        · exact fun _ _ _ => ⟨n + 1, Nat.succ_pos n, rfl, rfl⟩
      · have hw : Words inner t w := hb.words hu (head_behind_blank hinner)
        exact ⟨[], blanks 1, blanks 1, t, w, ⟨rfl, rfl, by simp, by simp, .inr ⟨.blanks Nat.one_pos, hw⟩⟩,
          fun _ _ _ => ⟨1, Nat.one_pos, rfl, rfl⟩⟩
    · refine ⟨d :: u, g, g', t', w', ⟨by rw [hb.text]; rfl, by rw [hb.written]; rfl, ?_, ?_, hb.behind⟩, nofun⟩
      · intro e he
        rcases List.mem_cons.mp he with rfl | he
        · exact hsolid
        · exact hb.solid e he
      · cases u with
        | nil =>
          intro h
          -- a colon at the end of a word would be a sign
          obtain rfl : d = CodePoint.ofChar ':' := by simpa using h
          have hend := hcolon rfl
          rcases hb.behind with ⟨hg, -⟩ | ⟨hg, -⟩
          · rw [hb.text, hg] at hend
            exact absurd hend (by decide)
          · have hhead : t.head? = some (CodePoint.ofChar ' ') := by
              rw [hb.text]
              exact hg.head t'
            rw [List.headD_eq_head?_getD, hhead] at hend
            exact absurd hend (by decide)
        | cons e u =>
          rw [List.getLast?_cons_cons]
          exact hb.last
  | @fold before t w hsplit hf h ih =>
    rw [List.any_cons, Bool.or_eq_false_iff] at hs
    rw [isMultiline, List.any_cons, Bool.or_eq_false_iff] at hm
    obtain ⟨⟨b, hbefore, hb⟩, d, more, rfl, hd⟩ := hf
    have hinner := (hasInnerSign_cons hi).2.2
    rw [List.getLast?_cons_cons] at hl
    obtain ⟨u, g, g', t', w', hbegin, -⟩ := ih hs.2 hm.2 hl hinner
    have hu := hbegin.ne_nil (by simp) fun h => hd (Option.some.inj h)
    have hw := hbegin.words hu (head_behind_blank hinner)
    refine ⟨[], blanks 1, newLine inner, _, w, ⟨rfl, rfl, by simp, by simp, .inr ⟨.fold, hw⟩⟩, ?_⟩
    exact fun _ _ h => absurd (Option.some.inj (hbefore.symm.trans h)) hb

/-- What is written for a text that can be a plain scalar is a row of words. -/
theorem words_of_allowsPlain (h : PlainBody split inner none t w) (ht : allowsPlain t = true) (hne : t ≠ []) :
    Words inner t w := by
  simp only [allowsPlain, Bool.not_eq_true', Bool.or_eq_false_iff, beq_eq_false_iff_ne, ne_eq] at ht
  obtain ⟨⟨⟨⟨hm, hs⟩, hfirst⟩, hl⟩, hsign⟩ := ht
  cases t with
  | nil => exact absurd rfl hne
  | cons d t =>
    simp only [hasSign, Bool.or_eq_false_iff] at hsign
    obtain ⟨⟨⟨-, hmark⟩, hcolon⟩, hrest⟩ := hsign
    have hinner : hasInnerSign (CodePoint.ofChar 'x') (d :: t) = false := by
      rw [hasInnerSign, hrest, Bool.or_false, Bool.or_eq_false_iff]
      constructor
      · cases hd : d.is ':' <;> simp_all
      · rw [show isSpaceOrEnd (CodePoint.ofChar 'x') = false by decide, Bool.and_false]
    obtain ⟨u, g, g', t', w', hbegin, -⟩ := words_of_plain h hs hm hl hinner
    refine hbegin.words (hbegin.ne_nil hne hfirst) fun hd => ?_
    obtain rfl : d = CodePoint.ofChar '#' := Option.some.inj hd
    exact absurd hmark (by decide)

end Split

/-- What may stand behind a word: a space, the end, or a colon that ends a key. -/
def EndsWord (k : Text) : Prop :=
  isSpaceOrEnd (k.headD CodePoint.nul) = true ∨
    ∃ r, k = CodePoint.ofChar ':' :: r ∧ isSpaceOrEnd (r.headD CodePoint.nul) = true

lemma wordLength_of_ends {k : Text} (hk : EndsWord k) : wordLength false k = 0 := by
  rcases hk with h | ⟨r, rfl, h⟩
  · cases k with
    | nil => rfl
    | cons d k =>
      rw [List.headD_cons] at h
      simp [wordLength, h]
  · have hcolon : isSpaceOrEnd (CodePoint.ofChar ':') = false := by decide
    have hends : endsKey false (r.headD CodePoint.nul) = true := by rw [endsKey, h, Bool.true_or]
    rw [wordLength, hcolon, if_neg (by simp [isFlowSign]), if_pos ⟨rfl, hends⟩]

/-- A word is passed whole. -/
lemma wordLength_append {u k : Text} (hs : ∀ d ∈ u, isSpaceOrEnd d = false)
    (hl : u.getLast? ≠ some (CodePoint.ofChar ':')) (hk : EndsWord k) :
    wordLength false (u ++ k) = u.length := by
  induction u with
  | nil => exact wordLength_of_ends hk
  | cons d u ih =>
    have hd := hs d (by simp)
    have hcolon : ¬(d = CodePoint.ofChar ':' ∧
        endsKey false ((u ++ k).headD CodePoint.nul) = true) := by
      rintro ⟨rfl, he⟩
      cases u with
      | nil => exact hl rfl
      | cons e u => simp [endsKey, hs e (by simp)] at he
    have hlast : u.getLast? ≠ some (CodePoint.ofChar ':') := by
      cases u with
      | nil => simp
      | cons e u => rwa [List.getLast?_cons_cons] at hl
    rw [List.cons_append, wordLength, hd, if_neg (by simp), if_neg hcolon,
      ih (fun e he => hs e (by simp [he])) hlast, List.length_cons]

lemma isSpaceOrEnd_newLine (n : Nat) (rest : Text) :
    isSpaceOrEnd ((newLine n ++ rest).headD CodePoint.nul) = true := by
  show isSpaceOrEnd (CodePoint.ofChar '\n') = true
  decide

lemma Gap.endsWord {inner : Nat} {g g' : Text} (h : Gap inner g g') (rest : Text) : EndsWord (g' ++ rest) := by
  left
  cases h with
  | @blanks n hn =>
    obtain ⟨l, rfl⟩ : ∃ l, n = l + 1 := ⟨n - 1, by omega⟩
    exact isSpaceOrEnd_iff.mpr (.inr (.inl rfl))
  | fold => exact isSpaceOrEnd_newLine _ _

section Spaces

variable {c : Cursor} {rest : Text}

lemma now_skip_append {s : Text} (hrest : c.rest = s ++ rest) :
    (c.skip s.length).now = rest.headD CodePoint.nul := by
  rw [Cursor.now, c.skip_append hrest]

lemma solid_iff {d : CodePoint} :
    isSpaceOrEnd d = false ↔ d.is '\t' = false ∧ d.is ' ' = false ∧ isBreak d = false ∧ d.val ≠ 0 := by
  rw [← Bool.not_eq_true, isSpaceOrEnd_iff, ← Bool.not_eq_true (d.is '\t'), ← Bool.not_eq_true (d.is ' '),
    CodePoint.is_iff, CodePoint.is_iff, ← Bool.not_eq_true (isBreak d)]
  simp only [not_or]
  rfl

/-- Neither a blank nor a break comes next; it may be the end. -/
def Settled (rest : Text) : Prop :=
  ∀ e ∈ rest.head?, e.is ' ' = false ∧ isBreak e = false

lemma Settled.not_break (h : Settled rest) : isBreak (rest.headD CodePoint.nul) = false := by
  cases rest with
  | nil => decide
  | cons e rest => exact (h e rfl).2

lemma Settled.not_blank (h : Settled rest) : rest.headD CodePoint.nul ≠ CodePoint.ofChar ' ' := by
  cases rest with
  | nil => decide
  | cons e rest =>
    rintro he
    have := (h e rfl).1
    rw [show e = CodePoint.ofChar ' ' from he] at this
    exact absurd this (by decide)

lemma plainSpaces_blanks {n : Nat} (hrest : c.rest = blanks n ++ rest) (hhead : Settled rest) :
    plainSpaces c = ((blanks n, false), c.skip n) := by
  have hnot : ∀ e ∈ rest.head?, e.is ' ' = false := fun e he => (hhead e he).1
  have hall : ∀ e ∈ blanks n, e.is ' ' = true := fun e he => by rw [eq_of_mem_blanks he]; decide
  have hpass := c.skipWhile_append hrest hall hnot
  have hnow := now_skip_append hrest
  rw [length_blanks] at hpass hnow
  rw [plainSpaces]
  simp only [hpass, hnow, hhead.not_break, Bool.false_eq_true, if_false, c.taken_append hrest hall hnot]

/-- The indentation behind a break. -/
lemma plainBreaks_blanks {n fuel : Nat} (hrest : c.rest = blanks n ++ rest) (hhead : Settled rest)
    (hf : n < fuel) : plainBreaks fuel c = (some [], c.skip n) := by
  induction n generalizing c fuel with
  | zero =>
    obtain ⟨fuel, rfl⟩ : ∃ m, fuel = m + 1 := ⟨fuel - 1, by omega⟩
    have hnow : c.now = rest.headD CodePoint.nul := by
      rw [Cursor.now, hrest]
      rfl
    rw [plainBreaks, hnow, if_neg hhead.not_blank, hhead.not_break, if_neg Bool.false_ne_true]
    rfl
  | succ n ih =>
    obtain ⟨fuel, rfl⟩ : ∃ m, fuel = m + 1 := ⟨fuel - 1, by omega⟩
    have hfirst : c.rest = CodePoint.ofChar ' ' :: (blanks n ++ rest) := hrest
    rw [plainBreaks, if_pos (Cursor.now_of_cons _ hfirst), ih (Cursor.rest_next hfirst) (by omega),
      Cursor.skip_succ]

/-- A new line ends a word; where the line is indented a blank takes its place. -/
lemma plainSpaces_newLine {n : Nat} (hrest : c.rest = newLine n ++ rest) (hhead : Settled rest) :
    ∃ between, plainSpaces c = ((between, true), c.skip (n + 1)) ∧
      (0 < n → between = [CodePoint.ofChar ' ']) := by
  have hfirst : c.rest = CodePoint.ofChar '\n' :: (blanks n ++ rest) := hrest
  have hself : (c.skipWhile fun d => d.is ' ') = c :=
    c.skipWhile_eq_self fun e he => by
      rw [hfirst] at he
      obtain rfl := Option.some.inj he
      decide
  have hbreak : isBreak (CodePoint.ofChar '\n') = true := by decide
  have hline := lineBreak_eq (c := c) (by decide) hfirst
  rw [plainSpaces]
  simp only [hself, Cursor.now_of_cons _ hfirst, hbreak, if_true, hline]
  have hnext := Cursor.rest_next hfirst
  cases hsep : c.next.atAnySeparator with
  | true =>
    have hn : n = 0 := by
      cases n with
      | zero => rfl
      | succ n =>
        have hnow : c.next.now = CodePoint.ofChar ' ' := Cursor.now_of_cons _ (hnext.trans rfl)
        rw [atAnySeparator_eq_false (by rw [hnow]; decide)] at hsep
        cases hsep
    subst hn
    exact ⟨[], rfl, fun h => absurd h (Nat.lt_irrefl 0)⟩
  | false =>
    have hlen : n < c.next.rest.length + 1 := by
      rw [hnext, List.length_append, length_blanks]
      omega
    rw [plainBreaks_blanks hnext hhead hlen]
    exact ⟨_, rfl, fun _ => rfl⟩

lemma plainSpaces_colon (hrest : c.rest = CodePoint.ofChar ':' :: rest) :
    plainSpaces c = (([], false), c) :=
  plainSpaces_blanks (n := 0) hrest (show Settled (CodePoint.ofChar ':' :: rest) from fun e he => by
    obtain rfl := Option.some.inj he
    decide)

end Spaces

section Read

variable {inner : Nat} {t w u k : Text} {c : Cursor}

lemma IsWord.isInline (h : IsWord u) : IsInline u := fun d hd =>
  ⟨(solid_iff.mp (h.solid d hd).1).2.2.1, (h.solid d hd).2⟩

lemma IsWord.head_solid (h : IsWord u) : ∃ d r, u = d :: r ∧ isSpaceOrEnd d = false ∧ d ≠ CodePoint.ofChar '#' := by
  obtain ⟨hne, hs, hh, -⟩ := h
  cases u with
  | nil => exact absurd rfl hne
  | cons d r => exact ⟨d, r, rfl, (hs d (by simp)).1, fun hd => hh (by rw [hd]; rfl)⟩

lemma Words.head_solid (h : Words inner t w) :
    ∃ d r, w = d :: r ∧ isSpaceOrEnd d = false ∧ d ≠ CodePoint.ofChar '#' := by
  cases h with
  | last hu => exact hu.head_solid
  | more hu =>
    obtain ⟨d, r, rfl, hd⟩ := hu.head_solid
    exact ⟨d, _, rfl, hd⟩

lemma column_skip_word (hu : IsWord u) {rest : Text} (hrest : c.rest = u ++ rest) :
    (c.skip u.length).column = c.column + u.length := by
  rw [Cursor.column, c.mark_skip_of_inline hrest hu.isInline]
  rfl

/-- A gap is read as the blanks that it is, and the next word does not stand further out. -/
lemma plainSpaces_gap {g g' rest : Text} {outer : Int} (hg : Gap inner g g') (hpos : 0 < inner)
    (hi : outer < inner) (hc : outer ≤ c.column) (hrest : c.rest = g' ++ rest) (hhead : Settled rest) :
    ∃ broke, plainSpaces c = ((g, broke), c.skip g'.length) ∧ outer < (c.skip g'.length).column := by
  cases hg with
  | @blanks n hn =>
    rw [length_blanks]
    refine ⟨false, plainSpaces_blanks hrest hhead, ?_⟩
    have hmark := c.mark_skip_of_inline hrest (isInline_blanks n)
    rw [length_blanks] at hmark
    rw [Cursor.column, hmark]
    simp only [Cursor.column] at hc ⊢
    omega
  | fold =>
    obtain ⟨between, hspaces, hblank⟩ := plainSpaces_newLine hrest hhead
    rw [length_newLine]
    refine ⟨true, ?_, ?_⟩
    · rw [hspaces, hblank hpos]
      rfl
    · rw [Cursor.column, c.mark_skip_newLine hrest]
      exact hi

/-- A word is read, and what stands behind it decides whether more words follow. -/
lemma plainWords_word {rest spaces between : Text} {indent : Int} {fuel : Nat} {part : PlainPart}
    {broke : Bool} {next : Cursor} (hu : IsWord u) (hrest : c.rest = u ++ rest) (hk : EndsWord rest)
    (hspaces : plainSpaces (c.skip u.length) = ((between, broke), next)) :
    plainWords false indent (fuel + 1) spaces part c =
      if between.isEmpty ∨ next.now = CodePoint.ofChar '#' ∨ (next.column : Int) < indent then
        (⟨part.text ++ (spaces ++ u), (c.skip u.length).mark, broke⟩, next)
      else plainWords false indent fuel between
        ⟨part.text ++ (spaces ++ u), (c.skip u.length).mark, broke⟩ next := by
  have hlen : wordLength false c.rest = u.length := by
    rw [hrest]
    exact wordLength_append (fun d hd => (hu.solid d hd).1) hu.last hk
  have htake : c.rest.take u.length = u := by rw [hrest, List.take_left]
  have hstart : ¬(c.now = CodePoint.ofChar '#' ∨ u.length = 0) := by
    obtain ⟨d, r, rfl, -, hd⟩ := hu.head_solid
    rw [Cursor.now_of_cons _ (hrest.trans (List.cons_append ..))]
    simp [hd]
  rw [plainWords, hlen, if_neg hstart]
  simp only [hspaces, htake, Text.concat, List.flatten_cons, List.flatten_nil, List.append_nil,
    Bool.not_false, true_and]

/-- The words of a plain scalar are read up to what ends the last one. -/
theorem plainWords_of_words (h : Words inner t w) {outer : Int} (hpos : 0 < inner) (hi : outer < inner)
    (hk : EndsWord k) {broke : Bool} {n : Nat}
    (hend : ∀ c : Cursor, c.rest = k → ∃ between, plainSpaces c = ((between, broke), c.skip n) ∧
      (between = [] ∨ ((c.skip n).column : Int) < outer + 1)) :
    ∀ (c : Cursor) (fuel : Nat) (spaces : Text) (part : PlainPart), c.rest = w ++ k → outer ≤ c.column →
      w.length < fuel → ∃ m, plainWords false (outer + 1) fuel spaces part c =
        (⟨part.text ++ (spaces ++ t), m, broke⟩, c.skip (w.length + n)) := by
  induction h with
  | @last u hu =>
    intro c fuel spaces part hrest hcol hf
    obtain ⟨fuel, rfl⟩ : ∃ m, fuel = m + 1 := ⟨fuel - 1, by omega⟩
    obtain ⟨between, hspaces, hstop⟩ := hend (c.skip u.length) (c.skip_append hrest)
    rw [Cursor.skip_skip] at hspaces hstop
    refine ⟨(c.skip u.length).mark, ?_⟩
    rw [plainWords_word hu hrest hk hspaces, if_pos]
    rcases hstop with rfl | hstop
    · exact .inl rfl
    · exact .inr (.inr hstop)
  | @more u g g' t w hu hg h ih =>
    intro c fuel spaces part hrest hcol hf
    obtain ⟨fuel, rfl⟩ : ∃ m, fuel = m + 1 := ⟨fuel - 1, by omega⟩
    obtain ⟨d, r, hw, hd, hhash⟩ := h.head_solid
    have hsettled : Settled (w ++ k) := by
      rw [hw]
      intro e he
      obtain rfl := Option.some.inj he
      exact ⟨(solid_iff.mp hd).2.1, (solid_iff.mp hd).2.2.1⟩
    have hfirst : c.rest = u ++ (g' ++ (w ++ k)) := by simpa using hrest
    have hword := c.skip_append hfirst
    have hcol' : outer ≤ (c.skip u.length).column := by
      rw [column_skip_word hu hfirst]
      omega
    obtain ⟨b, hspaces, hnext⟩ := plainSpaces_gap hg hpos hi hcol' hword hsettled
    have hrest' := (c.skip u.length).skip_append hword
    rw [Cursor.skip_skip] at hspaces hnext hrest'
    have hends := hg.endsWord (w ++ k)
    -- the gap is not the end: there are blanks in it, and the next word is no comment and far enough in
    have hgo : ¬(g.isEmpty ∨ (c.skip (u.length + g'.length)).now = CodePoint.ofChar '#' ∨
        ((c.skip (u.length + g'.length)).column : Int) < outer + 1) := by
      rintro (h | h | h)
      · have hhead := hg.head []
        rw [List.isEmpty_iff.mp h] at hhead
        cases hhead
      · rw [Cursor.now_of_cons _ (hrest'.trans (by rw [hw]; rfl))] at h
        exact hhash h
      · omega
    have hlen : 0 < u.length := List.length_pos_of_ne_nil hu.ne_nil
    rw [List.length_append, List.length_append] at hf ⊢
    obtain ⟨m, hall⟩ := ih (c.skip (u.length + g'.length)) fuel g
      ⟨part.text ++ (spaces ++ u), (c.skip u.length).mark, b⟩ hrest' (by omega) (by omega)
    refine ⟨m, ?_⟩
    rw [plainWords_word hu hfirst hends hspaces, if_neg hgo, hall, Cursor.skip_skip]
    simp [Nat.add_assoc]

/-- A plain scalar in front of a new line that is not indented, which is passed. -/
theorem plain_newLine (h : Words inner t w) {outer : Int} (hpos : 0 < inner) (hi : outer < inner)
    {j : Nat} {rest : Text} (hj : (j : Int) ≤ outer) (hhead : Settled rest)
    (hrest : c.rest = w ++ (newLine j ++ rest)) (hcol : outer ≤ c.column) :
    ∃ m, plain false outer c = ((⟨.scalar t true, c.mark, m⟩, true), c.skip (w.length + (j + 1))) := by
  have hends : EndsWord (newLine j ++ rest) := .inl (isSpaceOrEnd_newLine j rest)
  have hend (c : Cursor) (hc : c.rest = newLine j ++ rest) : ∃ between,
      plainSpaces c = ((between, true), c.skip (j + 1)) ∧
        (between = [] ∨ ((c.skip (j + 1)).column : Int) < outer + 1) := by
    obtain ⟨between, hspaces, -⟩ := plainSpaces_newLine hc hhead
    refine ⟨between, hspaces, .inr ?_⟩
    rw [Cursor.column, c.mark_skip_newLine hc]
    exact Int.lt_add_one_of_le hj
  obtain ⟨m, hwords⟩ := plainWords_of_words h hpos hi hends hend c (c.rest.length + 1) []
    ⟨[], c.mark, false⟩ hrest hcol (by rw [hrest, List.length_append]; omega)
  refine ⟨m, ?_⟩
  rw [plain, hwords]
  rfl

/-- A plain scalar that is a key, in front of its colon. -/
theorem plain_key (h : Words inner t w) {outer : Int} (hpos : 0 < inner) (hi : outer < inner)
    {rest : Text} (hspace : isSpaceOrEnd (rest.headD CodePoint.nul) = true)
    (hrest : c.rest = w ++ CodePoint.ofChar ':' :: rest) (hcol : outer ≤ c.column) :
    ∃ m, plain false outer c = ((⟨.scalar t true, c.mark, m⟩, false), c.skip w.length) := by
  have hend (c : Cursor) (hc : c.rest = CodePoint.ofChar ':' :: rest) : ∃ between,
      plainSpaces c = ((between, false), c.skip 0) ∧
        (between = [] ∨ ((c.skip 0).column : Int) < outer + 1) :=
    ⟨[], plainSpaces_colon hc, .inl rfl⟩
  obtain ⟨m, hwords⟩ := plainWords_of_words h hpos hi (.inr ⟨rest, rfl, hspace⟩) hend c (c.rest.length + 1)
    [] ⟨[], c.mark, false⟩ hrest hcol (by rw [hrest, List.length_append]; omega)
  refine ⟨m, ?_⟩
  rw [plain, hwords]
  rfl

end Read

end DocPath.Yaml.Token
