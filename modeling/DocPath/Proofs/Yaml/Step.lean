import DocPath.Proofs.Yaml.Scan
import DocPath.Proofs.Yaml.Single
import DocPath.Proofs.Yaml.Double

/-! The tokens of block collections, one by one. -/

namespace DocPath.Yaml.Scan

section Dispatch

variable {s : Scan}

/-- No separator of documents begins with a code point that is followed by a space. -/
lemma atSeparator_of_space {c : Cursor} {sign : CodePoint} (h : isSpaceOrEnd (c.peek 1) = true)
    (hs : isSpaceOrEnd sign = false) : c.atSeparator sign = false := by
  have hne : (c.peek 1 == sign) = false := by
    rw [beq_eq_false_iff_ne]
    rintro rfl
    rw [h] at hs
    cases hs
  rw [Cursor.atSeparator, hne]
  simp

lemma atSeparator_of_now {c : Cursor} {sign : CodePoint} (h : c.now ≠ sign) : c.atSeparator sign = false := by
  have hne : (c.now == sign) = false := beq_eq_false_iff_ne.mpr h
  rw [Cursor.atSeparator, hne]
  simp

lemma token_dash (hnow : s.cursor.now = '-') (hspace : isSpaceOrEnd (s.cursor.peek 1) = true) :
    s.token = s.blockEntry := by
  have h1 : s.cursor.atSeparator '-' = false := atSeparator_of_space hspace (by decide)
  have h2 : s.cursor.atSeparator '.' = false := atSeparator_of_now (by rw [hnow]; decide)
  rw [token]
  simp only [hnow, h1, h2, hspace, CodePoint.ofChar_inj, Char.reduceEq, false_and, and_false, Bool.false_eq_true, if_false,
    and_self, if_true]

lemma token_question (hnow : s.cursor.now = '?') (hspace : isSpaceOrEnd (s.cursor.peek 1) = true) :
    s.token = s.key := by
  have h1 : s.cursor.atSeparator '-' = false := atSeparator_of_now (by rw [hnow]; decide)
  have h2 : s.cursor.atSeparator '.' = false := atSeparator_of_now (by rw [hnow]; decide)
  rw [token]
  simp only [hnow, h1, h2, hspace, CodePoint.ofChar_inj, Char.reduceEq, false_and, and_false, Bool.false_eq_true, if_false,
    and_self, if_true, or_true]

lemma token_colon (hnow : s.cursor.now = ':') (hspace : isSpaceOrEnd (s.cursor.peek 1) = true) :
    s.token = s.value := by
  have h1 : s.cursor.atSeparator '-' = false := atSeparator_of_now (by rw [hnow]; decide)
  have h2 : s.cursor.atSeparator '.' = false := atSeparator_of_now (by rw [hnow]; decide)
  rw [token]
  simp only [hnow, h1, h2, hspace, CodePoint.ofChar_inj, Char.reduceEq, false_and, and_false, Bool.false_eq_true, if_false,
    and_self, if_true, or_true]

/-- A bracket or a quotation mark begins a token whatever follows it. -/
lemma token_sign {d : Char} (hnow : s.cursor.now = d) (hd : d ∈ ['[', ']', '\x7b', '\x7d', '\'', '"']) :
    s.token = if d = '[' then s.openFlow .flowSequenceStart
      else if d = '\x7b' then s.openFlow .flowMappingStart
      else if d = ']' then s.closeFlow .flowSequenceEnd
      else if d = '\x7d' then s.closeFlow .flowMappingEnd
      else s.property (Token.quoted (d = '"')) := by
  have h1 : s.cursor.atSeparator '-' = false := atSeparator_of_now (by
    rw [hnow, Ne, CodePoint.ofChar_inj]
    rintro rfl
    exact absurd hd (by decide))
  have h2 : s.cursor.atSeparator '.' = false := atSeparator_of_now (by
    rw [hnow, Ne, CodePoint.ofChar_inj]
    rintro rfl
    exact absurd hd (by decide))
  simp only [List.mem_cons, List.not_mem_nil, or_false] at hd
  rw [token]
  rcases hd with rfl | rfl | rfl | rfl | rfl | rfl
  all_goals
    simp only [hnow, h1, h2, CodePoint.ofChar_inj, Char.reduceEq, false_and, and_false,
      Bool.false_eq_true, if_false, if_true, or_self, decide_false, decide_true]

/-- How the text of a plain scalar begins, apart from the signs of block collections. -/
lemma token_plain {d : CodePoint} (hflow : s.flow = 0) (hnow : s.cursor.now = d)
    (hd : isSpaceOrEnd d = false) (hmark : Text.contains "#,[]\x7b\x7d&*!|>'\"%@\x60" [d] = false)
    (hblock : d = '-' ∨ d = '?' ∨ d = ':' → isSpaceOrEnd (s.cursor.peek 1) = false)
    (h1 : s.cursor.atSeparator '-' = false) (h2 : s.cursor.atSeparator '.' = false) :
    s.token = s.plain := by
  rw [← Bool.not_eq_true, Text.contains_singleton] at hmark
  have hne (x : Char) (hx : CodePoint.ofChar x ∈ Text.ofString "#,[]\x7b\x7d&*!|>'\"%@\x60") :
      d ≠ CodePoint.ofChar x := fun h => hmark (h ▸ hx)
  have hspace (x : CodePoint) (hx : x = '-' ∨ x = '?' ∨ x = ':') :
      ¬(d = x ∧ isSpaceOrEnd (s.cursor.peek 1) = true) := by
    rintro ⟨rfl, h⟩
    rw [hblock hx] at h
    cases h
  have hstarts : s.startsPlain = true := by
    rw [startsPlain]
    simp only [hnow, hflow, hd, Bool.not_false, Bool.true_and, beq_self_eq_true, Bool.or_eq_true,
      Bool.and_eq_true, Bool.not_eq_true', CodePoint.is, beq_iff_eq]
    by_cases hx : d = '-' ∨ d = '?' ∨ d = ':'
    · exact .inr ⟨hblock hx, hx⟩
    · left
      rw [← Bool.not_eq_true, Text.contains_singleton]
      intro h
      obtain ⟨x, hmem, rfl⟩ := List.mem_map.mp h
      have hlist : ("-?:,[]\x7b\x7d#&*!|>'\"%@\x60" : String).toList =
          '-' :: '?' :: ':' :: [',', '[', ']', '\x7b', '\x7d', '#', '&', '*', '!', '|', '>', '\'', '"', '%',
            '@', '\x60'] := rfl
      have hall : ([',', '[', ']', '\x7b', '\x7d', '#', '&', '*', '!', '|', '>', '\'', '"', '%', '@', '\x60'].all
          fun x => CodePoint.ofChar x ∈ Text.ofString "#,[]\x7b\x7d&*!|>'\"%@\x60") = true := by decide
      rw [hlist, List.mem_cons, List.mem_cons, List.mem_cons] at hmem
      rcases hmem with rfl | rfl | rfl | hmem
      · exact hx (.inl rfl)
      · exact hx (.inr (.inl rfl))
      · exact hx (.inr (.inr rfl))
      · exact hmark (of_decide_eq_true (List.all_eq_true.mp hall x hmem))
  rw [token]
  simp only [hnow, h1, h2, hstarts, hne '%' (by decide), hne '[' (by decide), hne '\x7b' (by decide),
    hne ']' (by decide), hne '\x7d' (by decide), hne ',' (by decide), hne '*' (by decide),
    hne '&' (by decide), hne '!' (by decide), hne '|' (by decide), hne '>' (by decide),
    hne '\'' (by decide), hne '"' (by decide), false_and, if_false, or_self, if_true, hflow, ne_eq,
    not_true_eq_false, false_or, hspace '-' (.inl rfl), hspace '?' (.inr (.inl rfl)),
    hspace ':' (.inr (.inr rfl)), and_false, Bool.false_eq_true]

end Dispatch

section Signs

variable {s : Scan} {v : View} {r : Text}

lemma Shows.requireKeyAllowed (hs : s.Shows v) (hka : v.keyAllowed = true) (problem : Problem) :
    s.requireKeyAllowed problem = .ok () := by
  rw [Scan.requireKeyAllowed, if_neg]
  rw [hs.keyAllowed, hka]
  simp

lemma Shows.openBlock (hs : s.Shows v) (kind : TokenKind) : (s.openBlock kind).Shows (v.opened kind) := by
  have hindent : v.indents.headD (-1) = s.indent := by rw [← hs.indents, List.headD_cons]
  have hcolumn : s.column = (v.column : Int) := by rw [Scan.column, hs.column]
  rw [Scan.openBlock, indentTo, hcolumn]
  split_ifs with h
  · rw [View.opened_of_lt (by rwa [hindent])]
    refine ⟨hs.rest, hs.column, hs.flow, hs.keyAllowed, ?_, hs.keys, ?_, ?_⟩
    · show (v.column : Int) :: s.indent :: s.outer = (v.column : Int) :: v.indents
      rw [hs.indents]
    · show s.count + 1 = (_ :: s.tokens).length
      rw [hs.count, List.length_cons]
    · show (_ :: s.tokens).reverse.map _ = v.kinds ++ [kind]
      rw [List.reverse_cons, List.map_append, hs.kinds]
      rfl
  · rw [View.opened_eq_self (by rwa [hindent])]
    exact hs

/-- A sign is passed, behind which a key may begin. -/
lemma Shows.pushSign (hs : s.Shows v) {d : CodePoint} (hrest : v.rest = d :: r) (hd : isBreak d = false)
    (hf : d.val ≠ 0xFEFF) (ka : Bool) (kind : TokenKind) :
    ({ s with keyAllowed := ka }.pushSigns kind 1).Shows
      ⟨r, v.column + 1, ka, v.indents, v.kinds ++ [kind]⟩ := by
  have hnext := s.cursor.next_of_cons (hs.rest.trans hrest)
  refine ⟨?_, ?_, hs.flow, rfl, hs.indents, hs.keys, ?_, ?_⟩
  · exact Cursor.rest_next (hs.rest.trans hrest)
  · show s.cursor.next.mark.column = v.column + 1
    rw [hnext, Cursor.mark_next_of_inline hd hf, ← hs.column]
    rfl
  · show s.count + 1 = (_ :: s.tokens).length
    rw [hs.count, List.length_cons]
  · show (_ :: s.tokens).reverse.map _ = v.kinds ++ [kind]
    rw [List.reverse_cons, List.map_append, hs.kinds]
    rfl

lemma Shows.dropKey (hs : s.Shows v) : s.dropKey = .ok s := giveUp_of_keys_eq_nil hs.keys

lemma Shows.dropStale (hs : s.Shows v) : s.dropStale = .ok s := giveUp_of_keys_eq_nil hs.keys

lemma Shows.blockEntry (hs : s.Shows v) (hka : v.keyAllowed = true) :
    s.blockEntry = .ok ({ s.openBlock .blockSequenceStart with keyAllowed := true }.pushSigns .blockEntry 1) := by
  rw [Scan.blockEntry, hs.requireKeyAllowed hka, if_pos hs.flow]
  simp only [bind, Except.bind, (hs.openBlock _).dropKey]
  rfl

lemma Shows.key (hs : s.Shows v) (hka : v.keyAllowed = true) :
    s.key = .ok ({ s.openBlock .blockMappingStart with keyAllowed := true }.pushSigns .key 1) := by
  rw [Scan.key, hs.requireKeyAllowed hka, if_pos hs.flow]
  simp only [bind, Except.bind, (hs.openBlock _).dropKey, (hs.openBlock _).flow]
  rfl

lemma Shows.value (hs : s.Shows v) (hka : v.keyAllowed = true) :
    s.value = .ok ({ s.openBlock .blockMappingStart with keyAllowed := true }.pushSigns .value 1) := by
  have hnone : s.keys.lookup s.flow = none := by rw [hs.keys]; rfl
  rw [Scan.value, hnone]
  simp only [hs.requireKeyAllowed hka, if_pos hs.flow, bind, Except.bind, (hs.openBlock _).dropKey,
    (hs.openBlock _).flow]
  rfl

/-- A sign of block collections in front of a space opens a collection if none is open in its column. -/
theorem Here.sign (h : Here s v) {d : CodePoint} {start kind : TokenKind} (hrest : v.rest = d :: r)
    (hd : isBreak d = false) (hf : d.val ≠ 0xFEFF)
    (htoken : ∀ t : Scan, t.Shows v →
      t.token = .ok ({ t.openBlock start with keyAllowed := true }.pushSigns kind 1)) :
    ∃ u, Leads s u ∧ u.Shows (v.behindSign start kind r) := by
  refine h.step (by simp [hrest]) fun t ht => ?_
  have hshows := (ht.openBlock start).pushSign (by simpa using hrest) hd hf true kind
  rw [View.opened_column] at hshows
  refine ⟨_, ?_, ?_, hshows⟩
  · rw [htoken t ht]
    exact hshows.dropStale
  · rw [hshows.rest, hrest]
    exact Nat.lt_succ_self _

lemma Shows.now (hs : s.Shows v) {d : CodePoint} (hrest : v.rest = d :: r) : s.cursor.now = d :=
  s.cursor.now_of_cons (hs.rest.trans hrest)

lemma Shows.peek_one (hs : s.Shows v) {d : CodePoint} (hrest : v.rest = d :: r) :
    s.cursor.peek 1 = r.headD CodePoint.nul := by
  rw [Cursor.peek, hs.rest, hrest]
  cases r <;> rfl

theorem Here.dash (h : Here s v) (hrest : v.rest = CodePoint.ofChar '-' :: r)
    (hspace : isSpaceOrEnd (r.headD CodePoint.nul) = true) (hka : v.keyAllowed = true) :
    ∃ u, Leads s u ∧ u.Shows (v.behindSign .blockSequenceStart .blockEntry r) :=
  h.sign hrest (by decide) (by decide) fun t ht => by
    rw [token_dash (ht.now hrest) (by rwa [ht.peek_one hrest])]
    exact ht.blockEntry hka

theorem Here.question (h : Here s v) (hrest : v.rest = CodePoint.ofChar '?' :: r)
    (hspace : isSpaceOrEnd (r.headD CodePoint.nul) = true) (hka : v.keyAllowed = true) :
    ∃ u, Leads s u ∧ u.Shows (v.behindSign .blockMappingStart .key r) :=
  h.sign hrest (by decide) (by decide) fun t ht => by
    rw [token_question (ht.now hrest) (by rwa [ht.peek_one hrest])]
    exact ht.key hka

/-- A colon on a line of its own, behind a key that has its sign. -/
theorem Here.colon (h : Here s v) (hrest : v.rest = CodePoint.ofChar ':' :: r)
    (hspace : isSpaceOrEnd (r.headD CodePoint.nul) = true) (hka : v.keyAllowed = true) :
    ∃ u, Leads s u ∧ u.Shows (v.behindSign .blockMappingStart .value r) :=
  h.sign hrest (by decide) (by decide) fun t ht => by
    rw [token_colon (ht.now hrest) (by rwa [ht.peek_one hrest])]
    exact ht.value hka

end Signs

section Scalars

open Layout

variable {s : Scan} {v : View} {t w k : Text}

lemma first_word {inner : Nat} (h : Token.Words inner t w) (hk : Token.EndsWord k) :
    ∃ u t' w', t = u ++ t' ∧ w = u ++ w' ∧ Token.IsWord u ∧
      isSpaceOrEnd (t'.headD CodePoint.nul) = true ∧ Token.EndsWord (w' ++ k) := by
  cases h with
  | last hu => exact ⟨_, [], [], by simp, by simp, hu, by decide, hk⟩
  | @more u g g' t w hu hg h =>
    refine ⟨u, g ++ t, g' ++ w, rfl, rfl, hu, ?_, ?_⟩
    · rw [List.headD_eq_head?_getD, hg.head]
      decide
    · rw [List.append_assoc]
      exact hg.endsWord _

lemma EndsWord.head_ne {sign : CodePoint} (hk : Token.EndsWord k) (hs : isSpaceOrEnd sign = false)
    (hc : sign ≠ CodePoint.ofChar ':') : k.headD CodePoint.nul ≠ sign := by
  rcases hk with h | ⟨r, rfl, -⟩
  · rintro rfl
    rw [h] at hs
    cases hs
  · exact hc.symm

/-- A separator of documents in front of the end of a word is its beginning. -/
lemma atSeparator_word {c : Cursor} {sign : CodePoint} {u : Text} (hs : isSpaceOrEnd sign = false)
    (hc : sign ≠ CodePoint.ofChar ':') (hk : Token.EndsWord k) (hrest : c.rest = u ++ k)
    (hu : Text.startsWith u [sign, sign, sign] = false) : c.atSeparator sign = false := by
  have hend := EndsWord.head_ne hk hs hc
  rw [List.headD_eq_head?_getD, List.head?_eq_getElem?] at hend
  rw [Cursor.atSeparator, Cursor.now_eq_peek, Cursor.peek, Cursor.peek, Cursor.peek, hrest]
  rcases u with _ | ⟨a, _ | ⟨b, _ | ⟨d, u⟩⟩⟩
  · simp [hend]
  · simp [hend]
  · simp [hend]
  · simp only [Text.startsWith, List.isPrefixOf_cons_cons, List.isPrefixOf_nil_left, Bool.and_true] at hu
    simp only [List.cons_append, List.getElem?_cons_zero, List.getElem?_cons_succ, Option.getD_some,
      Bool.and_eq_false_iff] at hu ⊢
    simp only [beq_eq_false_iff_ne, ne_eq, eq_comm (a := sign)] at hu ⊢
    tauto

/-- Where the text of a plain scalar begins a plain scalar is read. -/
lemma token_of_plain {inner : Nat} (hs : s.Shows v) (hrest : v.rest = w ++ k) (h : Token.Words inner t w)
    (ht : allowsPlain t = true) (hk : Token.EndsWord k) : s.token = s.plain := by
  obtain ⟨u, t', w', rfl, rfl, hu, hspace, hends⟩ := first_word h hk
  obtain ⟨d, u, rfl, hd, -⟩ := hu.head_solid
  simp only [allowsPlain, Bool.not_eq_true', Bool.or_eq_false_iff] at ht
  have hsign := ht.2
  simp only [List.cons_append, hasSign, Bool.or_eq_false_iff] at hsign
  obtain ⟨⟨⟨⟨hdash, hpoint⟩, hmark⟩, hblock⟩, -⟩ := hsign
  have hcursor : s.cursor.rest = (d :: u) ++ (w' ++ k) := by rw [hs.rest, hrest, List.append_assoc]
  have hstarts (sign : CodePoint) (hno : Text.startsWith (d :: (u ++ t')) [sign, sign, sign] = false) :
      Text.startsWith (d :: u) [sign, sign, sign] = false := by
    rw [← Bool.not_eq_true, Text.startsWith, List.isPrefixOf_iff_prefix] at hno ⊢
    exact fun hp => hno (hp.trans (List.prefix_append (d :: u) t'))
  refine token_plain hs.flow (s.cursor.now_of_cons hcursor) hd hmark (fun hd' => ?_)
    (atSeparator_word (by decide) (by decide) hends hcursor (hstarts _ hdash))
    (atSeparator_word (by decide) (by decide) hends hcursor (hstarts _ hpoint))
  cases u with
  | nil =>
    rw [Bool.and_eq_false_iff] at hblock
    rcases hblock with hblock | hblock
    · rcases hd' with rfl | rfl | rfl <;> exact absurd hblock (by decide)
    · rw [List.nil_append, hspace] at hblock
      cases hblock
  | cons e u =>
    rw [Cursor.peek, hcursor]
    exact (hu.solid e (by simp)).1

end Scalars

end DocPath.Yaml.Scan
