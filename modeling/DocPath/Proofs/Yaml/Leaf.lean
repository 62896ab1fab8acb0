import DocPath.Proofs.Yaml.Step
import DocPath.Proofs.Yaml.Written

/-! Scalars and empty collections behind the signs of block collections. -/

namespace DocPath.Yaml.Scan

open Layout

/-- What a scan holds behind a token. What may turn out to be a key need not be one. -/
structure Behind (s : Scan) (flow : Int) (rest : Text) (indents : List Int) (kinds : List TokenKind) : Prop where
  rest : s.cursor.rest = rest
  flow : s.flow = flow
  indents : s.indent :: s.outer = indents
  keys : ∀ k ∈ s.keys, k.1 = 0 ∧ k.2.required = false ∧ k.2.mark.line ≤ s.cursor.mark.line
  count : s.count = s.tokens.length
  kinds : s.tokens.reverse.map (·.kind) = kinds

variable {s : Scan} {v : View} {flow : Int} {indents : List Int} {kinds : List TokenKind} {r rest : Text} {j : Nat}

lemma Behind.giveUp (hs : s.Behind flow rest indents kinds) (p : Int × SimpleKey → Bool) :
    ∃ u, s.giveUp p = .ok u ∧ u.Behind flow rest indents kinds := by
  refine ⟨_, giveUp_eq fun k hk _ => (hs.keys k hk).2.1, hs.rest, hs.flow, hs.indents, ?_, hs.count, hs.kinds⟩
  exact fun k hk => hs.keys k (List.mem_filter.mp hk).1

lemma Behind.here (hs : s.Behind 0 (newLine j ++ r) indents kinds) (hr : Starts r) (hv : -1 ∈ indents) :
    Here s (View.settle ⟨r, j, true, indents, kinds⟩) := by
  obtain ⟨hrest, hflow, rfl, hkeys, hcount, rfl⟩ := hs
  exact here_newLine hflow hrest hr (fun k hk => (hkeys k hk).2) hcount hv

/-- What is read inside a collection may turn out to be a key, but need not. -/
lemma Shows.saveKey (hs : s.Shows v) (hin : v.indents.headD (-1) < v.column) :
    ∃ keys, s.saveKey = .ok { s with keys := keys } ∧
      ∀ k ∈ keys, k.1 = 0 ∧ k.2.required = false ∧ k.2.mark = s.mark := by
  rw [Scan.saveKey]
  split_ifs
  · rw [hs.dropKey]
    have hindent : v.indents.headD (-1) = s.indent := by rw [← hs.indents, List.headD_cons]
    have hcolumn : s.column = (v.column : Int) := by rw [Scan.column, hs.column]
    refine ⟨_, rfl, ?_⟩
    intro k hk
    obtain rfl : k = _ := by simpa [hs.keys] using hk
    refine ⟨hs.flow, ?_, rfl⟩
    have hne : (s.indent == s.column) = false := by
      rw [beq_eq_false_iff_ne, hcolumn, ← hindent]
      exact ne_of_lt hin
    rw [hne, Bool.and_false]
  · exact ⟨s.keys, rfl, by simp [hs.keys]⟩

lemma Behind.toNext (hs : s.Behind flow rest indents kinds) (hr : Starts rest) : s.toNext = s :=
  toNext_blanks (n := 0) hs.rest hr

lemma Behind.advance_inner {d : CodePoint} (hs : s.Behind 1 (d :: rest) indents kinds) (hr : Starts (d :: rest)) :
    ∃ t : Scan, s.advance = t.read ∧ t.Behind 1 (d :: rest) indents kinds := by
  obtain ⟨t, ht, hshows⟩ := hs.giveUp fun k => s.isStale k.2
  refine ⟨t, ?_, hshows⟩
  have hunwind : t.unwind t.column = t := by
    rw [unwind, if_neg]
    rw [hshows.flow]
    decide
  rw [advance, hs.toNext hr, dropStale, ht]
  show (if (t.unwind t.column).cursor.rest.isEmpty then _ else _) = _
  rw [hunwind]
  rfl

/-- An opening bracket. -/
lemma Shows.openFlow (hs : s.Shows v) {d : CodePoint} (hrest : v.rest = d :: rest)
    (hin : v.indents.headD (-1) < v.column) (kind : TokenKind) :
    ∃ u, s.openFlow kind = .ok u ∧ u.Behind 1 rest v.indents (v.kinds ++ [kind]) := by
  obtain ⟨keys, hsave, hkeys⟩ := hs.saveKey hin
  rw [Scan.openFlow, hsave]
  refine ⟨_, rfl, Cursor.rest_next (hs.rest.trans hrest), ?_, hs.indents, ?_, ?_, ?_⟩
  · show s.flow + 1 = 1
    rw [hs.flow]
    rfl
  · intro k hk
    obtain ⟨h0, hreq, hmark⟩ := hkeys k hk
    refine ⟨h0, hreq, ?_⟩
    rw [hmark]
    exact s.cursor.line_le_skip 1
  · show s.count + 1 = (_ :: s.tokens).length
    rw [hs.count, List.length_cons]
  · show (_ :: s.tokens).reverse.map _ = _
    rw [List.reverse_cons, List.map_append, hs.kinds]
    rfl

/-- The closing bracket behind it. -/
lemma Behind.closeFlow {d : CodePoint} (hs : s.Behind 1 (d :: rest) indents kinds) (kind : TokenKind) :
    ∃ u, s.closeFlow kind = .ok u ∧ u.Behind 0 rest indents (kinds ++ [kind]) := by
  obtain ⟨t, ht, hshows⟩ := hs.giveUp fun k => k.1 == s.flow
  rw [Scan.closeFlow, dropKey, ht]
  refine ⟨_, rfl, Cursor.rest_next hshows.rest, ?_, hshows.indents, ?_, ?_, ?_⟩
  · show t.flow - 1 = 0
    rw [hshows.flow]
    rfl
  · intro k hk
    obtain ⟨h0, hreq, hline⟩ := hshows.keys k hk
    exact ⟨h0, hreq, hline.trans (t.cursor.line_le_skip 1)⟩
  · show t.count + 1 = (_ :: t.tokens).length
    rw [hshows.count, List.length_cons]
  · show (_ :: t.tokens).reverse.map _ = _
    rw [List.reverse_cons, List.map_append, hshows.kinds]
    rfl

/-- An empty collection, whatever its brackets are. -/
lemma Here.brackets (h : Here s v) {a b : CodePoint} {start stop : TokenKind}
    (hrest : v.rest = a :: b :: (newLine j ++ r)) (hin : v.indents.headD (-1) < v.column)
    (ha : ∀ t : Scan, t.cursor.now = a → t.token = t.openFlow start)
    (hb : ∀ t : Scan, t.cursor.now = b → t.token = t.closeFlow stop)
    (hstarts : Starts (b :: (newLine j ++ r))) (hr : Starts r) (hv : -1 ∈ v.indents) :
    ∃ u, Leads s u ∧ Here u (View.settle ⟨r, j, true, v.indents, v.kinds ++ [start, stop]⟩) := by
  obtain ⟨t, hst, ht⟩ := h.step (P := fun u => u.Behind 1 (b :: (newLine j ++ r)) v.indents (v.kinds ++ [start]))
    (by simp [hrest]) fun t ht => by
      obtain ⟨u, hu, hbehind⟩ := ht.openFlow hrest hin start
      obtain ⟨u', hu', hbehind'⟩ := hbehind.giveUp fun k => u.isStale k.2
      rw [ha t (ht.now hrest), hu]
      refine ⟨u', hu', ?_, hbehind'⟩
      rw [hbehind'.rest, hrest]
      exact Nat.lt_succ_self _
  obtain ⟨t', hadvance, ht'⟩ := ht.advance_inner hstarts
  obtain ⟨u, hu, hbehind⟩ := ht'.closeFlow stop
  obtain ⟨u', hu', hbehind'⟩ := hbehind.giveUp fun k => u.isStale k.2
  have hread : t.advance = .ok (u', false) := by
    have hempty : t'.cursor.rest.isEmpty = false := by rw [ht'.rest]; rfl
    rw [hadvance, read, hempty, if_neg Bool.false_ne_true, hb t' (t'.cursor.now_of_cons ht'.rest), hu]
    show (u.dropStale >>= fun s => pure (s, false)) = _
    rw [dropStale, hu']
    rfl
  refine ⟨u', hst.trans (.of_advance hread ?_), ?_⟩
  · rw [hbehind'.rest, ht.rest]
    exact Nat.lt_succ_self _
  · rw [List.append_assoc] at hbehind'
    exact hbehind'.here hr hv

/-- An empty sequence. -/
theorem Here.emptySequence (h : Here s v) (hrest : v.rest = Text.ofString "[]" ++ (newLine j ++ r))
    (hin : v.indents.headD (-1) < v.column) (hr : Starts r) (hv : -1 ∈ v.indents) :
    ∃ u, Leads s u ∧ Here u
      (View.settle ⟨r, j, true, v.indents, v.kinds ++ [.flowSequenceStart, .flowSequenceEnd]⟩) :=
  h.brackets (a := CodePoint.ofChar '[') (b := CodePoint.ofChar ']') hrest hin
    (fun t ht => (token_sign ht (by decide)).trans (by rfl))
    (fun t ht => (token_sign ht (by decide)).trans (by rfl)) (by simp [Starts]; decide) hr hv

/-- An empty mapping. -/
theorem Here.emptyMapping (h : Here s v) (hrest : v.rest = Text.ofString "\x7b\x7d" ++ (newLine j ++ r))
    (hin : v.indents.headD (-1) < v.column) (hr : Starts r) (hv : -1 ∈ v.indents) :
    ∃ u, Leads s u ∧ Here u
      (View.settle ⟨r, j, true, v.indents, v.kinds ++ [.flowMappingStart, .flowMappingEnd]⟩) :=
  h.brackets (a := CodePoint.ofChar '\x7b') (b := CodePoint.ofChar '\x7d') hrest hin
    (fun t ht => (token_sign ht (by decide)).trans (by rfl))
    (fun t ht => (token_sign ht (by decide)).trans (by rfl)) (by simp [Starts]; decide) hr hv

/-- A scalar between quotation marks. -/
lemma Here.quoted (h : Here s v) {q : Char} {t body : Text} (hq : q = '\'' ∨ q = '"')
    (hrest : v.rest = CodePoint.ofChar q :: (body ++ [CodePoint.ofChar q]) ++ (newLine j ++ r))
    (hread : ∀ c : Cursor, c.rest = v.rest → ∃ m, Token.quoted (q = '"') c =
      .ok (⟨.scalar t false, c.mark, m⟩, c.skip (body.length + 2)))
    (hin : v.indents.headD (-1) < v.column) (hr : Starts r) (hv : -1 ∈ v.indents) :
    ∃ u, Leads s u ∧ Here u (View.settle ⟨r, j, true, v.indents, v.kinds ++ [.scalar t false]⟩) := by
  refine h.step (by simp [hrest]) fun c hc => ?_
  obtain ⟨keys, hsave, hkeys⟩ := hc.saveKey hin
  obtain ⟨m, hm⟩ := hread c.cursor hc.rest
  have htoken : c.token = c.property (Token.quoted (q = '"')) := by
    rw [token_sign (hc.now hrest) (by rcases hq with rfl | rfl <;> decide)]
    rcases hq with rfl | rfl <;> rfl
  have hlen : (CodePoint.ofChar q :: (body ++ [CodePoint.ofChar q])).length = body.length + 2 := by simp
  have hbehind : Behind { c with
      keys := keys, tokens := ⟨.scalar t false, c.cursor.mark, m⟩ :: c.tokens, count := c.count + 1,
      cursor := c.cursor.skip (body.length + 2), keyAllowed := false } 0 (newLine j ++ r) v.indents
      (v.kinds ++ [.scalar t false]) := by
    refine ⟨?_, hc.flow, hc.indents, ?_, ?_, ?_⟩
    · rw [← hlen]
      exact c.cursor.skip_append (hc.rest.trans hrest)
    · intro k hk
      obtain ⟨h0, hreq, hmark⟩ := hkeys k hk
      refine ⟨h0, hreq, ?_⟩
      rw [hmark]
      exact c.cursor.line_le_skip _
    · show c.count + 1 = (_ :: c.tokens).length
      rw [hc.count, List.length_cons]
    · show (_ :: c.tokens).reverse.map _ = _
      rw [List.reverse_cons, List.map_append, hc.kinds]
      rfl
  obtain ⟨u, hu, hbehind'⟩ := hbehind.giveUp fun k => isStale _ k.2
  rw [htoken, property, hsave]
  refine ⟨u, ?_, ?_, hbehind'.here hr hv⟩
  · simp only [bind, Except.bind, hm]
    exact hu
  · rw [hbehind'.rest, hrest]
    simp only [List.length_append, List.length_cons]
    omega

/-- A plain scalar, behind which the new line is passed too. -/
lemma Here.words (h : Here s v) {inner : Nat} {t w : Text} (hw : Token.Words inner t w)
    (ht : allowsPlain t = true) (hrest : v.rest = w ++ (newLine j ++ r))
    (hin : v.indents.headD (-1) < v.column) (hj : (j : Int) ≤ v.indents.headD (-1))
    (hinner : v.indents.headD (-1) < inner) (hr : Starts r) (hv : -1 ∈ v.indents) :
    ∃ u, Leads s u ∧ Here u (View.settle ⟨r, j, true, v.indents, v.kinds ++ [.scalar t true]⟩) := by
  have hends : Token.EndsWord (newLine j ++ r) := .inl (Token.isSpaceOrEnd_newLine j r)
  have hne : v.rest ≠ [] := by
    obtain ⟨d, w, rfl, -⟩ := hw.head_solid
    simp [hrest]
  refine h.step hne fun c hc => ?_
  obtain ⟨keys, hsave, hkeys⟩ := hc.saveKey hin
  have hindent : v.indents.headD (-1) = c.indent := by rw [← hc.indents, List.headD_cons]
  have hcolumn : c.indent ≤ c.cursor.column := by
    rw [hc.column, ← hindent]
    exact le_of_lt hin
  obtain ⟨m, hm⟩ := Token.plain_newLine hw (by omega) (by rwa [← hindent]) (by rwa [← hindent])
    (fun e he => ⟨(hr e he).1, (hr e he).2.1⟩) (hc.rest.trans hrest) hcolumn
  have hflow : (c.flow != 0) = false := by rw [hc.flow]; rfl
  have hpast : (c.cursor.skip w.length).rest = newLine j ++ r := c.cursor.skip_append (hc.rest.trans hrest)
  have hmark := (c.cursor.skip w.length).mark_skip_newLine hpast
  rw [Cursor.skip_skip] at hmark
  have hstop : (c.cursor.skip (w.length + (j + 1))).rest = r := by
    rw [← Cursor.skip_skip, Cursor.skip_rest, hpast, ← length_newLine j, List.drop_left]
  -- possible keys that were noted are on the line that ends here
  have hlater : ∀ k ∈ keys, k.2.required = false ∧
      k.2.mark.line < (c.cursor.skip (w.length + (j + 1))).mark.line := by
    intro k hk
    obtain ⟨-, hreq, hm⟩ := hkeys k hk
    refine ⟨hreq, ?_⟩
    rw [hm, hmark]
    exact Nat.lt_succ_of_le (c.cursor.line_le_skip _)
  rw [token_of_plain hc hrest hw ht hends, Scan.plain, hsave]
  simp only [bind, Except.bind, hflow, hm]
  refine ⟨_, dropStale_of_passed hlater, ?_, ?_⟩
  · show (c.cursor.skip (w.length + (j + 1))).rest.length < _
    rw [hstop, hrest]
    simp only [List.length_append, length_newLine]
    omega
  · refine here_of_toNext (n := 0) (toNext_blanks (n := 0) hstop hr) (by simp)
      ⟨hstop, ?_, hc.flow, rfl, hc.indents, rfl, ?_, ?_⟩ hv
    · show (c.cursor.skip (w.length + (j + 1))).mark.column = j
      rw [hmark]
    · show c.count + 1 = (_ :: c.tokens).length
      rw [hc.count, List.length_cons]
    · show (_ :: c.tokens).reverse.map _ = _
      rw [List.reverse_cons, List.map_append, hc.kinds]
      rfl

/-- A scalar begins with what is neither a space nor the sign of a comment. -/
lemma scalar_cons {split : Bool} {inner : Nat} {tag t w : Text} (hw : ScalarBody split inner tag t w)
    (hne : style (!split) tag t = .plain → t ≠ []) (k : Text) : ∃ d w', w = d :: w' ∧ Starts (w ++ k) := by
  unfold ScalarBody at hw
  cases hs : style (!split) tag t with
  | plain =>
    rw [hs] at hw
    obtain ⟨u, t', w', rfl, rfl, hu, -, -⟩ :=
      first_word (Token.words_of_allowsPlain hw (style_eq_plain hs).2.1 (hne hs)) (k := []) (.inl (by decide))
    obtain ⟨d, r, rfl, hd, hhash⟩ := hu.head_solid
    refine ⟨d, r ++ w', rfl, fun e he => ?_⟩
    obtain rfl := Option.some.inj he
    obtain ⟨-, hblank, hbreak, -⟩ := Token.solid_iff.mp hd
    exact ⟨hblank, hbreak, hhash, (hu.solid d (by simp)).2⟩
  | single =>
    rw [hs] at hw
    obtain ⟨b, -, rfl⟩ := hw
    refine ⟨_, _, rfl, ?_⟩
    simp [Starts]
    decide
  | double =>
    rw [hs] at hw
    obtain ⟨b, -, rfl⟩ := hw
    refine ⟨_, _, rfl, ?_⟩
    simp [Starts]
    decide

/-- A scalar in one of its forms. -/
theorem Here.scalar (h : Here s v) {inner : Nat} {tag t w : Text} (ho : IsOrdinary tag t)
    (hw : ScalarBody true inner tag t w) (hrest : v.rest = w ++ (newLine j ++ r))
    (hin : v.indents.headD (-1) < v.column) (hj : (j : Int) ≤ v.indents.headD (-1))
    (hinner : v.indents.headD (-1) < inner) (hpos : 0 < inner) (hr : Starts r) (hv : -1 ∈ v.indents) :
    ∃ u, Leads s u ∧ Here u (View.settle ⟨r, j, true, v.indents,
      v.kinds ++ [.scalar (heard true inner tag t) (style false tag t = .plain)]⟩) := by
  unfold ScalarBody at hw
  unfold heard
  rw [Bool.not_true] at hw ⊢
  cases hs : style false tag t with
  | plain =>
    rw [hs] at hw
    have ht := (style_eq_plain hs).2.1
    exact h.words (Token.words_of_allowsPlain hw ht (ne_nil_of_plain ho hs)) ht hrest hin hj hinner hr hv
  | single =>
    rw [hs] at hw
    obtain ⟨b, hb, rfl⟩ := hw
    refine h.quoted (.inl rfl) hrest (fun c hc => ?_) hin hr hv
    exact Token.quoted_single hpos hb (style_eq_single hs).1 (by simp [newLine]) (hc.trans hrest)
  | double =>
    rw [hs] at hw
    obtain ⟨b, hb, rfl⟩ := hw
    refine h.quoted (.inr rfl) hrest (fun c hc => ?_) hin hr hv
    simpa using Token.quoted_double hpos hb (hc.trans hrest)

end DocPath.Yaml.Scan
