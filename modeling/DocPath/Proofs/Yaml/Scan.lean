import DocPath.Yaml.Tokens
import DocPath.Proofs.Yaml.Plain

/-! The scanner in block collections: what it holds between two tokens, and how a token changes that. -/

namespace DocPath.Yaml

/-- What a scan outside flow collections has come to: the text that is left and its column, whether a key may
begin, the open indentations with the innermost first, and the tokens so far. -/
structure View where
  rest : Text
  column : Nat
  keyAllowed : Bool
  indents : List Int
  kinds : List TokenKind

namespace View

/-- The block collections that are indented more than the column are closed. -/
def settle (v : View) : View :=
  { v with
    indents := v.indents.dropWhile fun i => decide ((v.column : Int) < i)
    kinds := v.kinds ++ (v.indents.takeWhile fun i => decide ((v.column : Int) < i)).map fun _ => .blockEnd }

/-- A block collection begins in the column unless one with this indentation is open. -/
def opened (v : View) (kind : TokenKind) : View :=
  if v.indents.headD (-1) < v.column then
    { v with indents := v.column :: v.indents, kinds := v.kinds ++ [kind] }
  else v

/-- What is shown behind a sign that may open a block collection. -/
def behindSign (v : View) (start sign : TokenKind) (rest : Text) : View :=
  ⟨rest, v.column + 1, true, (v.opened start).indents, (v.opened start).kinds ++ [sign]⟩

variable {v : View}

lemma settle_close {rest : Text} {column : Nat} {ka : Bool} {i : Int} {is : List Int} {kinds : List TokenKind}
    (h : (column : Int) < i) : settle ⟨rest, column, ka, i :: is, kinds⟩ =
      settle ⟨rest, column, ka, is, kinds ++ [.blockEnd]⟩ := by
  simp [settle, h]

lemma settle_eq_self {i : Int} {is : List Int} (hv : v.indents = i :: is) (h : i ≤ v.column) : v.settle = v := by
  obtain ⟨rest, column, ka, indents, kinds⟩ := v
  obtain rfl : indents = i :: is := hv
  have hn : ¬((column : Int) < i) := not_lt.mpr h
  simp [settle, hn]

@[simp] lemma settle_rest : v.settle.rest = v.rest := rfl

@[simp] lemma opened_rest (v : View) (kind : TokenKind) : (v.opened kind).rest = v.rest := by
  unfold opened
  split_ifs <;> rfl

@[simp] lemma opened_column (v : View) (kind : TokenKind) : (v.opened kind).column = v.column := by
  unfold opened
  split_ifs <;> rfl

@[simp] lemma opened_keyAllowed (v : View) (kind : TokenKind) :
    (v.opened kind).keyAllowed = v.keyAllowed := by
  unfold opened
  split_ifs <;> rfl

lemma opened_of_lt {kind : TokenKind} (h : v.indents.headD (-1) < v.column) :
    v.opened kind = { v with indents := v.column :: v.indents, kinds := v.kinds ++ [kind] } := if_pos h

lemma opened_eq_self {kind : TokenKind} (h : ¬v.indents.headD (-1) < v.column) : v.opened kind = v := if_neg h

end View

namespace Scan

/-- A scan shows a view if no key is possible. -/
structure Shows (s : Scan) (v : View) : Prop where
  rest : s.cursor.rest = v.rest
  column : s.cursor.column = v.column
  flow : s.flow = 0
  keyAllowed : s.keyAllowed = v.keyAllowed
  indents : s.indent :: s.outer = v.indents
  keys : s.keys = []
  count : s.count = s.tokens.length
  kinds : s.tokens.reverse.map (·.kind) = v.kinds

/-- The next token, or the end of the text. -/
def read (s : Scan) : Except Fault (Scan × Bool) := do
  if s.cursor.rest.isEmpty then pure (← s.finish, true)
  else pure (← (← s.token).dropStale, false)

/-- The next token is read from where a view is shown. -/
def Here (s : Scan) (v : View) : Prop :=
  v.rest.length ≤ s.cursor.rest.length ∧ s.tokens.reverse.map (·.kind) <+: v.kinds ∧
    ∃ t : Scan, s.advance = t.read ∧ t.Shows v

/-- A scan does not come to the end of the text. -/
def Fails (s : Scan) : Prop :=
  ∀ fuel, s.cursor.rest.length < fuel → ∀ t ∈ (Tokens.scanFrom fuel s).tokens, t.kind ≠ .streamEnd

/-- A scan goes on from a later one. -/
def Leads (s t : Scan) : Prop :=
  ∀ fuel, s.cursor.rest.length < fuel →
    ∃ fuel', t.cursor.rest.length < fuel' ∧ Tokens.scanFrom fuel s = Tokens.scanFrom fuel' t

lemma Leads.trans {s t u : Scan} (h : Leads s t) (h' : Leads t u) : Leads s u := by
  intro fuel hf
  obtain ⟨fuel', hf', he⟩ := h fuel hf
  obtain ⟨fuel'', hf'', he'⟩ := h' fuel' hf'
  exact ⟨fuel'', hf'', he.trans he'⟩

lemma Leads.fails {s t : Scan} (h : Leads s t) (ht : Fails t) : Fails s := by
  intro fuel hf
  obtain ⟨fuel', hf', he⟩ := h fuel hf
  rw [he]
  exact ht fuel' hf'

lemma scanFrom_succ (fuel : Nat) (s : Scan) : Tokens.scanFrom (fuel + 1) s =
    match s.advance with
    | .error fault => ⟨s.tokens.reverse.take s.released, some fault⟩
    | .ok (s, true) => ⟨s.tokens.reverse, none⟩
    | .ok (s, false) => Tokens.scanFrom fuel s := by
  rfl

/-- A token shortens the text that is left, so that there is fuel for all of them. -/
lemma Leads.of_advance {s t : Scan} (h : s.advance = .ok (t, false))
    (hlt : t.cursor.rest.length < s.cursor.rest.length) : Leads s t := by
  intro fuel hf
  cases fuel with
  | zero => exact absurd hf (Nat.not_lt_zero _)
  | succ fuel =>
    have hscan : Tokens.scanFrom (fuel + 1) s = Tokens.scanFrom fuel t := by rw [scanFrom_succ, h]
    exact ⟨fuel, Nat.lt_of_lt_of_le hlt (Nat.le_of_lt_succ hf), hscan⟩

lemma Fails.of_advance {s : Scan} {fault : Fault} (h : s.advance = .error fault)
    (hkinds : ∀ t ∈ s.tokens, t.kind ≠ .streamEnd) : Fails s := by
  intro fuel hf
  cases fuel with
  | zero => exact absurd hf (Nat.not_lt_zero _)
  | succ fuel =>
    have hscan : Tokens.scanFrom (fuel + 1) s = ⟨s.tokens.reverse.take s.released, some fault⟩ := by
      rw [scanFrom_succ, h]
    rw [hscan]
    exact fun t ht => hkinds t (List.mem_reverse.mp (List.mem_of_mem_take ht))

/-- A token is read from where a view is shown. -/
lemma Here.step {s : Scan} {v : View} (h : Here s v) (hne : v.rest ≠ []) {P : Scan → Prop}
    (htoken : ∀ t : Scan, t.Shows v → ∃ u, (t.token >>= dropStale) = .ok u ∧
      u.cursor.rest.length < v.rest.length ∧ P u) : ∃ u, Leads s u ∧ P u := by
  obtain ⟨hlen, -, t, hadvance, hshows⟩ := h
  obtain ⟨u, hu, hlt, hp⟩ := htoken t hshows
  have hempty : t.cursor.rest.isEmpty = false := by
    rw [hshows.rest]
    simpa using hne
  refine ⟨u, .of_advance ?_ (Nat.lt_of_lt_of_le hlt hlen), hp⟩
  rw [hadvance, read, hempty, if_neg Bool.false_ne_true]
  cases ht : t.token with
  | error e => simp [ht, bind, Except.bind] at hu
  | ok r =>
    simp only [ht, bind, Except.bind] at hu ⊢
    rw [hu]
    rfl

section Keys

variable {s : Scan}

lemma giveUp_eq {p : Int × SimpleKey → Bool} (h : ∀ k ∈ s.keys, p k = true → k.2.required = false) :
    s.giveUp p = .ok { s with keys := s.keys.filter (!p ·) } := by
  have hnone : (s.keys.find? fun k => p k && k.2.required) = none := by
    rw [List.find?_eq_none]
    intro k hk
    rw [Bool.and_eq_true, not_and, Bool.not_eq_true]
    exact h k hk
  rw [giveUp, hnone]

lemma giveUp_of_keys_eq_nil {p : Int × SimpleKey → Bool} (h : s.keys = []) : s.giveUp p = .ok s := by
  rw [giveUp_eq (by simp [h]), h]
  obtain ⟨c, f, i, o, ka, keys, ts, n⟩ := s
  obtain rfl : keys = [] := h
  rfl

lemma dropStale_of_passed (h : ∀ k ∈ s.keys, k.2.required = false ∧ k.2.mark.line < s.cursor.mark.line) :
    s.dropStale = .ok { s with keys := [] } := by
  have hall : s.keys.filter (fun k => !s.isStale k.2) = [] := by
    rw [List.filter_eq_nil_iff]
    intro k hk
    have hline : (k.2.mark.line != s.mark.line) = true := bne_iff_ne.mpr (Nat.ne_of_lt (h k hk).2)
    rw [isStale, hline]
    simp
  rw [dropStale, giveUp_eq fun k hk _ => (h k hk).1, hall]

end Keys

/-- What is left to read begins with a token, or is nothing. -/
def Starts (rest : Text) : Prop :=
  ∀ e ∈ rest.head?, e.is ' ' = false ∧ isBreak e = false ∧ e ≠ CodePoint.ofChar '#' ∧ e.val ≠ 0xFEFF

section Gaps

variable {s : Scan} {rest : Text}

lemma now_ne_of_starts (h : Starts rest) {c : Cursor} (hrest : c.rest = rest) :
    isBreak c.now = false ∧ c.now ≠ CodePoint.ofChar '#' := by
  subst hrest
  cases hc : c.rest with
  | nil =>
    rw [c.now_of_nil hc]
    decide
  | cons e r =>
    rw [hc] at h
    rw [c.now_of_cons hc]
    exact ⟨(h e rfl).2.1, (h e rfl).2.2.1⟩

lemma skipGaps_blanks {n fuel : Nat} (hrest : s.cursor.rest = blanks n ++ rest) (hstarts : Starts rest) :
    skipGaps (fuel + 1) s = { s with cursor := s.cursor.skip n } := by
  have hpass := s.cursor.skipWhile_append (p := (· == CodePoint.ofChar ' ')) hrest
    (fun e he => by rw [eq_of_mem_blanks he]; rfl) (fun e he => (hstarts e he).1)
  rw [length_blanks] at hpass
  have hbehind := s.cursor.skip_append hrest
  rw [length_blanks] at hbehind
  obtain ⟨hbreak, hhash⟩ := now_ne_of_starts hstarts hbehind
  have hcomment : (s.cursor.skip n).skipComment = s.cursor.skip n := if_neg hhash
  rw [skipGaps]
  simp only [hpass, hcomment, hbreak, Bool.false_eq_true, if_false]

lemma skipGaps_newLine {n fuel : Nat} (hflow : s.flow = 0) (hrest : s.cursor.rest = newLine n ++ rest)
    (hstarts : Starts rest) :
    skipGaps (fuel + 2) s = { s with cursor := s.cursor.skip (n + 1), keyAllowed := true } := by
  have hfirst : s.cursor.rest = CodePoint.ofChar '\n' :: (blanks n ++ rest) := hrest
  have hself : s.cursor.skipWhile (· == CodePoint.ofChar ' ') = s.cursor :=
    s.cursor.skipWhile_eq_self fun e he => by
      rw [hfirst] at he
      obtain rfl := Option.some.inj he
      decide
  have hnow := s.cursor.now_of_cons hfirst
  have hcomment : s.cursor.skipComment = s.cursor := if_neg (by rw [hnow]; decide)
  have hline : s.cursor.lineBreak = (_, s.cursor.next) := Token.lineBreak_eq (by decide) hfirst
  have hbreak : isBreak (CodePoint.ofChar '\n') = true := by decide
  rw [skipGaps]
  simp only [hself, hcomment, hnow, hbreak, if_true, hline, hflow, beq_self_eq_true, Bool.or_true]
  rw [skipGaps_blanks (Cursor.rest_next hfirst) hstarts, Cursor.skip_succ]

lemma toNext_eq (hstart : ∀ e ∈ s.cursor.rest.head?, e.val ≠ 0xFEFF) :
    s.toNext = skipGaps (s.cursor.rest.length + 1) s := by
  have hnow : s.cursor.now.val ≠ 0xFEFF := by
    cases hc : s.cursor.rest with
    | nil =>
      rw [s.cursor.now_of_nil hc]
      decide
    | cons e r =>
      rw [s.cursor.now_of_cons hc]
      exact hstart e (by rw [hc]; rfl)
  rw [toNext]
  simp only [hnow, and_false, if_false]

lemma toNext_blanks {n : Nat} (hrest : s.cursor.rest = blanks n ++ rest) (hstarts : Starts rest) :
    s.toNext = { s with cursor := s.cursor.skip n } := by
  rw [toNext_eq, skipGaps_blanks hrest hstarts]
  intro e he
  cases n with
  | zero =>
    rw [hrest] at he
    exact (hstarts e he).2.2.2
  | succ n =>
    rw [hrest] at he
    obtain rfl := Option.some.inj he
    decide

lemma toNext_newLine {n : Nat} (hflow : s.flow = 0) (hrest : s.cursor.rest = newLine n ++ rest)
    (hstarts : Starts rest) :
    s.toNext = { s with cursor := s.cursor.skip (n + 1), keyAllowed := true } := by
  have hlen : s.cursor.rest.length + 1 = (n + rest.length) + 2 := by
    rw [hrest, List.length_append, length_newLine]
    omega
  rw [toNext_eq, hlen, skipGaps_newLine hflow hrest hstarts]
  intro e he
  rw [hrest] at he
  obtain rfl := Option.some.inj he
  decide

end Gaps

section Unwind

variable {s : Scan} {v : View}

lemma closeBlocks_shows {column : Nat} (outer : List Int) (hs : s.Shows v) (hc : v.column = column)
    (ho : s.outer = outer) (hv : -1 ∈ v.indents) : (closeBlocks column s outer).Shows v.settle := by
  induction outer generalizing s v with
  | nil =>
    have hi := hs.indents
    rw [ho] at hi
    obtain hm : -1 = s.indent := by
      rw [← hi] at hv
      simpa using hv
    rw [closeBlocks, View.settle_eq_self hi.symm (by omega)]
    exact hs
  | cons o rest ih =>
    have hi := hs.indents
    rw [ho] at hi
    rw [closeBlocks]
    split_ifs with h
    · obtain ⟨vr, vc, vk, vi, vt⟩ := v
      obtain rfl : vi = s.indent :: o :: rest := hi.symm
      obtain rfl : column = vc := hc.symm
      rw [View.settle_close h]
      refine ih ⟨hs.rest, hs.column, hs.flow, hs.keyAllowed, rfl, hs.keys, ?_, ?_⟩ rfl rfl ?_
      · show s.count + 1 = (_ :: s.tokens).length
        rw [hs.count, List.length_cons]
      · have hk := hs.kinds
        show (_ :: s.tokens).reverse.map _ = _
        rw [List.reverse_cons, List.map_append, hk]
        rfl
      · rcases List.mem_cons.mp hv with hm | hm
        · rw [← hm] at h
          omega
        · exact hm
    · rw [View.settle_eq_self hi.symm (by rw [hc]; omega)]
      exact hs

lemma unwind_shows (hs : s.Shows v) (hv : -1 ∈ v.indents) : (s.unwind s.column).Shows v.settle := by
  rw [unwind, if_pos hs.flow]
  have hc : s.column = (v.column : Int) := by rw [Scan.column, hs.column]
  rw [hc]
  exact closeBlocks_shows s.outer hs rfl rfl hv

/-- Behind a gap a view is shown, and the collections are closed that the column is not inside of. -/
lemma here_of_toNext {n : Nat} {ka : Bool} (hnext : s.toNext = { s with cursor := s.cursor.skip n, keyAllowed := ka })
    (hkeys : ∀ k ∈ s.keys, k.2.required = false ∧ k.2.mark.line < (s.cursor.skip n).mark.line)
    (hs : Shows { s with cursor := s.cursor.skip n, keyAllowed := ka, keys := [] } v)
    (hv : -1 ∈ v.indents) : Here s v.settle := by
  have hdrop : s.toNext.dropStale =
      .ok { s with cursor := s.cursor.skip n, keyAllowed := ka, keys := [] } := by
    rw [hnext]
    exact dropStale_of_passed hkeys
  refine ⟨?_, ?_, _, ?_, unwind_shows hs hv⟩
  · rw [View.settle_rest, ← hs.rest, Cursor.skip_rest, List.length_drop]
    omega
  · have hkinds : s.tokens.reverse.map (·.kind) = v.kinds := hs.kinds
    rw [hkinds]
    exact List.prefix_append _ _
  · rw [advance, hdrop]
    rfl

/-- Behind blanks in front of a token. -/
lemma Shows.here_blanks {rest : Text} {column n : Nat} {ka : Bool} {indents : List Int} {kinds : List TokenKind}
    (hs : s.Shows ⟨blanks n ++ rest, column, ka, indents, kinds⟩) (hstarts : Starts rest)
    (hv : -1 ∈ indents) : Here s (View.settle ⟨rest, column + n, ka, indents, kinds⟩) := by
  have hmark := s.cursor.mark_skip_of_inline hs.rest (isInline_blanks n)
  rw [length_blanks] at hmark
  have hnext := toNext_blanks hs.rest hstarts
  have hka : s.keyAllowed = ka := hs.keyAllowed
  rw [← hka]
  refine here_of_toNext hnext (by simp [hs.keys]) ⟨?_, ?_, hs.flow, rfl, hs.indents, rfl, hs.count, hs.kinds⟩ hv
  · have := s.cursor.skip_append hs.rest
    rwa [length_blanks] at this
  · show (s.cursor.skip n).mark.column = column + n
    rw [hmark, ← show s.cursor.column = column from hs.column]
    rfl

/-- Behind a new line in front of a token; what may have been a key before it is none. -/
lemma here_newLine {rest : Text} {n : Nat} (hflow : s.flow = 0) (hrest : s.cursor.rest = newLine n ++ rest)
    (hstarts : Starts rest)
    (hkeys : ∀ k ∈ s.keys, k.2.required = false ∧ k.2.mark.line ≤ s.cursor.mark.line)
    (hcount : s.count = s.tokens.length) (hv : -1 ∈ s.indent :: s.outer) :
    Here s (View.settle ⟨rest, n, true, s.indent :: s.outer, s.tokens.reverse.map (·.kind)⟩) := by
  have hmark := s.cursor.mark_skip_newLine hrest
  refine here_of_toNext (toNext_newLine hflow hrest hstarts) (fun k hk => ⟨(hkeys k hk).1, ?_⟩)
    ⟨?_, ?_, hflow, rfl, rfl, rfl, hcount, rfl⟩ hv
  · rw [hmark]
    exact Nat.lt_succ_of_le (hkeys k hk).2
  · have := s.cursor.skip_append hrest
    rwa [length_newLine] at this
  · show (s.cursor.skip (n + 1)).mark.column = n
    rw [hmark]

end Unwind

end Scan

end DocPath.Yaml
