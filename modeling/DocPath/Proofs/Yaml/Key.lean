import DocPath.Proofs.Yaml.Leaf
import DocPath.Proofs.Yaml.Visible

/-! Keys on one line with their colon. Only at the colon they turn out to be keys, and only if it is not too
far away. -/

namespace DocPath.Yaml

open Layout

lemma heardSingle_eq_self {before : Option CodePoint} {t : Text} (hm : isMultiline t = false) :
    heardSingle before t = t := by
  induction t generalizing before with
  | nil => rfl
  | cons d t ih =>
    rw [isMultiline, List.any_cons, Bool.or_eq_false_iff] at hm
    rw [heardSingle, hm.1, ih hm.2]
    rfl

lemma heard_of_not_multiline {inner : Nat} {tag t : Text} (hm : isMultiline t = false) :
    heard false inner tag t = t := by
  unfold heard
  cases style (!false) tag t with
  | plain => rfl
  | single => exact heardSingle_eq_self hm
  | double => rfl

namespace Scan

variable {s : Scan} {v : View} {inner : Nat} {tag t key k : Text}

/-- What a scan holds between a possible key and its colon. -/
structure AtColon (s : Scan) (v : View) (k : Text) (kind : TokenKind) (length : Nat) : Prop where
  rest : s.cursor.rest = CodePoint.ofChar ':' :: k
  flow : s.flow = 0
  indents : s.indent :: s.outer = v.indents
  keyAllowed : s.keyAllowed = false
  keys : ∃ m : Mark, m.column = v.column ∧ s.mark = ⟨m.index + length, m.line, m.column + length⟩ ∧
    s.keys = [(0, ⟨v.kinds.length, decide (v.indents.headD (-1) = v.column), m⟩)]
  tokens : ∃ x ts, s.tokens = x :: ts ∧ x.kind = kind ∧ ts.reverse.map (·.kind) = v.kinds
  count : s.count = v.kinds.length + 1

lemma Shows.saveKey_allowed (hs : s.Shows v) (hka : v.keyAllowed = true) :
    s.saveKey = .ok { s with keys := [(0, ⟨v.kinds.length, decide (v.indents.headD (-1) = v.column), s.mark⟩)] } := by
  have hcount : s.count = v.kinds.length := by
    rw [hs.count, ← hs.kinds, List.length_map, List.length_reverse]
  have hrequired : (s.flow == 0 && s.indent == s.column) = decide (v.indents.headD (-1) = v.column) := by
    rw [Scan.column, hs.column, hs.flow, ← hs.indents]
    rfl
  rw [Scan.saveKey, if_pos (hs.keyAllowed.trans hka), hs.dropKey]
  show Except.ok { s with keys := (s.flow, ⟨s.count, s.flow == 0 && s.indent == s.column, s.mark⟩) :: s.keys } = _
  rw [hrequired, hcount, hs.flow, hs.keys]

/-- Behind a token that may be a key. -/
lemma Shows.atColon (hs : s.Shows v) (hrest : v.rest = key ++ CodePoint.ofChar ':' :: k) (hinline : IsInline key)
    (x : Token) : AtColon { s with
      keys := [(0, ⟨v.kinds.length, decide (v.indents.headD (-1) = v.column), s.mark⟩)],
      tokens := x :: s.tokens, count := s.count + 1, cursor := s.cursor.skip key.length, keyAllowed := false }
      v k x.kind key.length := by
  have hcount : s.count = v.kinds.length := by
    rw [hs.count, ← hs.kinds, List.length_map, List.length_reverse]
  have hcursor := hs.rest.trans hrest
  refine ⟨s.cursor.skip_append hcursor, hs.flow, hs.indents, rfl, ⟨s.mark, hs.column, ?_, rfl⟩,
    ⟨x, s.tokens, rfl, rfl, hs.kinds⟩, ?_⟩
  · exact s.cursor.mark_skip_of_inline hcursor hinline
  · show s.count + 1 = _
    rw [hcount]

/-- What is written for a key is one token. -/
lemma Shows.token_key (hs : s.Shows v) (ht : t ≠ []) (hm : isMultiline t = false)
    (hw : ScalarBody false inner tag t key) (hrest : v.rest = key ++ CodePoint.ofChar ':' :: k)
    (hspace : isSpaceOrEnd (k.headD CodePoint.nul) = true) (hka : v.keyAllowed = true)
    (hin : v.indents.headD (-1) ≤ v.column) (hinner : v.column < inner) :
    ∃ u, s.token = .ok u ∧ AtColon u v k (.scalar t (style true tag t = .plain)) key.length := by
  have hinline : IsInline key := (visible_scalar hw |>.mono (by simp [hm])).isInline
  have hindent : v.indents.headD (-1) = s.indent := by rw [← hs.indents, List.headD_cons]
  have hflow : (s.flow != 0) = false := by rw [hs.flow]; rfl
  -- between either kind of quotation marks a key is read the same way
  have hquoted (q : Char) (hq : q = '\'' ∨ q = '"') (b : Text)
      (hkey : key = CodePoint.ofChar q :: (b ++ [CodePoint.ofChar q]))
      (hread : ∃ m, Token.quoted (q = '"') s.cursor =
        .ok (⟨.scalar t false, s.cursor.mark, m⟩, s.cursor.skip (b.length + 2))) :
      ∃ u, s.token = .ok u ∧ AtColon u v k (.scalar t false) key.length := by
    obtain ⟨m, hm⟩ := hread
    have htoken : s.token = s.property (Token.quoted (q = '"')) := by
      rw [token_sign (hs.now (hrest.trans (by rw [hkey]; rfl))) (by rcases hq with rfl | rfl <;> decide)]
      rcases hq with rfl | rfl <;> rfl
    have hlen : b.length + 2 = key.length := by simp [hkey]
    rw [htoken, property, hs.saveKey_allowed hka]
    simp only [bind, Except.bind, hm, hlen]
    exact ⟨_, rfl, hs.atColon hrest hinline ⟨.scalar t false, s.cursor.mark, m⟩⟩
  unfold ScalarBody at hw
  rw [Bool.not_false] at hw
  cases hstyle : style true tag t with
  | plain =>
    rw [hstyle] at hw
    have hp := (style_eq_plain hstyle).2.1
    have hwords := Token.words_of_allowsPlain hw hp ht
    obtain ⟨m, hread⟩ : ∃ m, Token.plain false s.indent s.cursor =
        ((⟨.scalar t true, s.cursor.mark, m⟩, false), s.cursor.skip key.length) :=
      Token.plain_key hwords (by omega) (by omega) hspace (hs.rest.trans hrest)
        (by rw [hs.column, ← hindent]; exact hin)
    rw [token_of_plain hs hrest hwords hp (.inr ⟨k, rfl, hspace⟩), Scan.plain, hs.saveKey_allowed hka]
    simp only [bind, Except.bind, hflow, hread]
    exact ⟨_, rfl, hs.atColon hrest hinline ⟨.scalar t true, s.cursor.mark, m⟩⟩
  | single =>
    rw [hstyle] at hw
    obtain ⟨b, hb, rfl⟩ := hw
    refine hquoted '\'' (.inl rfl) b rfl ?_
    have hread := Token.quoted_single (by omega) hb (style_eq_single hstyle).1
      (k := CodePoint.ofChar ':' :: k) (by simp) (hs.rest.trans hrest)
    rwa [heardSingle_eq_self hm] at hread
  | double =>
    rw [hstyle] at hw
    obtain ⟨b, hb, rfl⟩ := hw
    refine hquoted '"' (.inr rfl) b rfl ?_
    simpa using Token.quoted_double (by omega) hb (hs.rest.trans hrest)

section Colon

variable {kind : TokenKind} {n : Nat}

lemma AtColon.dropStale_of_le (h : AtColon s v k kind n) (hn : n ≤ keyLimit) : s.dropStale = .ok s := by
  obtain ⟨m, -, hmark, hkeys⟩ := h.keys
  have hfresh : ∀ x ∈ s.keys, s.isStale x.2 = false := by
    intro x hx
    rw [hkeys, List.mem_singleton] at hx
    have hle : ¬m.index + keyLimit < m.index + n := by omega
    simp [isStale, hx, hmark, hle]
  have hall : s.keys.filter (fun x => !s.isStale x.2) = s.keys :=
    List.filter_eq_self.mpr fun x hx => by rw [hfresh x hx]; rfl
  rw [dropStale, giveUp_eq (fun x hx hp => ?_), hall]
  rw [hfresh x hx] at hp
  cases hp

/-- A key that is too long is no key: that is a fault if nothing else can stand there. -/
lemma AtColon.dropStale_of_lt (h : AtColon s v k kind n) (hn : keyLimit < n) :
    (∃ fault, s.dropStale = .error fault) ∨ s.dropStale = .ok { s with keys := [] } := by
  obtain ⟨m, -, hmark, hkeys⟩ := h.keys
  have hlt : m.index + keyLimit < m.index + n := by omega
  have hstale : ∀ x ∈ s.keys, s.isStale x.2 = true := by
    intro x hx
    rw [hkeys, List.mem_singleton] at hx
    simp [isStale, hx, hmark, hlt]
  rw [dropStale]
  by_cases hreq : ∃ x ∈ s.keys, x.2.required = true
  · obtain ⟨x, hx, hreq⟩ := hreq
    left
    rw [giveUp]
    cases hfind : s.keys.find? fun x => s.isStale x.2 && x.2.required with
    | some x => exact ⟨_, rfl⟩
    | none => exact absurd (List.find?_eq_none.mp hfind x hx) (by simp [hstale x hx, hreq])
  · right
    have hnone : s.keys.filter (fun x => !s.isStale x.2) = [] :=
      List.filter_eq_nil_iff.mpr fun x hx => by rw [hstale x hx]; simp
    rw [giveUp_eq (fun x hx _ => Bool.not_eq_true _ ▸ fun hr => hreq ⟨x, hx, hr⟩), hnone]

/-- At the colon the tokens that begin the entry are put in front of the key. -/
lemma AtColon.value (h : AtColon s v k kind n) : ∃ u, s.value = .ok u ∧
    u.Shows ⟨k, v.column + n + 1, false, (v.opened .blockMappingStart).indents,
      (v.opened .blockMappingStart).kinds ++ [.key, kind, .value]⟩ := by
  obtain ⟨m, hcolumn, hmark, hkeys⟩ := h.keys
  obtain ⟨x, ts, htokens, rfl, hts⟩ := h.tokens
  have hindent : v.indents.headD (-1) = s.indent := by rw [← h.indents, List.headD_cons]
  have hlookup : s.keys.lookup s.flow =
      some ⟨v.kinds.length, decide (v.indents.headD (-1) = v.column), m⟩ := by rw [hkeys, h.flow]; rfl
  have hnone : s.keys.filter (fun x => x.1 != s.flow) = [] := by rw [hkeys, h.flow]; rfl
  have hplace : s.count - v.kinds.length = 1 := by rw [h.count]; omega
  have hlength : ts.length = v.kinds.length := by rw [← hts, List.length_map, List.length_reverse]
  have hnext := s.cursor.next_of_cons h.rest
  have hstop : s.cursor.next.mark.column = v.column + n + 1 := by
    rw [hnext, Cursor.mark_next_of_inline (by decide) (by decide), ← hcolumn]
    show s.mark.column + 1 = _
    rw [hmark]
  rw [Scan.value, hlookup]
  simp only [hnone, if_pos h.flow, indentTo, hcolumn]
  by_cases hlt : s.indent < v.column
  · rw [View.opened_of_lt (by rwa [hindent])]
    simp only [if_pos hlt, if_true]
    refine ⟨_, rfl, Cursor.rest_next h.rest, hstop, h.flow, rfl, ?_, rfl, ?_, ?_⟩
    · show (v.column : Int) :: s.indent :: s.outer = _
      rw [h.indents]
    · simp [pushSigns, push, splice, htokens, h.count, hlength]
    · simp [pushSigns, push, splice, hplace, htokens, hts]
  · rw [View.opened_eq_self (by rwa [hindent])]
    simp only [if_neg hlt, Bool.false_eq_true, if_false]
    refine ⟨_, rfl, Cursor.rest_next h.rest, hstop, h.flow, rfl, h.indents, rfl, ?_, ?_⟩
    · simp [pushSigns, push, splice, htokens, h.count, hlength]
    · simp [pushSigns, push, splice, hplace, htokens, hts]

lemma unwind_eq_self (h : s.indent ≤ s.column) : s.unwind s.column = s := by
  rw [unwind]
  split_ifs
  · cases s.outer with
    | nil => rfl
    | cons o rest => rw [closeBlocks, if_neg (not_lt.mpr h)]
  · rfl

/-- A colon behind what may be a key. -/
lemma advance_colon {u : Scan} (hrest : s.cursor.rest = CodePoint.ofChar ':' :: k)
    (hspace : isSpaceOrEnd (k.headD CodePoint.nul) = true) (hdrop : s.dropStale = .ok u)
    (hcursor : u.cursor = s.cursor) (hcol : u.indent ≤ u.column) :
    s.advance = (do pure (← (← u.value).dropStale, false)) := by
  have hstarts : Starts (CodePoint.ofChar ':' :: k) := by
    simp [Starts]
    decide
  have hnext : s.toNext = s := toNext_blanks (n := 0) hrest hstarts
  have hrest' : u.cursor.rest = CodePoint.ofChar ':' :: k := hcursor ▸ hrest
  have hpeek : u.cursor.peek 1 = k.headD CodePoint.nul := by
    rw [Cursor.peek, hrest']
    cases k <;> rfl
  rw [advance, hnext, hdrop]
  show (if (u.unwind u.column).cursor.rest.isEmpty then _ else _) = _
  have hempty : u.cursor.rest.isEmpty = false := by rw [hrest']; rfl
  rw [unwind_eq_self hcol, hempty, if_neg Bool.false_ne_true,
    token_colon (u.cursor.now_of_cons hrest') (by rwa [hpeek])]

lemma AtColon.indent_le (h : AtColon s v k kind n) (hin : v.indents.headD (-1) ≤ v.column) :
    s.indent ≤ s.column := by
  obtain ⟨m, hcolumn, hmark, -⟩ := h.keys
  have hindent : v.indents.headD (-1) = s.indent := by rw [← h.indents, List.headD_cons]
  have hcol : s.column = ((m.column + n : Nat) : Int) := by
    rw [Scan.column, Cursor.column]
    exact congrArg (fun m : Mark => (m.column : Int)) hmark
  rw [hcol, hcolumn]
  omega

lemma AtColon.noEnd (h : AtColon s v k kind n) (hkind : kind ≠ .streamEnd) (hv : .streamEnd ∉ v.kinds) :
    ∀ x ∈ s.tokens, x.kind ≠ .streamEnd := by
  obtain ⟨x, ts, htokens, rfl, hts⟩ := h.tokens
  rw [htokens]
  intro y hy
  rcases List.mem_cons.mp hy with rfl | hy
  · exact hkind
  · intro hend
    refine hv ?_
    rw [← hts, ← hend]
    exact List.mem_map_of_mem (List.mem_reverse.mpr hy)

end Colon

lemma Here.noEnd (h : Here s v) (hv : .streamEnd ∉ v.kinds) : ∀ x ∈ s.tokens, x.kind ≠ .streamEnd := by
  intro x hx hend
  refine hv (h.2.1.subset ?_)
  rw [← hend]
  exact List.mem_map_of_mem (List.mem_reverse.mpr hx)

lemma length_colon_lt (ht : t ≠ []) (hw : ScalarBody false inner tag t key) :
    (CodePoint.ofChar ':' :: k).length < (key ++ CodePoint.ofChar ':' :: k).length := by
  obtain ⟨d, w, rfl, -⟩ := scalar_cons hw (fun _ => ht) []
  simp only [List.length_append, List.length_cons]
  omega

section Keys

variable (h : Here s v) (ht : t ≠ []) (hm : isMultiline t = false)
  (hw : ScalarBody false inner tag t key) (hrest : v.rest = key ++ CodePoint.ofChar ':' :: k)
  (hspace : isSpaceOrEnd (k.headD CodePoint.nul) = true) (hka : v.keyAllowed = true)
  (hin : v.indents.headD (-1) ≤ v.column) (hinner : v.column < inner)

include h ht hm hw hrest hspace hka hin hinner

/-- A key and its colon, if they are not too far from each other. -/
theorem Here.shortKey (hlen : key.length ≤ keyLimit) : ∃ u, Leads s u ∧
    u.Shows ⟨k, v.column + key.length + 1, false, (v.opened .blockMappingStart).indents,
      (v.opened .blockMappingStart).kinds ++
        [.key, .scalar t (style true tag t = .plain), .value]⟩ := by
  have hlength := length_colon_lt ht hw (k := k)
  obtain ⟨u, hsu, hu⟩ := h.step (P := fun u => AtColon u v k (.scalar t (style true tag t = .plain)) key.length)
    (by simp [hrest]) fun c hc => by
      obtain ⟨u, hu, hcolon⟩ := hc.token_key ht hm hw hrest hspace hka hin hinner
      refine ⟨u, ?_, ?_, hcolon⟩
      · rw [hu]
        exact hcolon.dropStale_of_le hlen
      · rw [hcolon.rest, hrest]
        exact hlength
  obtain ⟨w, hvalue, hshows⟩ := hu.value
  have hadvance := advance_colon hu.rest hspace (hu.dropStale_of_le hlen) rfl (hu.indent_le hin)
  rw [hvalue] at hadvance
  refine ⟨w, hsu.trans (.of_advance (hadvance.trans ?_) ?_), hshows⟩
  · show (w.dropStale >>= fun s => pure (s, false)) = _
    rw [hshows.dropStale]
    rfl
  · rw [hshows.rest, hu.rest]
    exact Nat.lt_succ_self _

/-- Too far from its colon a key is not read. -/
theorem Here.longKey (hlen : keyLimit < key.length) (hv : .streamEnd ∉ v.kinds) : Fails s := by
  have hlength := length_colon_lt ht hw (k := k)
  have hnoEnd := h.noEnd hv
  obtain ⟨hle, -, c, hadvance, hc⟩ := h
  have hempty : c.cursor.rest.isEmpty = false := by
    rw [hc.rest, hrest]
    simp
  rw [read, hempty, if_neg Bool.false_ne_true] at hadvance
  obtain ⟨u, hu, hcolon⟩ := hc.token_key ht hm hw hrest hspace hka hin hinner
  rw [hu] at hadvance
  rcases hcolon.dropStale_of_lt hlen with ⟨fault, hfault⟩ | hdrop
  · refine @Fails.of_advance _ fault ?_ hnoEnd
    rw [hadvance]
    show (u.dropStale >>= fun s => pure (s, false)) = _
    rw [hfault]
    rfl
  · have hnext : s.advance = .ok ({ u with keys := [] }, false) := by
      rw [hadvance]
      show (u.dropStale >>= fun s => pure (s, false)) = _
      rw [hdrop]
      rfl
    have hlt : ({ u with keys := [] } : Scan).cursor.rest.length < s.cursor.rest.length := by
      show u.cursor.rest.length < _
      rw [hcolon.rest]
      rw [hrest] at hle
      exact Nat.lt_of_lt_of_le hlength hle
    have hrequire : ({ u with keys := [] } : Scan).requireKeyAllowed .mappingValue =
        .error (.marked .scanning none .mappingValue u.mark) := by
      rw [requireKeyAllowed, if_pos]
      · rfl
      · exact ⟨hcolon.flow, by rw [hcolon.keyAllowed]; rfl⟩
    have hvalue : ({ u with keys := [] } : Scan).value = .error (.marked .scanning none .mappingValue u.mark) := by
      rw [Scan.value]
      show (requireKeyAllowed _ _ >>= _) = _
      rw [hrequire]
      rfl
    have herror := advance_colon (s := { u with keys := [] }) hcolon.rest hspace (giveUp_of_keys_eq_nil rfl) rfl
      (hcolon.indent_le hin)
    rw [hvalue] at herror
    exact (Leads.of_advance hnext hlt).fails (.of_advance herror (hcolon.noEnd (by simp) hv))

end Keys

end Scan

end DocPath.Yaml
