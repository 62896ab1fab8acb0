import DocPath.Proofs.Yaml.Readers
import DocPath.Proofs.Yaml.Scan

/-! A scan gets to the end of a text or to a fault: every token takes a code point at least, so that the fuel is
enough. -/

namespace DocPath.Yaml

open Cursor

namespace Scan

variable {source : Text} {s t u : Scan}

/-- Tokens may have come in, but nothing was read. -/
structure Stays (s t : Scan) : Prop where
  cursor : t.cursor = s.cursor
  tokens : s.tokens.length ≤ t.tokens.length

/-- A code point at least was read. -/
structure Passes (s t : Scan) : Prop where
  cursor : s.cursor.next.Ahead t.cursor
  tokens : s.tokens.length ≤ t.tokens.length

lemma Stays.refl : s.Stays s := ⟨rfl, le_rfl⟩

lemma Stays.trans (h : s.Stays t) (h' : t.Stays u) : s.Stays u :=
  ⟨h'.cursor.trans h.cursor, h.tokens.trans h'.tokens⟩

lemma Stays.passes (h : s.Stays t) (h' : t.Passes u) : s.Passes u :=
  ⟨h.cursor ▸ h'.cursor, h.tokens.trans h'.tokens⟩

lemma Passes.stays (h : s.Passes t) (h' : t.Stays u) : s.Passes u :=
  ⟨h'.cursor.symm ▸ h.cursor, h.tokens.trans h'.tokens⟩

section Keys

/-- Nothing but what is known of possible keys has changed. -/
def Rekeys (s t : Scan) : Prop := ∃ keys, t = { s with keys := keys }

lemma Rekeys.stays (h : s.Rekeys t) : s.Stays t := by
  obtain ⟨keys, rfl⟩ := h
  exact ⟨rfl, le_rfl⟩

lemma rekeys_giveUp (p : Int × SimpleKey → Bool) : Reads source (s.giveUp p) s.Rekeys := by
  rw [giveUp]
  split
  · exact reads_fail
  · exact .ok ⟨_, rfl⟩

lemma rekeys_saveKey : Reads source s.saveKey s.Rekeys := by
  rw [saveKey]
  split_ifs
  · refine .bind (rekeys_giveUp _) fun t ht => .ok ?_
    obtain ⟨keys, rfl⟩ := ht
    exact ⟨_, rfl⟩
  · exact .ok ⟨s.keys, rfl⟩

lemma reads_dropKey : Reads source s.dropKey s.Stays := (rekeys_giveUp _).mono fun _ h => h.stays

lemma reads_dropStale : Reads source s.dropStale s.Stays := (rekeys_giveUp _).mono fun _ h => h.stays

lemma reads_saveKey : Reads source s.saveKey s.Stays := rekeys_saveKey.mono fun _ h => h.stays

lemma reads_requireKeyAllowed {problem : Problem} : Reads source (s.requireKeyAllowed problem) fun _ => True := by
  rw [requireKeyAllowed]
  split_ifs
  · exact .marked rfl
  · exact .ok trivial

end Keys

section Blocks

lemma stays_push (token : Token) : s.Stays (s.push token) := ⟨rfl, Nat.le_succ _⟩

lemma stays_closeBlocks (column : Int) (outer : List Int) : s.Stays (closeBlocks column s outer) := by
  induction outer generalizing s with
  | nil => exact .refl
  | cons i rest ih =>
    rw [closeBlocks]
    split_ifs
    · have hrest := ih (s := { s.pushAt .blockEnd s.mark with indent := i, outer := rest })
      exact ⟨hrest.cursor, Nat.le_of_succ_le hrest.tokens⟩
    · exact .refl

lemma stays_unwind (column : Int) : s.Stays (s.unwind column) := by
  rw [unwind]
  split_ifs
  · exact stays_closeBlocks column _
  · exact .refl

lemma stays_indentTo (column : Int) : s.Stays (s.indentTo column).1 := by
  rw [indentTo]
  split_ifs
  · exact ⟨rfl, le_rfl⟩
  · exact .refl

lemma stays_openBlock (kind : TokenKind) : s.Stays (s.openBlock kind) := by
  have hindent := stays_indentTo (s := s) s.column
  rw [openBlock]
  generalize s.indentTo s.column = p at hindent ⊢
  obtain ⟨t, grown⟩ := p
  dsimp only at hindent ⊢
  split_ifs
  · exact hindent.trans (stays_push _)
  · exact hindent

lemma stays_openBlock_if (kind : TokenKind) : s.Stays (if s.flow = 0 then s.openBlock kind else s) := by
  split_ifs
  · exact stays_openBlock kind
  · exact .refl

lemma stays_splice (number : Nat) (kinds : List TokenKind) (m : Mark) : s.Stays (s.splice number kinds m) := by
  refine ⟨rfl, ?_⟩
  have hlength := congrArg List.length (List.take_append_drop (s.count - number) s.tokens)
  rw [List.length_append] at hlength
  simp only [splice, List.length_append]
  omega

end Blocks

section Readers

lemma Stays.pushSigns {kind : TokenKind} {n : Nat} (h : s.Stays t) (hn : 0 < n) : s.Passes (t.pushSigns kind n) := by
  obtain ⟨n, rfl⟩ := Nat.exists_eq_add_one.mpr hn
  exact h.passes ⟨ahead_skip n, Nat.le_succ _⟩

lemma reads_push {keyAllowed : Bool} {r : Except Fault (Token × Cursor)} (hr : Reads source r (Token.Behind s.cursor.next)) :
    Reads source (do
      let (token, stop) ← r
      pure { s.push token with cursor := stop, keyAllowed := keyAllowed }) s.Passes :=
  .bind hr fun _ hp => .ok ⟨hp, Nat.le_succ _⟩

lemma reads_directive : Reads source s.directive s.Passes :=
  .bind reads_dropKey fun _ ht => (reads_push Token.reads_directive).mono fun _ hu =>
    ((stays_unwind _).trans ht).passes hu

lemma reads_separator (kind : TokenKind) : Reads source (s.separator kind) s.Passes := by
  refine .bind reads_dropKey fun t ht => .ok ?_
  have hs := (stays_unwind (-1)).trans ht
  exact Stays.pushSigns ⟨hs.cursor, hs.tokens⟩ (by decide)

lemma reads_openFlow (kind : TokenKind) : Reads source (s.openFlow kind) s.Passes := by
  refine .bind reads_saveKey fun t ht => .ok ?_
  exact Stays.pushSigns ⟨ht.cursor, ht.tokens⟩ (by decide)

lemma reads_closeFlow (kind : TokenKind) : Reads source (s.closeFlow kind) s.Passes := by
  refine .bind reads_dropKey fun t ht => .ok ?_
  exact Stays.pushSigns ⟨ht.cursor, ht.tokens⟩ (by decide)

lemma reads_flowEntry : Reads source s.flowEntry s.Passes := by
  refine .bind reads_dropKey fun t ht => .ok ?_
  exact Stays.pushSigns ⟨ht.cursor, ht.tokens⟩ (by decide)

lemma reads_sign {problem : Problem} (opening kind : TokenKind) (keyAllowed : Scan → Bool) :
    Reads source (do
      s.requireKeyAllowed problem
      let s := if s.flow = 0 then s.openBlock opening else s
      let s ← s.dropKey
      pure ({ s with keyAllowed := keyAllowed s }.pushSigns kind 1)) s.Passes := by
  refine .bind reads_requireKeyAllowed fun _ _ => .bind reads_dropKey fun t ht => .ok ?_
  have hs := (stays_openBlock_if opening).trans ht
  exact Stays.pushSigns ⟨hs.cursor, hs.tokens⟩ (by decide)

lemma reads_blockEntry : Reads source s.blockEntry s.Passes := reads_sign _ _ _

lemma reads_key : Reads source s.key s.Passes := reads_sign _ _ fun s => s.flow == 0

lemma reads_value : Reads source s.value s.Passes := by
  rw [value]
  split
  · next key _ =>
    have hnoted : s.Stays { s with keys := s.keys.filter fun k => k.1 != s.flow, keyAllowed := false } := ⟨rfl, le_rfl⟩
    dsimp only
    split
    · exact .ok (Stays.pushSigns ((hnoted.trans (stays_indentTo _)).trans (stays_splice _ _ _)) (by decide))
    · exact .ok (Stays.pushSigns (hnoted.trans (stays_splice _ _ _)) (by decide))
  · exact reads_sign _ _ fun s => s.flow == 0

/-- What may be the beginning of a key: `read` is asked behind where the key is noted. -/
lemma reads_property {read : Reader Token} (hread : Reads source (read s.cursor) (Token.Behind s.cursor.next)) :
    Reads source (s.property read) s.Passes :=
  .bind reads_saveKey fun _ ht =>
    (reads_push (by rw [ht.cursor]; exact hread)).mono fun _ hu => ht.passes hu

lemma reads_blockScalar (folded : Bool) : Reads source (s.blockScalar folded) s.Passes :=
  .bind reads_dropKey fun _ ht => (reads_push Token.reads_blockScalar).mono fun _ hu => ht.passes hu

/-- A plain scalar begins with a word: with no sign, or with one that something other than a space follows. -/
lemma wordLength_of_startsPlain (h : s.startsPlain = true) :
    s.cursor.now ≠ '#' ∧ Token.wordLength (s.flow != 0) s.cursor.rest ≠ 0 := by
  have hword {flow : Bool} {d : CodePoint} {rest : Text} (hspace : isSpaceOrEnd d = false)
      (hflow : (flow && (Token.isFlowSign d || d.is '?')) = false)
      (hcolon : ¬(d = ':' ∧ Token.endsKey flow (rest.headD CodePoint.nul))) : Token.wordLength flow (d :: rest) ≠ 0 := by
    rw [Token.wordLength, hspace, hflow, if_neg (by decide), if_neg hcolon]
    exact Nat.succ_ne_zero _
  simp only [startsPlain, Bool.or_eq_true, Bool.and_eq_true, Bool.not_eq_true', beq_iff_eq, CodePoint.is] at h
  rw [← Bool.not_eq_true (Text.contains _ _), Text.contains_singleton] at h
  cases hrest : s.cursor.rest with
  | nil =>
    rw [now_of_nil s.cursor hrest] at h
    rcases h with ⟨hspace, -⟩ | ⟨-, hsign | ⟨-, hsign | hsign⟩⟩
    · exact absurd hspace (by decide)
    · exact absurd hsign (by decide)
    · exact absurd hsign (by decide)
    · exact absurd hsign (by decide)
  | cons d rest =>
    have hpeek : s.cursor.peek 1 = rest.headD CodePoint.nul := by
      rw [peek, hrest]
      cases rest <;> rfl
    rw [now_of_cons s.cursor hrest, hpeek] at h
    rw [now_of_cons s.cursor hrest]
    rcases h with ⟨hspace, hsign⟩ | ⟨hspace, rfl | ⟨hflow, rfl | rfl⟩⟩
    · have hne {x : Char} (hx : CodePoint.ofChar x ∈ Text.ofString "-?:,[]\x7b\x7d#&*!|>'\"%@\x60") :
          d ≠ CodePoint.ofChar x := fun heq => hsign (heq ▸ hx)
      have hsigns : Text.ofString ",[]\x7b\x7d" ⊆ Text.ofString "-?:,[]\x7b\x7d#&*!|>'\"%@\x60" := by decide
      have hflow : Token.isFlowSign d = false := by
        rw [← Bool.not_eq_true, Token.isFlowSign, Text.contains_singleton]
        exact fun hd => hsign (hsigns hd)
      refine ⟨hne (by decide), hword hspace ?_ fun hcolon => hne (by decide) hcolon.1⟩
      rw [hflow, CodePoint.is, beq_eq_false_iff_ne.mpr (hne (by decide)), Bool.or_self, Bool.and_false]
    · exact ⟨by decide, hword rfl (Bool.and_false _) fun hcolon => absurd hcolon.1 (by decide)⟩
    · exact ⟨by decide, hword rfl (by simp [hflow]) fun hcolon => absurd hcolon.1 (by decide)⟩
    · refine ⟨by decide, hword rfl (by simp [hflow]) fun hcolon => absurd hcolon.2 ?_⟩
      simp only [Token.endsKey, hspace, hflow, Bool.false_or, bne_self_eq_false, Bool.false_and, Bool.false_eq_true,
        not_false_eq_true]

lemma reads_plain (h : s.startsPlain = true) : Reads source s.plain s.Passes := by
  obtain ⟨hsign, hword⟩ := wordLength_of_startsPlain h
  refine .bind rekeys_saveKey fun t ht => .ok (ht.stays.passes ?_)
  obtain ⟨keys, rfl⟩ := ht
  exact ⟨Token.ahead_plain hsign hword, Nat.le_succ _⟩

lemma reads_token (hs : s.cursor.rest <:+ source) : Reads source s.token s.Passes := by
  rw [token]
  refine .ite (fun _ => reads_directive) fun _ => ?_
  refine .ite (fun _ => reads_separator _) fun _ => ?_
  refine .ite (fun _ => reads_separator _) fun _ => ?_
  refine .ite (fun _ => reads_openFlow _) fun _ => ?_
  refine .ite (fun _ => reads_openFlow _) fun _ => ?_
  refine .ite (fun _ => reads_closeFlow _) fun _ => ?_
  refine .ite (fun _ => reads_closeFlow _) fun _ => ?_
  refine .ite (fun _ => reads_flowEntry) fun _ => ?_
  refine .ite (fun _ => reads_blockEntry) fun _ => ?_
  refine .ite (fun _ => reads_key) fun _ => ?_
  refine .ite (fun _ => reads_value) fun _ => ?_
  refine .ite (fun _ => reads_property Token.reads_anchor) fun _ => ?_
  refine .ite (fun _ => reads_property Token.reads_tag) fun _ => ?_
  refine .ite (fun _ => reads_blockScalar _) fun _ => ?_
  refine .ite (fun _ => reads_blockScalar _) fun _ => ?_
  refine .ite (fun _ => reads_property (Token.reads_quoted hs)) fun _ => ?_
  refine .ite (fun _ => reads_property (Token.reads_quoted hs)) fun _ => ?_
  exact .ite reads_plain fun _ => .marked rfl

end Readers

lemma toNext_spec : s.cursor.Ahead s.toNext.cursor ∧ s.toNext.tokens = s.tokens := by
  have hgaps (fuel : Nat) (t : Scan) : t.cursor.Ahead (skipGaps fuel t).cursor ∧ (skipGaps fuel t).tokens = t.tokens := by
    induction fuel generalizing t with
    | zero => exact ⟨.refl, rfl⟩
    | succ fuel ih =>
      have hgap := (ahead_skipWhile (c := t.cursor) (· == (CodePoint.ofChar ' '))).trans ahead_skipComment
      rw [skipGaps]
      split_ifs
      · exact ⟨hgap.trans (ahead_lineBreak.trans (ih _).1), (ih _).2⟩
      · exact ⟨hgap, rfl⟩
  rw [toNext]
  split_ifs
  · exact ⟨ahead_next.trans (hgaps _ _).1, (hgaps _ _).2⟩
  · exact hgaps _ _

/-- The last token marks the end of the text. -/
def Ended (tokens : List Token) : Prop := ∃ last rest, tokens = last :: rest ∧ last.kind = .streamEnd ∧ 0 < rest.length

/-- What reading up to and including the next token comes to: the end, or less text that is left. -/
def Goes (source : Text) (s : Scan) : Scan × Bool → Prop
  | (t, true) => Ended t.tokens
  | (t, false) =>
    t.cursor.rest <:+ source ∧ t.cursor.rest.length < s.cursor.rest.length ∧ 0 < t.tokens.length

lemma reads_finish (hne : 0 < s.tokens.length) : Reads source s.finish fun t => Ended t.tokens :=
  .bind reads_dropKey fun _ ht => .ok ⟨_, _, rfl, rfl, hne.trans_le ((stays_unwind _).trans ht).tokens⟩

lemma reads_advance (hs : s.cursor.rest <:+ source) (hne : 0 < s.tokens.length) : Reads source s.advance (Goes source s) := by
  rw [advance]
  refine .bind reads_dropStale fun t ht => ?_
  have hstays := ht.trans (stays_unwind t.column)
  have hahead : s.cursor.Ahead (t.unwind t.column).cursor := hstays.cursor ▸ toNext_spec.1
  have htokens : 0 < (t.unwind t.column).tokens.length := hne.trans_le (toNext_spec.2 ▸ hstays.tokens)
  refine .ite (fun _ => .bind (reads_finish htokens) fun u hu => .ok hu) fun hempty => ?_
  refine .bind (reads_token (List.IsSuffix.trans hahead hs)) fun u hu => .bind reads_dropStale fun v hv => .ok ?_
  have hpasses := hu.stays hv
  refine ⟨List.IsSuffix.trans (hahead.trans (ahead_next.trans hpasses.cursor)) hs, ?_, htokens.trans_le hpasses.tokens⟩
  exact (hpasses.cursor.length_lt fun hnil => hempty (hnil ▸ rfl)).trans_le hahead.length_le

end Scan

namespace Tokens

variable {source : Text}

/-- Tokens are all tokens of a text, the last of which marks its end, or come with a fault. -/
def Told (source : Text) (ts : Tokens) : Prop :=
  match ts.fault with
  | some fault => ScanFault source fault
  | none => ∃ first inner last, ts.tokens = first :: (inner ++ [last]) ∧ last.kind = .streamEnd

lemma told_of_ended {tokens : List Token} (h : Scan.Ended tokens) : Told source ⟨tokens.reverse, none⟩ := by
  obtain ⟨last, rest, rfl, hkind, hrest⟩ := h
  cases hreverse : rest.reverse with
  | nil => exact absurd (List.reverse_eq_nil_iff.mp hreverse) (List.ne_nil_of_length_pos hrest)
  | cons first inner => exact ⟨first, inner, last, by rw [List.reverse_cons, hreverse, List.cons_append], hkind⟩

lemma told_scanFrom (fuel : Nat) {s : Scan} (hs : s.cursor.rest <:+ source) (hne : 0 < s.tokens.length)
    (hfuel : s.cursor.rest.length < fuel) : Told source (scanFrom fuel s) := by
  induction fuel generalizing s with
  | zero => exact absurd hfuel (Nat.not_lt_zero _)
  | succ fuel ih =>
    have hadvance := Scan.reads_advance hs hne
    rw [Scan.scanFrom_succ]
    cases hs' : s.advance with
    | error fault =>
      rw [hs'] at hadvance
      exact hadvance
    | ok p =>
      rw [hs'] at hadvance
      obtain ⟨t, last⟩ := p
      cases last with
      | true => exact told_of_ended hadvance
      | false =>
        obtain ⟨hsuffix, hless, htokens⟩ := hadvance
        exact ih hsuffix htokens (hless.trans_le (Nat.le_of_lt_succ hfuel))

theorem told_scan (source : Text) : Told source (scan source) := by
  rw [scan]
  refine told_scanFrom _ (List.suffix_refl _) Nat.one_pos ?_
  exact Nat.lt_succ_of_lt (Nat.lt_succ_self source.length)

end Tokens

end DocPath.Yaml
