import DocPath.Proofs.Number.Numeral
import DocPath.Proofs.Yaml.Cursor
import DocPath.Proofs.Yaml.Naming
import DocPath.Yaml.Tokens
import Mathlib.Data.List.TakeWhile

/-! What reading a token comes to, whatever the text: a place further on in it, or one of few faults. -/

namespace DocPath.Yaml

/-- A text has an escape of eight hexadecimal digits for a number. -/
def Escapes (source : Text) (n : Nat) : Prop :=
  ∃ digits : Text, [CodePoint.ofChar '\\', CodePoint.ofChar 'U'] ++ digits <:+: source ∧ digits.length = 8 ∧
    (∀ d ∈ digits, d.isHexDigit = true) ∧ Numeral.value 16 digits = n

/-- What can be wrong with the tokens of a text. -/
inductive ScanFault (source : Text) : Fault → Prop
  | marked {fault : Fault} (h : fault.isMarked = true) : ScanFault source fault
  | number (fault : NumeralFault) : ScanFault source (.number fault)
  | noCodePoint {n : Nat} (h : Escapes source n) : ScanFault source (.noCodePoint n)

/-- Reading gives what has a property, or a fault that can be expected. -/
abbrev Reads (source : Text) {α : Type} (r : Except Fault α) (post : α → Prop) : Prop :=
  Settles (ScanFault source) post r

section Faults

variable {source : Text} {α : Type} {p : α → Prop} {c : Cursor} {context : Context} {start : Mark}

lemma reads_fail {problem : Problem} : Reads source (c.fail context start problem) p := .marked rfl

lemma reads_want {wanted : Wanted} : Reads source (c.want context start wanted) p := .marked rfl

end Faults

namespace Cursor

variable {c : Cursor}

/-- A place from which on there is no more text than from another. -/
def Ahead (c c' : Cursor) : Prop := c'.rest <:+ c.rest

lemma Ahead.refl : c.Ahead c := List.suffix_refl _

lemma Ahead.trans {c' c'' : Cursor} (h : c.Ahead c') (h' : c'.Ahead c'') : c.Ahead c'' := List.IsSuffix.trans h' h

lemma ahead_skip (n : Nat) : c.Ahead (c.skip n) := by
  rw [Ahead, skip_rest]
  exact List.drop_suffix n c.rest

lemma ahead_next : c.Ahead c.next := ahead_skip 1

lemma ahead_skipWhile (p : CodePoint → Bool) : c.Ahead (c.skipWhile p) := by
  rw [skipWhile_eq_skip]
  exact ahead_skip _

lemma ahead_skipComment : c.Ahead c.skipComment := by
  rw [skipComment]
  split_ifs
  · exact ahead_skipWhile _
  · exact .refl

lemma ahead_lineBreak : c.Ahead c.lineBreak.2 := by
  rw [lineBreak]
  split_ifs
  · exact .refl
  · exact ahead_skip 2
  · exact ahead_next
  · exact ahead_next

lemma ahead_skipBlanks (limit : Nat) : c.Ahead (c.skipBlanks limit) := by
  have hpass (m : Mark) (t : Text) : (passBlanks limit m t).rest <:+ t := by
    induction t generalizing m with
    | nil => exact List.suffix_refl _
    | cons d t ih =>
      rw [passBlanks]
      split_ifs
      · exact (ih _).trans (List.suffix_cons d t)
      · exact List.suffix_refl _
  exact hpass c.mark c.rest

lemma rest_of_now {d : CodePoint} (h : c.now = d) (hd : d ≠ CodePoint.nul) : c.rest = d :: c.next.rest := by
  cases hc : c.rest with
  | nil => exact absurd (h.symm.trans (now_of_nil c hc)) hd
  | cons e rest => rw [rest_next hc, ← h, now_of_cons c hc]

lemma Ahead.length_lt {c' : Cursor} (h : c.next.Ahead c') (hne : c.rest ≠ []) : c'.rest.length < c.rest.length := by
  have hle := List.IsSuffix.length_le h
  rw [next_rest, List.length_drop] at hle
  have hpos := List.length_pos_iff.mpr hne
  omega

end Cursor

namespace Token

open Cursor

variable {source : Text} {c : Cursor}

/-- The place behind what was read is further on. -/
def Behind (c : Cursor) {α : Type} (p : α × Cursor) : Prop := c.Ahead p.2

lemma Behind.after {c' : Cursor} {α : Type} {p : α × Cursor} (hp : Behind c' p) (h : c.Ahead c') : Behind c p := h.trans hp

section Properties

variable {place : Place} {start : Mark}

lemma reads_anchor : Reads source (anchor c) (Behind c.next) := by
  rw [anchor]
  split_ifs
  · exact reads_want
  · exact reads_want
  · exact .ok (ahead_skipWhile _)
  · exact .ok (ahead_skipWhile _)

lemma reads_handle : Reads source (handle place start c) (Behind c.next) := by
  rw [handle]
  dsimp only
  split_ifs
  · exact reads_want
  · exact .ok .refl
  · exact reads_want
  · exact .ok ((ahead_skipWhile _).trans ahead_next)

lemma reads_escapedBytes (fuel : Nat) : Reads source (escapedBytes place start fuel c) (Behind c) := by
  induction fuel generalizing c with
  | zero => exact .ok .refl
  | succ fuel ih =>
    rw [escapedBytes]
    dsimp only
    split_ifs
    · exact .ok .refl
    · exact reads_fail
    · exact reads_fail
    · exact .bind ih fun p hp => .ok (hp.after (ahead_next.trans (ahead_skip 2)))

lemma reads_addressPieces (fuel : Nat) : Reads source (addressPieces place start fuel c) (Behind c) := by
  induction fuel generalizing c with
  | zero => exact .ok .refl
  | succ fuel ih =>
    rw [addressPieces]
    split_ifs
    · exact .bind ih fun p hp => .ok (hp.after (ahead_skipWhile _))
    · refine .bind (reads_escapedBytes _) fun p hp => ?_
      obtain ⟨bytes, behind⟩ := p
      dsimp only
      split
      · exact reads_fail
      · exact .bind ih fun q hq => .ok (hq.after hp)
    · exact .ok .refl

lemma reads_address : Reads source (address place start c) (Behind c) := by
  rw [address]
  refine .bind (reads_addressPieces _) fun p hp => ?_
  obtain ⟨pieces, stop⟩ := p
  dsimp only
  split_ifs
  · exact reads_want
  · exact .ok hp

lemma reads_tagName : Reads source (tagName start c) (Behind c.next) := by
  rw [tagName]
  split_ifs
  · refine .bind reads_address fun p hp => ?_
    obtain ⟨suffix, stop⟩ := p
    dsimp only
    split_ifs
    · exact reads_want
    · exact .ok (ahead_next.trans (Ahead.trans hp ahead_next))
  · exact .ok .refl
  · exact .bind reads_handle fun p hp => .bind reads_address fun q hq => .ok (hq.after hp)
  · exact .bind reads_address fun p hp => .ok hp

lemma reads_tag : Reads source (tag c) (Behind c.next) := by
  rw [tag]
  refine .bind reads_tagName fun p hp => ?_
  obtain ⟨⟨name, suffix⟩, stop⟩ := p
  dsimp only
  split_ifs
  · exact reads_want
  · exact .ok hp

end Properties

section Directives

variable {start : Mark}

lemma reads_directiveName : Reads source (directiveName start c) (Behind c) := by
  rw [directiveName]
  split_ifs
  · exact reads_want
  · exact .ok (ahead_skipWhile _)

lemma reads_versionNumber : Reads source (versionNumber start c) (Behind c) := by
  rw [versionNumber]
  split_ifs
  · exact reads_want
  · split
    · exact .number _
    · exact .ok (ahead_skipWhile _)

lemma reads_version : Reads source (version start c) (Behind c) := by
  rw [version]
  refine .bind reads_versionNumber fun p hp => ?_
  obtain ⟨major, point⟩ := p
  dsimp only
  split_ifs
  · exact reads_want
  · refine .bind reads_versionNumber fun q hq => ?_
    obtain ⟨minor, stop⟩ := q
    dsimp only
    split_ifs
    · exact reads_want
    · exact .ok ((ahead_skipWhile _).trans (Ahead.trans hp (ahead_next.trans hq)))

lemma reads_handleDefinition : Reads source (handleDefinition start c) (Behind c) := by
  rw [handleDefinition]
  refine .bind reads_handle fun p hp => ?_
  obtain ⟨name, behind⟩ := p
  dsimp only
  split_ifs
  · exact reads_want
  · refine .bind reads_address fun q hq => ?_
    obtain ⟨target, stop⟩ := q
    dsimp only
    split_ifs
    · exact reads_want
    · exact .ok ((ahead_skipWhile _).trans (ahead_next.trans (Ahead.trans hp ((ahead_skipWhile _).trans hq))))

lemma reads_emptyRest {context : Context} : Reads source (emptyRest context start c) c.Ahead := by
  rw [emptyRest]
  split_ifs
  · exact .ok ((ahead_skipWhile _).trans (ahead_skipComment.trans ahead_lineBreak))
  · exact reads_want

lemma reads_directive : Reads source (directive c) (Behind c.next) := by
  rw [directive]
  refine .bind reads_directiveName fun p hp => ?_
  obtain ⟨name, behind⟩ := p
  dsimp only
  split_ifs
  · exact .bind reads_version fun q hq => .bind reads_emptyRest fun stop hstop => .ok (Ahead.trans hp (Ahead.trans hq hstop))
  · exact .bind reads_handleDefinition fun q hq =>
      .bind reads_emptyRest fun stop hstop => .ok (Ahead.trans hp (Ahead.trans hq hstop))
  · exact .bind reads_emptyRest fun stop hstop => .ok (Ahead.trans hp ((ahead_skipWhile _).trans hstop))

end Directives

section Blocks

variable {start stop : Mark} {folded : Bool}

lemma reads_indentation : Reads source (indentation start c) (Behind c) := by
  rw [indentation]
  split_ifs
  · exact reads_fail
  · exact .ok ahead_next
  · exact .ok .refl

lemma reads_blockIndicators : Reads source (blockIndicators start c) (Behind c) := by
  have hend {result : Chomping × Option Nat} {stop : Cursor} (h : c.Ahead stop) :
      Reads source (if isBlankOrEnd stop.now then pure (result, stop)
        else stop.want .blockScalar start .blockIndicators) (Behind c) := by
    split_ifs
    · exact .ok h
    · exact reads_want
  rw [blockIndicators]
  split
  · exact .bind reads_indentation fun p hp => hend (ahead_next.trans hp)
  · refine .bind reads_indentation fun p hp => ?_
    obtain ⟨indent, behind⟩ := p
    dsimp only
    split
    · exact hend (Ahead.trans hp ahead_next)
    · exact hend hp

lemma ahead_leadingBreaks (fuel widest : Nat) (stop : Mark) : c.Ahead (leadingBreaks fuel widest stop c).2 := by
  induction fuel generalizing c widest stop with
  | zero => exact .refl
  | succ fuel ih =>
    rw [leadingBreaks]
    split_ifs
    · exact ahead_next.trans (ih _ _)
    · exact ahead_lineBreak.trans (ih _ _)
    · exact .refl

lemma ahead_breaksBetween (indent fuel : Nat) (stop : Mark) : c.Ahead (breaksBetween indent fuel stop c).2 := by
  induction fuel generalizing c stop with
  | zero => exact .refl
  | succ fuel ih =>
    rw [breaksBetween]
    dsimp only
    split_ifs
    · exact (ahead_skipBlanks _).trans (ahead_lineBreak.trans (ih _))
    · exact ahead_skipBlanks _

lemma ahead_blockLines (indent fuel : Nat) (breaks : Text) (stop : Mark) :
    c.Ahead (blockLines folded indent fuel breaks stop c).2 := by
  induction fuel generalizing c breaks stop with
  | zero => exact .refl
  | succ fuel ih =>
    have hline : c.Ahead (c.skipWhile (!isBreakOrEnd ·)).lineBreak.2 := (ahead_skipWhile _).trans ahead_lineBreak
    rw [blockLines]
    split
    · generalize (c.skipWhile (!isBreakOrEnd ·)).lineBreak = first at hline ⊢
      obtain ⟨ending, behind⟩ := first
      have hnext := hline.trans (ahead_breaksBetween indent (behind.rest.length + 1) behind.mark)
      dsimp only at hnext ⊢
      generalize breaksBetween indent (behind.rest.length + 1) behind.mark behind = second at hnext ⊢
      obtain ⟨⟨between, last⟩, next⟩ := second
      dsimp only at hnext ⊢
      split
      · exact hnext.trans (ih between last)
      · exact hnext
    · exact .refl

lemma reads_blockScalar {outer : Int} : Reads source (blockScalar folded outer c) (Behind c.next) := by
  rw [blockScalar]
  refine .bind reads_blockIndicators fun p hp => ?_
  obtain ⟨⟨chomping, increment⟩, behind⟩ := p
  refine .bind reads_emptyRest fun body hbody => ?_
  have hbehind : c.next.Ahead body := Ahead.trans hp hbody
  cases increment with
  | none =>
    have hfirst := hbehind.trans (ahead_leadingBreaks (body.rest.length + 1) 0 body.mark)
    dsimp only
    generalize leadingBreaks (body.rest.length + 1) 0 body.mark body = first at hfirst ⊢
    exact .ok (Ahead.trans hfirst (ahead_blockLines _ _ _ _))
  | some n =>
    have hfirst := hbehind.trans (ahead_breaksBetween ((max (outer + 1) 1).toNat + n - 1) (body.rest.length + 1) body.mark)
    dsimp only
    generalize breaksBetween ((max (outer + 1) 1).toNat + n - 1) (body.rest.length + 1) body.mark body = first at hfirst ⊢
    exact .ok (Ahead.trans hfirst (ahead_blockLines _ _ _ _))

end Blocks

section Plains

variable {flow : Bool}

lemma ahead_plainBreaks (fuel : Nat) : c.Ahead (plainBreaks fuel c).2 := by
  induction fuel generalizing c with
  | zero => exact .refl
  | succ fuel ih =>
    rw [plainBreaks]
    dsimp only
    split_ifs
    · exact ahead_next.trans ih
    · exact ahead_lineBreak
    · exact ahead_lineBreak.trans ih
    · exact .refl

lemma ahead_plainSpaces : c.Ahead (plainSpaces c).2 := by
  have hline : c.Ahead (c.skipWhile fun d => d.is ' ').lineBreak.2 := (ahead_skipWhile _).trans ahead_lineBreak
  rw [plainSpaces]
  dsimp only
  split
  · split
    · exact hline
    · have hbreaks := hline.trans (ahead_plainBreaks ((c.skipWhile fun d => d.is ' ').lineBreak.2.rest.length + 1))
      split
      · next heq => rwa [heq] at hbreaks
      · next heq => rwa [heq] at hbreaks
  · exact ahead_skipWhile _

lemma ahead_plainWords (indent : Int) (fuel : Nat) (spaces : Text) (part : PlainPart) :
    c.Ahead (plainWords flow indent fuel spaces part c).2 := by
  induction fuel generalizing c spaces part with
  | zero => exact .refl
  | succ fuel ih =>
    rw [plainWords]
    dsimp only
    split_ifs
    · exact .refl
    · exact (ahead_skip _).trans ahead_plainSpaces
    · exact (ahead_skip _).trans (ahead_plainSpaces.trans (ih _ _))

lemma ahead_plain {outer : Int} (hsign : c.now ≠ '#') (hword : wordLength flow c.rest ≠ 0) :
    c.next.Ahead (plain flow outer c).2 := by
  have hlength : c.next.Ahead (c.skip (wordLength flow c.rest)) := by
    obtain ⟨n, hn⟩ := Nat.exists_eq_succ_of_ne_zero hword
    rw [hn, skip_succ]
    exact ahead_skip n
  rw [plain, plainWords]
  dsimp only
  rw [if_neg (by simp [hsign, hword])]
  split_ifs
  · exact hlength.trans ahead_plainSpaces
  · exact hlength.trans (ahead_plainSpaces.trans (ahead_plainWords _ _ _ _))

end Plains

section Quotes

variable {start : Mark} {double : Bool}

lemma reads_hexPoint {count : Nat}
    (hdigits : ∀ digits : Text, digits <+: c.rest → digits.length = count → (∀ d ∈ digits, d.isHexDigit = true) →
      0x110000 ≤ Numeral.value 16 digits → Escapes source (Numeral.value 16 digits)) :
    Reads source (hexPoint start count c) (Behind c) := by
  rw [hexPoint]
  dsimp only
  split_ifs with hlength hvalue
  · exact reads_fail
  · exact .ok (ahead_skip count)
  · have hfront := List.takeWhile_prefix (l := c.rest.take count) CodePoint.isHexDigit
    have hcount : ((c.rest.take count).takeWhile CodePoint.isHexDigit).length = count :=
      Nat.le_antisymm (hfront.length_le.trans (List.length_take_le count c.rest)) (not_lt.mp hlength)
    exact .noCodePoint (hdigits _ (hfront.trans (List.take_prefix count c.rest)) hcount
      (fun d hd => List.mem_takeWhile_imp hd) (not_lt.mp hvalue))

lemma digitCount_cases {d : CodePoint} {count : Nat} (h : digitCount? d = some count) :
    16 ^ count < 0x110000 ∨ d = CodePoint.ofChar 'U' ∧ count = 8 := by
  rw [digitCount?] at h
  split_ifs at h with hx hu hU
  · cases h
    exact .inl (by decide)
  · cases h
    exact .inl (by decide)
  · cases h
    exact .inr ⟨hU, rfl⟩

lemma escapes_of_prefix {digits : Text} {count : Nat} (hs : CodePoint.ofChar '\\' :: c.rest <:+ source)
    (hcount : digitCount? c.now = some count) (hfront : digits <+: c.next.rest) (hlength : digits.length = count)
    (hhex : ∀ d ∈ digits, d.isHexDigit = true) (hlarge : 0x110000 ≤ Numeral.value 16 digits) :
    Escapes source (Numeral.value 16 digits) := by
  have hvalue : Numeral.value 16 digits < 16 ^ digits.length :=
    Numeral.value_lt_base_pow fun d hd => of_decide_eq_true (hhex d hd)
  rcases digitCount_cases hcount with hsmall | ⟨hsign, rfl⟩
  · rw [hlength] at hvalue
    omega
  · have hinfix : [CodePoint.ofChar '\\', CodePoint.ofChar 'U'] ++ digits <+: CodePoint.ofChar '\\' :: c.rest := by
      rw [rest_of_now hsign (by decide)]
      exact (List.prefix_append_right_inj [CodePoint.ofChar '\\', CodePoint.ofChar 'U']).mpr hfront
    exact ⟨digits, hinfix.isInfix.trans hs.isInfix, hlength, hhex, rfl⟩

lemma reads_quotedBreaks (fuel : Nat) : Reads source (quotedBreaks start fuel c) (Behind c) := by
  induction fuel generalizing c with
  | zero => exact .ok .refl
  | succ fuel ih =>
    rw [quotedBreaks]
    dsimp only
    split_ifs
    · exact reads_fail
    · exact .bind ih fun p hp => .ok ((ahead_skipWhile _).trans (ahead_lineBreak.trans hp))
    · exact .ok (ahead_skipWhile _)

lemma reads_foldedBreak : Reads source (foldedBreak start c) (Behind c) := by
  rw [foldedBreak]
  exact .bind (reads_quotedBreaks _) fun p hp => .ok (ahead_lineBreak.trans hp)

lemma reads_escapeSequence (hs : CodePoint.ofChar '\\' :: c.rest <:+ source) :
    Reads source (escapeSequence start c) (Behind c) := by
  rw [escapeSequence]
  split
  · exact .ok ahead_next
  · next hcount =>
    refine .bind (reads_hexPoint fun digits => escapes_of_prefix hs hcount) fun p hp => .ok ?_
    exact ahead_next.trans hp
  · split_ifs
    · exact (reads_quotedBreaks _).mono fun p hp => ahead_lineBreak.trans hp
    · exact reads_fail

lemma reads_quotedText (hs : c.rest <:+ source) (fuel : Nat) :
    Reads source (quotedText double start fuel c) (Behind c) := by
  induction fuel generalizing c with
  | zero => exact .ok .refl
  | succ fuel ih =>
    have also {r : Except Fault (Text × Cursor)} (hr : Reads source r (Behind c)) :
        Reads source (r >>= fun p => quotedText double start fuel p.2 >>= fun q => pure (p.1 ++ q.1, q.2)) (Behind c) :=
      .bind hr fun p hp => .bind (ih (List.IsSuffix.trans hp hs)) fun q hq => .ok (Ahead.trans hp hq)
    rw [quotedText]
    dsimp only
    split_ifs with hplain hsingle _ _ hdouble _ hescape
    · exact also (.ok (ahead_skipWhile _))
    · exact also (.ok ahead_next)
    · exact also (.ok (ahead_skip 2))
    · exact .ok .refl
    · exact .ok .refl
    · exact also (.ok ahead_next)
    · have hrest := rest_of_now hescape (by decide)
      exact also ((reads_escapeSequence (hrest ▸ hs)).mono fun p hp => ahead_next.trans hp)
    · exact also (.ok ahead_next)
    · exact also (reads_foldedBreak.mono fun p hp => (ahead_skipWhile _).trans hp)
    · exact reads_fail
    · exact also (.ok (ahead_skipWhile _))

lemma reads_quoted (hs : c.rest <:+ source) : Reads source (quoted double c) (Behind c.next) := by
  rw [quoted]
  exact .bind (reads_quotedText (List.IsSuffix.trans ahead_next hs) _) fun p hp => .ok (Ahead.trans hp ahead_next)

end Quotes

end Token

end DocPath.Yaml
