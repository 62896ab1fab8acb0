import DocPath.Proofs.Charset.WellFormed
import DocPath.Yaml.Layout

/-! What is written has no surrogates: they stand in scalars only, and are written as escapes there. -/

namespace DocPath.Yaml

open Charset.Utf8

namespace Layout

/-- A text without surrogates is written, wherever the pen stands. -/
def Emits (w : Writing) : Prop := ∀ p, WellFormed (w p).1

namespace Emits

variable {w : Writing} {t : Text} {α : Type}

lemma pure (h : WellFormed t) : Emits (Pure.pure t) := fun _ => h

lemma bind {f : Text → Writing} (hw : Emits w) (hf : ∀ t, WellFormed t → Emits (f t)) : Emits (w >>= f) :=
  fun p => hf _ (hw p) _

lemma after {x : StateM Pen α} {f : α → Writing} (hf : ∀ a, Emits (f a)) : Emits (x >>= f) := fun _ => hf _ _

lemma ite {c : Prop} [Decidable c] {v w : Writing} (hv : c → Emits v) (hw : ¬c → Emits w) : Emits (if c then v else w) := by
  split_ifs with h
  · exact hv h
  · exact hw h

lemma branch {c : Prop} [Decidable c] {v w : Writing} {f : Text → Writing} (hv : c → Emits v) (hw : ¬c → Emits w)
    (hf : ∀ t, WellFormed t → Emits (f t)) : Emits (if c then v >>= f else w >>= f) :=
  .ite (fun h => (hv h).bind hf) fun h => (hw h).bind hf

lemma sequentially {ws : List Writing} (h : ∀ w ∈ ws, Emits w) : Emits (Layout.sequentially ws) := by
  induction ws with
  | nil => exact pure wellFormed_nil
  | cons w ws ih =>
    obtain ⟨hw, hws⟩ := List.forall_mem_cons.mp h
    exact hw.bind fun _ ht => (ih hws).bind fun _ hu => pure (wellFormed_append.mpr ⟨ht, hu⟩)

end Emits

section Signs

variable {t : Text} {indent column : Nat}

lemma emits_put (h : WellFormed t) : Emits (put t) := .after fun _ => .pure h

lemma emits_breakLine (h : WellFormed t) : Emits (breakLine t) := .after fun _ => .pure h

lemma emits_settle : Emits settle := .after fun _ => .pure wellFormed_nil

lemma emits_sign {needsSpace spacedAfter keepsFresh : Bool} (h : WellFormed t) :
    Emits (sign t needsSpace spacedAfter keepsFresh) := by
  refine .after fun p => .after fun _ => .pure ?_
  split_ifs
  · exact h
  · exact wellFormed_cons.mpr ⟨by decide, h⟩

lemma emits_goTo : Emits (goTo column) := by
  refine .after fun p => .branch (fun _ => emits_breakLine (t := "\n") (by decide)) (fun _ => .pure wellFormed_nil)
    fun ending hending => ?_
  refine .after fun p => .ite (fun _ => .after fun _ => .pure ?_) fun _ => .pure hending
  exact wellFormed_append.mpr ⟨hending, wellFormed_replicate _ (by decide)⟩

end Signs

section Scalars

variable {split inner word : Bool} {indent : Nat} {before : Option CodePoint} {t : Text} {c : CodePoint}

lemma isSurrogate_eq_false (h : isSpecial c = false) : c.isSurrogate = false := by
  rw [← Bool.not_eq_true]
  simp only [isSpecial, CodePoint.isSurrogate, Bool.not_eq_false', Bool.or_eq_true, Bool.and_eq_true,
    decide_eq_true_eq, beq_iff_eq, bne_iff_ne] at h ⊢
  omega

lemma wellFormed_of_not_special (h : t.any isSpecial = false) : WellFormed t := fun c hc =>
  isSurrogate_eq_false (by simpa using List.any_eq_false.mp h c hc)

lemma emits_plainFrom (h : WellFormed t) : Emits (plainFrom split indent before t) := by
  induction t generalizing before with
  | nil => exact .pure h
  | cons c t ih =>
    obtain ⟨hc, ht⟩ := wellFormed_cons.mp h
    have hfold : Emits (sequentially [goTo indent, settle]) :=
      .sequentially (by simp [emits_goTo, emits_settle])
    rw [plainFrom]
    refine .after fun p => .branch (fun _ => hfold) (fun _ => emits_put (t := [c]) (by simp [hc])) fun _ hfirst => ?_
    exact .bind (ih ht) fun _ hrest => .pure (wellFormed_append.mpr ⟨hfirst, hrest⟩)

lemma emits_plain (h : WellFormed t) : Emits (plain split indent t) := by
  rw [plain]
  refine .after fun p => .branch (fun _ => .pure wellFormed_nil) (fun _ => emits_put (t := " ") (by decide))
    fun gap hgap => ?_
  refine .ite (fun _ => .pure hgap) fun _ => .bind emits_settle fun _ _ => ?_
  exact .bind (emits_plainFrom h) fun _ hbody => .pure (wellFormed_append.mpr ⟨hgap, hbody⟩)

lemma emits_singleFrom (h : WellFormed t) : Emits (singleFrom split indent before t) := by
  induction t generalizing before with
  | nil => exact .pure h
  | cons c t ih =>
    obtain ⟨hc, ht⟩ := wellFormed_cons.mp h
    have hone : WellFormed [c] := by simp [hc]
    rw [singleFrom]
    have hrest (first : Text) (hfirst : WellFormed first) : Emits (do
        pure (first ++ (← singleFrom split indent (some c) t))) :=
      .bind (ih ht) fun _ hrest => .pure (wellFormed_append.mpr ⟨hfirst, hrest⟩)
    split_ifs
    · exact .after fun p => .branch (fun _ => emits_goTo) (fun _ => emits_put hone) hrest
    · refine .bind (.sequentially ?_) hrest
      simp only [List.mem_cons, List.not_mem_nil, or_false, forall_eq_or_imp, forall_eq]
      exact ⟨.ite (fun _ => emits_breakLine (t := "\n") (by decide)) fun _ => .pure wellFormed_nil,
        emits_breakLine hone, .ite (fun _ => emits_goTo) fun _ => .pure wellFormed_nil⟩
    · exact .bind (emits_put (by decide)) hrest
    · exact .bind (emits_put hone) hrest

lemma emits_single (h : WellFormed t) : Emits (single split indent t) := by
  have hmark : WellFormed (Text.ofString "'") := by decide
  refine .sequentially ?_
  simp [emits_sign hmark, emits_singleFrom h]

lemma wellFormed_doubleEscape : WellFormed (doubleEscape c) := by
  have hletters : ∀ e ∈ Token.escapes, (CodePoint.ofChar e.1).isSurrogate = false := by decide
  have hmark : (CodePoint.ofChar '\\').isSurrogate = false := by decide
  have hdigits (width : Nat) : WellFormed (Text.hexCapital width c.val) :=
    wellFormed_hexDigits (Text.isHexDigit_hexCapital width c.val)
  rw [doubleEscape]
  split
  · next l hl =>
    rw [escapeLetter?, Option.map_eq_some_iff] at hl
    obtain ⟨e, he, rfl⟩ := hl
    exact wellFormed_cons.mpr ⟨hmark, wellFormed_cons.mpr ⟨hletters e (List.mem_of_find?_eq_some he), wellFormed_nil⟩⟩
  · split_ifs
    · exact wellFormed_cons.mpr ⟨hmark, wellFormed_cons.mpr ⟨by decide, hdigits 2⟩⟩
    · exact wellFormed_cons.mpr ⟨hmark, wellFormed_cons.mpr ⟨by decide, hdigits 4⟩⟩
    · exact wellFormed_cons.mpr ⟨hmark, wellFormed_cons.mpr ⟨by decide, hdigits 8⟩⟩

lemma emits_doubleBreak : Emits (doubleBreak indent t) := by
  have hmark : Emits (put "\\") := emits_put (by decide)
  refine .sequentially ?_
  simp only [List.mem_cons, List.not_mem_nil, or_false, forall_eq_or_imp, forall_eq]
  exact ⟨hmark, emits_goTo, emits_settle, .ite (fun _ => hmark) fun _ => .pure wellFormed_nil⟩

lemma isSurrogate_of_isDoublePlain (h : isDoublePlain c = true) : c.isSurrogate = false := by
  rw [← Bool.not_eq_true]
  simp only [isDoublePlain, CodePoint.isSurrogate, Bool.or_eq_true, Bool.and_eq_true, Bool.not_eq_true',
    decide_eq_true_eq, bne_iff_ne] at h ⊢
  omega

lemma wellFormed_concat {t u v : Text} (ht : WellFormed t) (hu : WellFormed u) (hv : WellFormed v) :
    WellFormed (Text.concat [t, u, v]) := by
  simp [Text.concat, ht, hu, hv]

lemma emits_doubleFrom : Emits (doubleFrom split indent inner word t) := by
  induction t generalizing inner word with
  | nil => exact .pure wellFormed_nil
  | cons c t ih =>
    rw [doubleFrom]
    refine .ite (fun hplain => ?_) fun _ => ?_
    · have hone : WellFormed [c] := wellFormed_cons.mpr ⟨isSurrogate_of_isDoublePlain hplain, wellFormed_nil⟩
      refine .after fun p => .branch (fun _ => emits_doubleBreak) (fun _ => .pure wellFormed_nil) fun _ hending => ?_
      exact .bind (emits_put hone) fun _ hfirst => .bind ih fun _ hrest => .pure (wellFormed_concat hending hfirst hrest)
    · refine .bind (emits_put wellFormed_doubleEscape) fun _ hfirst => .after fun p => ?_
      refine .branch (fun _ => emits_doubleBreak) (fun _ => .pure wellFormed_nil) fun _ hending => ?_
      exact .bind ih fun _ hrest => .pure (wellFormed_concat hfirst hending hrest)

lemma emits_double : Emits (double split indent t) := by
  have hmark : WellFormed (Text.ofString "\"") := by decide
  refine .sequentially ?_
  simp [emits_sign hmark, emits_doubleFrom]

lemma emits_literal {lines : List Text} (h : ∀ line ∈ lines, WellFormed line) : Emits (literal indent lines) := by
  rw [literal]
  refine .bind (emits_sign (t := "|") (by decide)) fun head hhead => .bind (emits_breakLine wellFormed_nil) fun _ _ => ?_
  have hbreak : WellFormed (Text.ofString "\n") := by decide
  have hmargin : WellFormed (List.replicate indent (CodePoint.ofChar ' ')) := wellFormed_replicate _ (by decide)
  refine .pure (wellFormed_flatten.mpr (List.forall_mem_cons.mpr ⟨hhead, List.forall_mem_cons.mpr ⟨hbreak, ?_⟩⟩))
  exact List.forall_mem_map.mpr fun line hline => wellFormed_concat hmargin (h line hline) hbreak

lemma wellFormed_shortTag {tag : Text} (h : WellFormed tag) : WellFormed (shortTag tag) :=
  wellFormed_append.mpr ⟨by decide, fun c hc => h c (List.mem_of_mem_drop hc)⟩

lemma wellFormed_of_style {simpleKey : Bool} {tag : Text} (h : style simpleKey tag t ≠ .double) : WellFormed t := by
  rw [style] at h
  refine wellFormed_of_not_special ?_
  split_ifs at h with hplain hsingle
  · have hallows := hplain.2.2
    simp only [allowsPlain, Bool.not_eq_true', Bool.or_eq_false_iff] at hallows
    exact hallows.1.1.1.2
  · have hallows := hsingle.1
    simp only [allowsSingle, Bool.not_eq_true', Bool.or_eq_false_iff] at hallows
    exact hallows.1
  · exact absurd rfl h

lemma emits_scalar {position : Position} {indent : Option Nat} {tag : Text} (h : WellFormed tag) :
    Emits (scalar position indent tag t) := by
  rw [scalar]
  refine .branch (fun _ => emits_sign (wellFormed_shortTag h)) (fun _ => .pure wellFormed_nil) fun head hhead => ?_
  dsimp only
  cases hs : style (position == .simpleKey) tag t with
  | plain =>
    have ht : WellFormed t := wellFormed_of_style (by rw [hs]; nofun)
    dsimp only
    have hbody : Emits (plain (position != .simpleKey) (indent.getD 0 + indentStep) t >>= fun body =>
        pure (head ++ body)) := .bind (emits_plain ht) fun _ hbody => .pure (wellFormed_append.mpr ⟨hhead, hbody⟩)
    exact .ite (fun _ => .after fun _ => hbody) fun _ => hbody
  | single =>
    have ht : WellFormed t := wellFormed_of_style (by rw [hs]; nofun)
    dsimp only
    exact .bind (emits_single ht) fun _ hbody => .pure (wellFormed_append.mpr ⟨hhead, hbody⟩)
  | double =>
    dsimp only
    exact .bind emits_double fun _ hbody => .pure (wellFormed_append.mpr ⟨hhead, hbody⟩)

end Scalars

/-- A text without surrogates is drawn, whatever anchors there are. -/
def Draws (d : Drawing) : Prop := ∀ a p, WellFormed (d a p).1.1

namespace Draws

variable {d : Drawing} {t : Text} {α : Type}

lemma pure (h : WellFormed t) : Draws (Pure.pure t) := fun _ _ => h

lemma bind {f : Text → Drawing} (hd : Draws d) (hf : ∀ t, WellFormed t → Draws (f t)) : Draws (d >>= f) :=
  fun a p => hf _ (hd a p) _ _

lemma after {x : StateT Anchors (StateM Pen) α} {f : α → Drawing} (hf : ∀ a, Draws (f a)) : Draws (x >>= f) :=
  fun _ _ => hf _ _ _

lemma lift {w : Writing} (h : Emits w) : Draws (liftM w) := fun _ p => h p

lemma ite {c : Prop} [Decidable c] {d d' : Drawing} (hd : Draws d) (hd' : Draws d') : Draws (if c then d else d') := by
  split_ifs
  · exact hd
  · exact hd'

lemma branch {c : Prop} [Decidable c] {d d' : Drawing} {f : Text → Drawing} (hd : Draws d) (hd' : Draws d')
    (hf : ∀ t, WellFormed t → Draws (f t)) : Draws (if c then d >>= f else d' >>= f) :=
  .ite (hd.bind hf) (hd'.bind hf)

end Draws

mutual

/-- The tags of a tree and its literal lines have no surrogates. -/
def Clean : Tree → Prop
  | .scalar tag _ => WellFormed tag
  | .literal tag lines => WellFormed tag ∧ ∀ line ∈ lines, WellFormed line
  | .sequence ts => CleanAll ts
  | .mapping tag es => WellFormed tag ∧ CleanEntries es
  | .shared _ t => Clean t

def CleanAll : List Tree → Prop
  | [] => True
  | t :: ts => Clean t ∧ CleanAll ts

def CleanEntries : List (Tree × Tree) → Prop
  | [] => True
  | (k, v) :: es => Clean k ∧ Clean v ∧ CleanEntries es

end

lemma wellFormed_anchorName (place : Nat) : WellFormed (anchorName place) :=
  wellFormed_append.mpr ⟨by decide, wellFormed_digits (Numeral.ofNatPadded_isDigit 3 _)⟩

lemma emits_brackets {opening closing : Text} (ho : WellFormed opening) (hc : WellFormed closing) :
    Emits (sequentially [sign opening true true false, sign closing false false false]) := by
  refine .sequentially ?_
  simp [emits_sign ho, emits_sign hc]

mutual

theorem draws_node : (t : Tree) → Clean t → (position : Position) → (indent : Option Nat) →
    Draws (node position indent t)
  | .scalar tag t, h, position, indent => by
    rw [node]
    exact .lift (emits_scalar h)
  | .literal tag lines, h, position, indent => by
    rw [node]
    refine .bind (.lift (emits_sign (wellFormed_shortTag h.1))) fun head hhead => ?_
    refine .branch (.lift emits_double) (.lift (emits_literal h.2)) fun body hbody => ?_
    exact .pure (wellFormed_append.mpr ⟨hhead, hbody⟩)
  | .sequence ts, h, position, indent => by
    rw [node]
    refine .ite (.lift (emits_brackets (by decide) (by decide))) (.after fun p => ?_)
    exact draws_items ts h _
  | .mapping tag es, h, position, indent => by
    rw [node]
    refine .branch (.pure wellFormed_nil) (.lift (emits_sign (wellFormed_shortTag h.1))) fun head hhead => ?_
    refine .branch (.lift (emits_brackets (by decide) (by decide))) (draws_entries es h.2 _) fun body hbody => ?_
    exact .pure (wellFormed_append.mpr ⟨hhead, hbody⟩)
  | .shared l t, h, position, indent => by
    rw [node]
    refine .after fun a => ?_
    split
    · exact draws_node t h position indent
    · next n _ =>
      refine .ite (.lift (emits_sign (wellFormed_cons.mpr ⟨by decide, wellFormed_anchorName n⟩))) (.after fun _ => ?_)
      refine .bind (.lift (emits_sign (wellFormed_cons.mpr ⟨by decide, wellFormed_anchorName n⟩))) fun head hhead => ?_
      exact .bind (draws_node t h position indent) fun body hbody => .pure (wellFormed_append.mpr ⟨hhead, hbody⟩)

theorem draws_items : (ts : List Tree) → CleanAll ts → (indent : Nat) → Draws (items indent ts)
  | [], _, _ => .pure wellFormed_nil
  | t :: ts, h, indent => by
    have hhead : Emits (sequentially [goTo indent, sign "-" true false true]) := by
      have hsign : WellFormed (Text.ofString "-") := by decide
      refine .sequentially ?_
      simp [emits_goTo, emits_sign hsign]
    rw [items]
    refine .bind (.lift hhead) fun _ hhead => .bind (draws_node t h.1 _ _) fun _ hbody => ?_
    exact .bind (draws_items ts h.2 indent) fun _ hrest => .pure (wellFormed_concat hhead hbody hrest)

theorem draws_entries : (es : List (Tree × Tree)) → CleanEntries es → (indent : Nat) → Draws (entries indent es)
  | [], _, _ => .pure wellFormed_nil
  | (k, v) :: es, h, indent => by
    have hrest (start : Text) (hstart : WellFormed start) (key : Text) (hkey : WellFormed key) : Draws (do
        let value ← node .entry (some indent) v
        pure (.concat [start, key, value, ← entries indent es])) := by
      refine .bind (draws_node v h.2.1 _ _) fun _ hvalue => .bind (draws_entries es h.2.2 indent) fun _ hmore => ?_
      exact .pure (by simp [Text.concat, hstart, hkey, hvalue, hmore])
    rw [entries]
    refine .bind (.lift emits_goTo) fun start hstart => .after fun a => ?_
    have hmark : Emits (sign "?" true false true) := emits_sign (by decide)
    have hcolon (needsSpace keepsFresh : Bool) : Emits (sign ":" needsSpace false keepsFresh) := emits_sign (by decide)
    refine .ite ?_ ?_
    · refine .bind (draws_node k h.1 _ _) fun _ hkey => .bind (.lift (hcolon _ _)) fun _ hsign => ?_
      exact hrest start hstart _ (wellFormed_append.mpr ⟨hkey, hsign⟩)
    · refine .bind (.lift hmark) fun _ hsign => .bind (draws_node k h.1 _ _) fun _ hkey => ?_
      refine .bind (.lift emits_goTo) fun _ hline => .bind (.lift (hcolon _ _)) fun _ hend => ?_
      exact hrest start hstart _ (by simp [Text.concat, hsign, hkey, hline, hend])

end

/-- No document has surrogates. -/
theorem wellFormed_document {t : Tree} (h : Clean t) : WellFormed (document t) := by
  have hend : Emits (sequentially [sign "..." true false false, goTo 0]) := by
    have hsign : WellFormed (Text.ofString "...") := by decide
    refine .sequentially ?_
    simp [emits_goTo, emits_sign hsign]
  rw [document]
  refine Draws.bind (draws_node t h _ _) (fun _ hbody => .bind (.lift emits_goTo) fun _ hending => .after fun p => ?_) _ _
  exact .branch (.lift hend) (.pure wellFormed_nil) fun _ hclose => .pure (wellFormed_concat hbody hending hclose)

end Layout

namespace Tree

open Layout

lemma isSurrogate_digit (n : Nat) : (Base64.digit n).isSurrogate = false := by
  have halphabet : WellFormed Base64.alphabet := by decide
  rw [Base64.digit]
  cases h : Base64.alphabet[n]? with
  | none => decide
  | some c => exact halphabet c (List.mem_of_getElem? h)

lemma wellFormed_base64 (bs : List UInt8) : WellFormed (Base64.digits bs) := by
  have hfill : (CodePoint.ofChar '=').isSurrogate = false := by decide
  induction bs using Base64.digits.induct with
  | case1 => exact wellFormed_nil
  | case2 a => simp [Base64.digits, isSurrogate_digit, hfill]
  | case3 a b => simp [Base64.digits, isSurrogate_digit, hfill]
  | case4 a b c rest ih => simp [Base64.digits, isSurrogate_digit, ih]

lemma wellFormed_lines (fuel : Nat) (bs : List UInt8) : ∀ line ∈ Base64.lines fuel bs, WellFormed line := by
  induction fuel generalizing bs with
  | zero => exact nofun
  | succ fuel ih =>
    rw [Base64.lines]
    split_ifs
    · exact nofun
    · exact List.forall_mem_cons.mpr ⟨wellFormed_base64 _, ih _⟩

lemma clean_ofScalar {s : Scalar} {t : Tree} (h : ofScalar s = .ok t) : Clean t := by
  cases s with
  | int i =>
    rw [ofScalar] at h
    split at h
    · cases h
      exact (by decide : WellFormed Tag.integer)
    · cases h
  | bool b => cases h; exact (by decide : WellFormed Tag.boolean)
  | float x => cases h; exact (by decide : WellFormed Tag.float)
  | text u => cases h; exact (by decide : WellFormed Tag.string)
  | bytes bs => cases h; exact ⟨by decide, wellFormed_lines _ _⟩
  | date d => cases h; exact (by decide : WellFormed Tag.timestamp)
  | dateTime d => cases h; exact (by decide : WellFormed Tag.timestamp)
  | byteArray bs => cases h
  | decimal d => cases h

lemma cleanEntries_elements {ts : List Tree} (h : CleanAll ts) :
    CleanEntries (ts.map fun t => (t, .scalar Tag.null "null")) := by
  induction ts with
  | nil => trivial
  | cons t ts ih => exact ⟨h.1, (by decide : WellFormed Tag.null), ih h.2⟩

mutual

theorem clean_ofValue {t : Tree} : (v : Value) → ofValue v = .ok t → Clean t
  | .null, h => by
    cases h
    exact (by decide : WellFormed Tag.null)
  | .scalar s, h => clean_ofScalar h
  | .list xs, h => by
    obtain ⟨ts, hts, h⟩ := bind_eq_ok h
    cases h
    exact clean_ofItems xs hts
  | .tuple xs, h => by
    obtain ⟨ts, hts, h⟩ := bind_eq_ok h
    cases h
    exact clean_ofItems xs hts
  | .map o es, h => by
    obtain ⟨ts, hts, h⟩ := bind_eq_ok h
    cases h
    exact ⟨by decide, clean_ofEntries es hts⟩
  | .set false xs, h => by
    obtain ⟨ts, hts, h⟩ := bind_eq_ok h
    cases h
    exact ⟨by decide, cleanEntries_elements (clean_ofItems xs hts)⟩
  | .anchor l v, h => by
    obtain ⟨part, hpart, h⟩ := bind_eq_ok h
    have hclean := clean_ofValue v hpart
    rw [← Except.ok.inj h]
    split_ifs
    · exact hclean
    · exact hclean
  | .range .., h | .sequence .., h | .set true _, h | .alias _, h => nomatch h

theorem clean_ofItems {ts : List Tree} : (vs : List Value) → ofItems vs = .ok ts → CleanAll ts
  | [], h => by
    cases h
    trivial
  | v :: vs, h => by
    obtain ⟨t, ht, h⟩ := bind_eq_ok h
    obtain ⟨us, hus, h⟩ := bind_eq_ok h
    cases h
    exact ⟨clean_ofValue v ht, clean_ofItems vs hus⟩

theorem clean_ofEntries {ts : List (Tree × Tree)} : (es : List (Value × Value)) → ofEntries es = .ok ts → CleanEntries ts
  | [], h => by
    cases h
    trivial
  | (k, v) :: es, h => by
    obtain ⟨key, hkey, h⟩ := bind_eq_ok h
    obtain ⟨t, ht, h⟩ := bind_eq_ok h
    obtain ⟨us, hus, h⟩ := bind_eq_ok h
    cases h
    exact ⟨clean_ofValue k hkey, clean_ofValue v ht, clean_ofEntries es hus⟩

end

end Tree

/-- What is written for a value can be written in UTF-8. -/
theorem wellFormed_of_write {v : Value} {t : Text} (h : write v = .ok t) : WellFormed t := by
  obtain ⟨tree, htree, rfl⟩ := map_eq_ok h
  exact Layout.wellFormed_document (Tree.clean_ofValue v htree)

end DocPath.Yaml
