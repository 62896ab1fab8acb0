import DocPath.Json.Reader
import DocPath.Json.Writer
import DocPath.Proofs.Number.Numeral

/-! Texts between quotation marks: what the writer escapes the reader takes back. -/

namespace DocPath.Json

lemma hexNumber?_hex : ∀ n < 0x20, hexNumber? (Text.hex 4 n) = some n := by
  decide +kernel

lemma hex_eq : ∀ n < 0x20, ∃ a b c d, Text.hex 4 n = [a, b, c, d] := by
  intro n hn
  have hl : ∀ n < 0x20, (Text.hex 4 n).length = 4 := by decide +kernel
  have := hl n hn
  match h : Text.hex 4 n with
  | [a, b, c, d] => exact ⟨a, b, c, d, rfl⟩
  | [] | [_] | [_, _] | [_, _, _] | _ :: _ :: _ :: _ :: _ :: _ => simp [h] at this

lemma string_unescape {x d : CodePoint} (hu : x ≠ 'u') (hx : unescape? x = some d) (start rest : Text) :
    string start ('\\' :: x :: rest) = prepend d (string start rest) := by
  rw [string.eq_def]
  simp only [hx, if_neg hu]
  rfl

lemma string_control {c : CodePoint} (hc : c.val < 0x20) (start : Text) {rest : Text}
    (hr : rest ≠ []) :
    string start ('\\' :: 'u' :: (Text.hex 4 c.val ++ rest)) = prepend c (string start rest) := by
  obtain ⟨h₁, h₂, h₃, h₄, hh⟩ := hex_eq c.val hc
  have hn := hexNumber?_hex c.val hc
  have hhigh : isHigh c.val = false := by
    rw [isHigh, ← Bool.not_eq_true, Bool.and_eq_true, decide_eq_true_eq, decide_eq_true_eq]
    omega
  cases rest with
  | nil => exact absurd rfl hr
  | cons y more =>
    rw [hh] at hn ⊢
    rw [List.cons_append, List.cons_append, List.cons_append, List.cons_append, List.nil_append,
      string.eq_def]
    simp only [hn, hhigh, Bool.false_eq_true, false_and, if_false, CodePoint.ofNat_of_val]
    rw [if_neg (by decide), if_neg (by decide), if_pos trivial, if_pos trivial]
    split <;> rfl

lemma string_plain {c : CodePoint} (hq : c ≠ '"') (hb : c ≠ '\\') (hc : ¬c.val < 0x20)
    (start rest : Text) : string start (c :: rest) = prepend c (string start rest) := by
  rw [string.eq_def]
  dsimp only
  rw [if_neg hq, if_neg hc, if_neg hb]

/-- Every code point is read back from its escaped form; a form with digits needs something behind
it, if only the closing mark. -/
theorem string_escaped (c : CodePoint) (start : Text) {rest : Text} (hr : rest ≠ []) :
    string start (escaped c ++ rest) = prepend c (string start rest) := by
  unfold escaped
  split_ifs with h1 h2 h3 h4 h5 h6 h7 h8
  · subst h1; exact string_unescape (by decide) rfl start rest
  · subst h2; exact string_unescape (by decide) rfl start rest
  · subst h3; exact string_unescape (by decide) rfl start rest
  · subst h4; exact string_unescape (by decide) rfl start rest
  · subst h5; exact string_unescape (by decide) rfl start rest
  · subst h6; exact string_unescape (by decide) rfl start rest
  · subst h7; exact string_unescape (by decide) rfl start rest
  · exact string_control h8 start hr
  · exact string_plain h1 h2 h8 start rest

theorem string_flatMap_escaped (t start rest : Text) :
    string start (t.flatMap escaped ++ CodePoint.ofChar '"' :: rest) = .ok (t, rest) := by
  induction t with
  | nil =>
    rw [List.flatMap_nil, List.nil_append, string.eq_def]
    dsimp only
    rw [if_pos rfl]
  | cons c t ih =>
    rw [List.flatMap_cons, List.append_assoc, string_escaped c start (by simp), ih]
    rfl

lemma quote_append (t rest : Text) :
    quote t ++ rest = CodePoint.ofChar '"' :: (t.flatMap escaped ++ CodePoint.ofChar '"' :: rest) := by
  simp [quote, Text.concat, Text.ofString]

end DocPath.Json
