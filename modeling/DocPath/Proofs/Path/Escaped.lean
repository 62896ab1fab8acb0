import DocPath.Proofs.Path.Append
import DocPath.Proofs.Path.Chunks

/-! Texts that are escaped as they are, with whatever escape marks they hold already. All separators become parts of
the segment; the marks of the text itself are lost, but reach no further than its end unless one stands behind its last
separator. -/

namespace DocPath.Path

variable {s : Text}

lemma unmarked_cons_mark (s : Text) : unmarked (escapeMark :: s) = unmarked s :=
  List.filter_cons_of_neg (by simp)

lemma unmarked_cons {c : CodePoint} (h : c ≠ escapeMark) (s : Text) : unmarked (c :: s) = c :: unmarked s :=
  List.filter_cons_of_pos (by simpa using h)

/-- Whatever marks are in force before and in an escaped text, it makes up one segment. -/
lemma split_escaped (escaped : Bool) (s : Text) : split escaped (escape s) = (unmarked s, []) := by
  induction s generalizing escaped with
  | nil => rfl
  | cons c s ih =>
    by_cases hs : c = separator
    · subst hs
      rw [escape_cons_separator, unmarked_cons separator_ne_escapeMark]
      simp [split, separator_ne_escapeMark, ih]
    · rw [escape_cons hs]
      by_cases hm : c = escapeMark
      · subst hm
        rw [unmarked_cons_mark]
        simp [split, ih]
      · rw [unmarked_cons hm]
        simp [split, hs, hm, ih]

lemma parse_escape (s : Text) : parse (escape s) = [unmarked s].filter (· ≠ []) := by
  rw [parse, split_escaped, ← withFirst_filter]
  rfl

lemma escape_append (s t : Text) : escape (s ++ t) = escape s ++ escape t := List.flatMap_append

lemma lastPiece_escape (s : Text) : lastPiece (escape s) = lastPiece s := by
  induction s using List.reverseRecOn with
  | nil => rfl
  | append_singleton s c ih =>
    rw [escape_append]
    by_cases hs : c = separator
    · subst hs
      rw [escape_cons_separator, escape_nil, List.append_cons, lastPiece, lastPiece]
      simp
    · rw [escape_cons hs, escape_nil, lastPiece, lastPiece, List.rtakeWhile_concat_pos _ _ _ (by simpa using hs),
        List.rtakeWhile_concat_pos _ _ _ (by simpa using hs)]
      exact congrArg (· ++ [c]) ih

/-- Escaped texts one behind the other, each without an escape mark behind its last separator. -/
lemma parse_join_escaped (segments : List Text) (h : ∀ s ∈ segments, escapeMark ∉ lastPiece s) :
    parse (Text.join [separator] (segments.map escape)) = (segments.map unmarked).filter (· ≠ []) := by
  match segments with
  | [] => rfl
  | [s] => exact parse_escape s
  | s :: u :: more =>
    obtain ⟨hs, hrest⟩ := List.forall_mem_cons.mp h
    have ih := parse_join_escaped (u :: more) hrest
    have hjoin : Text.join [separator] ((s :: u :: more).map escape) =
        escape s ++ separator :: Text.join [separator] ((u :: more).map escape) := by
      simp [Text.join]
    rw [hjoin, parse_append _ ((lastPiece_escape s).symm ▸ hs), ih, parse_escape, ← List.filter_append]
    rfl

/-- An escaped text is parsed into itself without its escape marks as the only segment, or into none if nothing is left
of it. Joined by separators, escaped texts without a mark behind their last separators are parsed into these segments in
order. -/
theorem parse_escaped :
    (∀ s : Text, parse (escape s) = if unmarked s = [] then [] else [unmarked s]) ∧
    ∀ segments : List Text, (∀ s ∈ segments, escapeMark ∉ lastPiece s) →
      parse (Text.join [separator] (segments.map escape)) = (segments.map unmarked).filter (· ≠ []) := by
  refine ⟨fun s => ?_, parse_join_escaped⟩
  rw [parse_escape]
  split_ifs with hempty <;> simp [hempty]

/-- Marks and escaped separators in front of the last separator, and a text that is empty. -/
theorem parse_escaped_marks :
    let segments := ["\\a\\.b.c", "", "d"].map Text.ofString
    (∀ s ∈ segments, escapeMark ∉ lastPiece s) ∧
      parse (Text.join [separator] (segments.map escape)) = ["a.b.c", "d"].map Text.ofString := by
  intro segments
  have h : ∀ s ∈ segments, escapeMark ∉ lastPiece s := by decide
  exact ⟨h, (parse_escaped.2 segments h).trans (by decide)⟩

/-- A mark behind the last separator takes the next one with it. -/
example : parse (Text.join [separator] (["a\\", "b"].map fun s => escape (Text.ofString s))) =
    [Text.ofString "a.b"] := by decide

end DocPath.Path
