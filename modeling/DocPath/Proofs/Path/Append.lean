import DocPath.Proofs.Path.Segments
import Mathlib.Data.List.DropRight

/-! Two paths with a separator between them. Unless an escape mark of the first is still in force at its
end, the segments are those of the first and then those of the second. -/

namespace DocPath.Path

/-- The part of a path behind its last separator; all of a path without one. -/
def lastPiece (path : Text) : Text := path.rtakeWhile (· ≠ separator)

/-- Whether an escape mark is in force behind a text, if one is in force before it or not. -/
def pending (escaped : Bool) (t : Text) : Bool :=
  t.foldl (fun e c => if c = escapeMark then true else if c = separator then false else e) escaped

@[simp] lemma pending_nil (escaped : Bool) : pending escaped [] = escaped := rfl

lemma pending_cons (escaped : Bool) (c : CodePoint) (t : Text) :
    pending escaped (c :: t) =
      pending (if c = escapeMark then true else if c = separator then false else escaped) t := rfl

lemma pending_concat (escaped : Bool) (t : Text) (c : CodePoint) :
    pending escaped (t ++ [c]) =
      if c = escapeMark then true else if c = separator then false else pending escaped t := by
  simp [pending]

/-- Only a mark behind the last separator stays in force. -/
lemma pending_eq_false {path : Text} (h : escapeMark ∉ lastPiece path) :
    pending false path = false := by
  induction path using List.reverseRecOn with
  | nil => rfl
  | append_singleton path c ih =>
    rw [pending_concat]
    by_cases hs : c = separator
    · simp [hs, separator_ne_escapeMark]
    · have last : lastPiece (path ++ [c]) = lastPiece path ++ [c] := by
        simp [lastPiece, hs]
      rw [last] at h
      simp only [List.mem_append, List.mem_singleton, not_or] at h
      simp [hs, Ne.symm h.2, ih h.1]

lemma withFirst_append (segment : Text) (more others : List Text) :
    withFirst (segment, more ++ others) = withFirst (segment, more) ++ others := by
  unfold withFirst
  split_ifs <;> rfl

/-- A separator that is met with no escape mark in force ends the segment before it. -/
lemma split_append {escaped : Bool} {p : Text} (q : Text) (h : pending escaped p = false) :
    split escaped (p ++ separator :: q) =
      ((split escaped p).1, (split escaped p).2 ++ parse q) := by
  induction p generalizing escaped with
  | nil =>
    rw [pending_nil] at h
    subst h
    simpa [split] using split_separator q
  | cons c p ih =>
    rw [pending_cons] at h
    have rest := ih h
    by_cases hm : c = escapeMark
    · simpa [split, hm] using rest
    by_cases hs : c = separator
    · subst hs
      cases escaped <;> simp_all [split, withFirst_append]
    · simp_all [split]

lemma parse_append {p : Text} (q : Text) (h : escapeMark ∉ lastPiece p) :
    parse (p ++ separator :: q) = parse p ++ parse q := by
  rw [parse, split_append q (pending_eq_false h), withFirst_append]
  rfl

end DocPath.Path
