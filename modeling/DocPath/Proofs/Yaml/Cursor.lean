import DocPath.Yaml.Cursor
import DocPath.Proofs.Text
import Mathlib.Tactic.SplitIfs

/-! Moving a cursor: every reader goes a number of code points on, and what that does to line and column
is told by the code points passed. -/

namespace DocPath.Yaml

section Classes

variable {c : CodePoint}

lemma isBreak_iff :
    isBreak c = true ↔ c.val = 10 ∨ c.val = 13 ∨ c.val = 0x85 ∨ c.val = 0x2028 ∨ c.val = 0x2029 := by
  simp only [isBreak, Bool.or_eq_true, CodePoint.is_iff, beq_iff_eq, or_assoc]
  rfl

lemma isBlankOrEnd_iff : isBlankOrEnd c = true ↔ c.val = 32 ∨ isBreak c = true ∨ c.val = 0 := by
  simp only [isBlankOrEnd, isBreakOrEnd, Bool.or_eq_true, CodePoint.is_iff, beq_iff_eq, Fin.ext_iff]
  rfl

lemma isSpaceOrEnd_iff :
    isSpaceOrEnd c = true ↔ c.val = 9 ∨ c.val = 32 ∨ isBreak c = true ∨ c.val = 0 := by
  simp only [isSpaceOrEnd, Bool.or_eq_true, isBlankOrEnd_iff, CodePoint.is_iff]
  rfl

end Classes

/-- Nothing that ends a line or takes no column. -/
def IsInline (t : Text) : Prop := ∀ c ∈ t, isBreak c = false ∧ c.val ≠ 0xFEFF

/-- A number of blanks. -/
def blanks (n : Nat) : Text := List.replicate n (CodePoint.ofChar ' ')

/-- A line feed, and the indentation of the line behind it. -/
def newLine (n : Nat) : Text := CodePoint.ofChar '\n' :: blanks n

@[simp] lemma length_blanks (n : Nat) : (blanks n).length = n := List.length_replicate

@[simp] lemma length_newLine (n : Nat) : (newLine n).length = n + 1 := by simp [newLine]

lemma eq_of_mem_blanks {n : Nat} {c : CodePoint} (h : c ∈ blanks n) : c = CodePoint.ofChar ' ' :=
  List.eq_of_mem_replicate h

lemma isInline_blanks (n : Nat) : IsInline (blanks n) := by
  intro c hc
  rw [eq_of_mem_blanks hc]
  exact ⟨by decide, by decide⟩

namespace Cursor

variable (c : Cursor)

lemma next_of_cons {d : CodePoint} {rest : Text} (h : c.rest = d :: rest) :
    c.next = ⟨rest, c.mark.next d rest⟩ := by
  rw [next, h]

lemma rest_next {c : Cursor} {d : CodePoint} {rest : Text} (h : c.rest = d :: rest) :
    c.next.rest = rest := by
  rw [c.next_of_cons h]

@[simp] lemma skip_zero : c.skip 0 = c := rfl

lemma skip_succ (n : Nat) : c.skip (n + 1) = c.next.skip n := rfl

lemma skip_one : c.skip 1 = c.next := rfl

lemma next_rest : c.next.rest = c.rest.drop 1 := by
  unfold next
  cases h : c.rest with
  | nil => simp [h]
  | cons d rest => rfl

@[simp] lemma skip_rest (n : Nat) : (c.skip n).rest = c.rest.drop n := by
  induction n generalizing c with
  | zero => rfl
  | succ n ih => rw [skip_succ, ih, next_rest, List.drop_drop, Nat.add_comm]

@[simp] lemma skip_skip (m n : Nat) : (c.skip m).skip n = c.skip (m + n) := by
  induction m generalizing c with
  | zero => rw [skip_zero, Nat.zero_add]
  | succ m ih => rw [skip_succ, ih, Nat.succ_add, skip_succ]

lemma skip_append {s t : Text} (h : c.rest = s ++ t) : (c.skip s.length).rest = t := by
  rw [skip_rest, h, List.drop_left]

lemma now_of_cons {d : CodePoint} {rest : Text} (h : c.rest = d :: rest) : c.now = d := by
  rw [now, h]
  rfl

lemma now_of_nil (h : c.rest = []) : c.now = CodePoint.nul := by
  rw [now, h]
  rfl

lemma now_eq_peek : c.now = c.peek 0 := by
  rw [now, peek]
  cases c.rest <;> rfl

lemma pass_eq_skip (p : CodePoint → Bool) :
    pass p c.mark c.rest = c.skip (c.rest.takeWhile p).length := by
  obtain ⟨rest, m⟩ := c
  induction rest generalizing m with
  | nil => rfl
  | cons d rest ih =>
    rw [pass]
    split_ifs with h
    · rw [List.takeWhile_cons_of_pos h, List.length_cons, skip_succ, next_of_cons _ rfl]
      exact ih _
    · rw [List.takeWhile_cons_of_neg h]
      rfl

lemma skipWhile_eq_skip (p : CodePoint → Bool) :
    c.skipWhile p = c.skip (c.taken p).length := pass_eq_skip c p

lemma skipWhile_rest (p : CodePoint → Bool) : (c.skipWhile p).rest = c.rest.dropWhile p := by
  rw [skipWhile_eq_skip, skip_rest, taken]
  nth_rewrite 2 [← List.takeWhile_append_dropWhile (p := p) (l := c.rest)]
  rw [List.drop_left]

lemma taken_append {p : CodePoint → Bool} {s t : Text} (h : c.rest = s ++ t)
    (hs : ∀ d ∈ s, p d = true) (ht : ∀ d ∈ t.head?, p d = false) : c.taken p = s := by
  rw [taken, h, List.takeWhile_append_of_pos hs]
  cases t with
  | nil => simp
  | cons d t => simp [ht d rfl]

lemma skipWhile_append {p : CodePoint → Bool} {s t : Text} (h : c.rest = s ++ t)
    (hs : ∀ d ∈ s, p d = true) (ht : ∀ d ∈ t.head?, p d = false) :
    c.skipWhile p = c.skip s.length := by
  rw [skipWhile_eq_skip, taken_append c h hs ht]

lemma skipWhile_eq_self {p : CodePoint → Bool} (h : ∀ d ∈ c.rest.head?, p d = false) :
    c.skipWhile p = c :=
  c.skipWhile_append (s := []) rfl (List.forall_mem_nil _) h

lemma mark_next_line (m : Mark) (d : CodePoint) (rest : Text) : m.line ≤ (m.next d rest).line := by
  unfold Mark.next
  split_ifs <;> simp

/-- Going on never leads to an earlier line. -/
lemma line_le_skip (n : Nat) : c.mark.line ≤ (c.skip n).mark.line := by
  induction n generalizing c with
  | zero => exact Nat.le_refl _
  | succ n ih =>
    have hnext : c.mark.line ≤ c.next.mark.line := by
      unfold next
      cases c.rest with
      | nil => exact Nat.le_refl _
      | cons d rest => exact mark_next_line c.mark d rest
    exact Nat.le_trans hnext (ih c.next)

lemma mark_next_of_inline {d : CodePoint} (hd : isBreak d = false) (hf : d.val ≠ 0xFEFF) (m : Mark)
    (rest : Text) : m.next d rest = ⟨m.index + 1, m.line, m.column + 1⟩ := by
  rw [Mark.next, hd, Bool.false_and, if_neg Bool.false_ne_true, if_neg hf]

lemma mark_skip_of_inline {s t : Text} (h : c.rest = s ++ t) (hs : IsInline s) :
    (c.skip s.length).mark =
      ⟨c.mark.index + s.length, c.mark.line, c.mark.column + s.length⟩ := by
  induction s generalizing c with
  | nil => rfl
  | cons d s ih =>
    obtain ⟨hd, hf⟩ := hs d (by simp)
    have hnext := c.next_of_cons (h.trans (List.cons_append ..))
    rw [List.length_cons, skip_succ, ih c.next (by rw [hnext]) fun e he => hs e (by simp [he]), hnext,
      mark_next_of_inline hd hf]
    simp only [Mark.mk.injEq, true_and]
    omega

lemma mark_next_lineFeed (m : Mark) (rest : Text) :
    m.next '\n' rest = ⟨m.index + 1, m.line + 1, 0⟩ := by
  rw [Mark.next, if_pos (by simp [isBreak])]

lemma mark_skip_newLine {n : Nat} {t : Text} (h : c.rest = newLine n ++ t) :
    (c.skip (n + 1)).mark = ⟨c.mark.index + 1 + n, c.mark.line + 1, n⟩ := by
  have hnext : c.next = ⟨blanks n ++ t, c.mark.next '\n' (blanks n ++ t)⟩ := c.next_of_cons h
  have hmark := c.next.mark_skip_of_inline (t := t) (by rw [hnext]) (isInline_blanks n)
  rw [length_blanks, hnext, mark_next_lineFeed, Nat.zero_add] at hmark
  rw [skip_succ, hnext, mark_next_lineFeed, hmark]

end Cursor

end DocPath.Yaml
