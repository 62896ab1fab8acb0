import DocPath.Proofs.Path.Append
import DocPath.Proofs.Query.Outcome

/-! Two paths with a separator between them. Unless an escape mark of the first is still in force at its
end, a document is evaluated along the one and from there along the other. -/

namespace DocPath

namespace Query

variable {store : Store}

/-- One segment of a walk, for its outcome alone; the text of the path stands in messages only. -/
lemma walk_segment (path : Text) (d : Value) (segment : Text) (rest : List Text) :
    (walk store path d (segment :: rest)).2 =
      if d = .null then .ok .null
      else key store segment >>= fun named => step d named.1 >>= fun next =>
        (walk store path next rest).2 := by
  by_cases hd : d = .null
  · simp [walk, hd]
  · rw [walk, if_neg hd, if_neg hd]
    cases key store segment with
    | error fault => rfl
    | ok named =>
      obtain ⟨name, events⟩ := named
      cases hs : step d name <;> simp [hs, bind, Except.bind]

lemma walk_of_step {path segment name : Text} {d next : Value} {events : List Event} (hd : d ≠ .null)
    (hk : key store segment = .ok (name, events)) (hs : step d name = .ok next) (segments : List Text) :
    (walk store path d (segment :: segments)).2 = (walk store path next segments).2 := by
  rw [walk_segment, if_neg hd, hk]
  show (step d name >>= _) = _
  rw [hs]
  rfl

lemma walk_path (path other : Text) (d : Value) (segments : List Text) :
    (walk store path d segments).2 = (walk store other d segments).2 := by
  induction segments generalizing d with
  | nil => rfl
  | cons segment rest ih => simp only [walk_segment, ih]

lemma walk_append (path first second : Text) (d : Value) (before after : List Text) :
    (walk store path d (before ++ after)).2 =
      (walk store first d before).2 >>= fun v => (walk store second v after).2 := by
  induction before generalizing d with
  | nil => exact walk_path path second d after
  | cons segment before ih =>
    rw [List.cons_append, walk_segment, walk_segment]
    by_cases hd : d = .null
    · simp only [hd, if_true]
      exact (walk_null after).symm
    · simp only [hd, if_false, ih, bind_assoc]

/-- Evaluating two joined paths is evaluating the first and the second from there: with the same value, null
if the first part leads to null, and the error of the part that fails. -/
theorem evaluate_append (store : Store) (document : Value) (p q : Text)
    (h : Path.escapeMark ∉ Path.lastPiece p) :
    (∀ v, evaluate store document p = .ok v →
      evaluate store document (p ++ Path.separator :: q) = evaluate store v q) ∧
    (evaluate store document p = .ok .null →
      evaluate store document (p ++ Path.separator :: q) = .ok .null) ∧
    ∀ fault, evaluate store document p = .error fault →
      evaluate store document (p ++ Path.separator :: q) = .error fault := by
  have whole : evaluate store document (p ++ Path.separator :: q) =
      evaluate store document p >>= fun v => evaluate store v q := by
    simp only [evaluate, trace]
    rw [Path.parse_append q h]
    exact walk_append _ p q document (Path.parse p) (Path.parse q)
  have from_value : ∀ v, evaluate store document p = .ok v →
      evaluate store document (p ++ Path.separator :: q) = evaluate store v q := by
    intro v hv
    rw [whole, hv]
    rfl
  refine ⟨from_value, fun hn => ?_, fun fault hf => ?_⟩
  · rw [from_value .null hn]
    exact walk_null (Path.parse q)
  · rw [whole, hf]
    rfl

/-- The first path may hold an escaped separator, as long as a bare one is behind it. -/
theorem evaluate_append_escaped :
    let document : Value := .map false [(.text "a.b", .map false [(.text "c", .list [.null, .text "x"])])]
    Path.escapeMark ∉ Path.lastPiece "a\\.b.c" ∧
      evaluate (fun _ => none) document "a\\.b.c.1" = .ok (.text "x") := by
  intro document
  have h : Path.escapeMark ∉ Path.lastPiece "a\\.b.c" := by decide
  have first : evaluate (fun _ => none) document "a\\.b.c" = .ok (.list [.null, .text "x"]) := by
    decide +kernel
  exact ⟨h, ((evaluate_append (fun _ => none) document "a\\.b.c" "1" h).1 _ first).trans
    (by decide +kernel)⟩

end Query

end DocPath
