import DocPath.Proofs.Query.Concat
import DocPath.Stash

/-! Walks with a store and walks without one. The names that stand for the segments of a path are the segments of
another path, along which nothing is left to be substituted. -/

namespace DocPath

lemma Stash.find?_empty (key : Text) : Stash.empty.find? key = none := rfl

namespace Query

variable {store : Store}

lemma key_of_absent {segment : Text} (h : store segment = none) : key store segment = .ok (segment, []) := by
  rw [key, h]

/-- Each step of the walk with the store looks up the same key as a step along the names without it. -/
lemma walk_names {segments names : List Text} (h : List.Forall₂ (Named store) segments names)
    {bare : Store} (hbare : ∀ name ∈ names, bare name = none) (path other : Text) (d : Value) :
    (walk store path d segments).2 = (walk bare other d names).2 := by
  induction h generalizing d with
  | nil => rfl
  | @cons segment name segments names hname _ ih =>
    obtain ⟨hname', hrest⟩ := List.forall_mem_cons.mp hbare
    obtain ⟨events, hkey⟩ := key_of_named hname
    rw [walk_segment, walk_segment]
    split_ifs
    · rfl
    · have hsteps : (fun next => (walk store path next segments).2) = fun next => (walk bare other next names).2 :=
        funext fun next => ih hrest next
      rw [hkey, key_of_absent hname', hsteps]
      rfl

/-- Substitution can be done beforehand: if names stand for the segments of a path and none of them is empty or
holds an escape mark, then they are the segments of a path of their own, and a document is evaluated along it
without a stash as it is evaluated along the first path with the store, whatever the store holds under the names. -/
theorem evaluate_join_named (store : Store) (document : Value) (path : Text) (names : List Text)
    (hnames : List.Forall₂ (Named store) (Path.parse path) names)
    (hsegments : ∀ name ∈ names, name ≠ [] ∧ Path.escapeMark ∉ name) :
    ∃ direct, Path.join names = .ok direct ∧ Path.parse direct = names ∧
      evaluate store document path = evaluate Stash.empty.find? document direct := by
  have hparse := Path.parse_join_escape names hsegments
  refine ⟨_, Path.join_ok hsegments, hparse, ?_⟩
  rw [evaluate, evaluate, trace, trace, hparse]
  exact walk_names hnames (fun name _ => Stash.find?_empty name) path _ document

/-- Of two entries that name each other only the one that is asked for is used, and its point splits nothing. -/
theorem evaluate_join_named_cyclic :
    let stash := Stash.ofList [("x", .text "a.b"), ("a.b", .text "x"), ("n", .int 1)]
    let document : Value := .map false [(.text "a.b", .list [.text "u", .text "v"]), (.text "x", .null)]
    List.Forall₂ (Named stash.find?) (Path.parse "x.n") ["a.b", "1"] ∧
      evaluate stash.find? document "x.n" = .ok (.text "v") ∧
      evaluate Stash.empty.find? document "a\\.b.1" = .ok (.text "v") := by
  intro stash document
  have hnames : List.Forall₂ (Named stash.find?) (Path.parse "x.n") ["a.b", "1"] := by
    rw [show Path.parse "x.n" = ["x", "n"] by decide +kernel]
    exact .cons (.kept (v := .text "a.b") (by decide +kernel) rfl)
      (.cons (.kept (v := .int 1) (by decide +kernel) (by decide +kernel)) .nil)
  obtain ⟨direct, hjoin, -, heq⟩ := evaluate_join_named stash.find? document "x.n" ["a.b", "1"] hnames (by decide)
  obtain rfl : Text.ofString "a\\.b.1" = direct := by
    have hdirect : Path.join ["a.b", "1"] = .ok (Text.ofString "a\\.b.1") := by decide +kernel
    exact Except.ok.inj (hdirect.symm.trans hjoin)
  have hvalue : evaluate Stash.empty.find? document "a\\.b.1" = .ok (.text "v") := by decide +kernel
  exact ⟨hnames, heq.trans hvalue, hvalue⟩

end Query

end DocPath
