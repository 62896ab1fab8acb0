import DocPath.Proofs.Path.Escaped
import DocPath.Proofs.Query.FirstKey

/-! Which entries of a stash a path can refer to. A stash takes any key that is not empty, but no segment of a path has
an escape mark in it: an entry whose key has one is kept and never asked for. -/

namespace DocPath

namespace Path

lemma exists_parse_singleton {k : Text} : (∃ path, parse path = [k]) ↔ IsSegment k := by
  constructor
  · rintro ⟨path, hpath⟩
    exact parse_isSegment path k (hpath ▸ List.mem_singleton_self k)
  · intro h
    have hjoin := parse_join_escape [k] (by simpa using h)
    exact ⟨_, hjoin⟩

lemma parse_escape_segment {k : Text} (h : IsSegment k) : parse (escape k) = [k] := by
  have hjoin := parse_join_escape [k] (by simpa using h)
  rwa [List.map_singleton] at hjoin

end Path

namespace Stash

variable {s t : Stash} {k : Text} {v : Value}

lemma ne_nil_of_insert (h : s.insert k v = .ok t) : k ≠ [] := by
  rw [insert] at h
  split_ifs at h with hw hk
  exact fun hnil => hk (List.isEmpty_iff.mpr hnil)

lemma find?_inserted (h : s.insert k v = .ok t) : t.find? k = some v := by
  rw [find?_insert h, if_pos rfl]

end Stash

namespace Query

variable {store other : Store} {path k name : Text} {d v : Value}

/-- On a path of one segment the name of the kept value is looked up, which is noted first. -/
lemma trace_kept (hpath : Path.parse path = [k]) (hkept : store k = some v) (hname : v.asName = .ok name)
    (hd : d ≠ .null) :
    evaluate store d path = step d name ∧ .substituted k name ∈ (trace store d path).1 := by
  have hkey : key store k = .ok (name, [.substituted k name]) := by
    rw [key, hkept]
    simp only [hname]
  rw [evaluate, trace, hpath]
  simp only [walk, if_neg hd, hkey]
  cases step d name with
  | error fault => exact ⟨rfl, List.mem_singleton_self _⟩
  | ok next =>
    refine ⟨rfl, List.mem_append_left [] ?_⟩
    split_ifs <;> simp

/-- An entry that was put into a stash has a path of its own exactly if its key has no escape mark. If so, this is the
escaped key, and along it the name of the value is looked up in every document. If not, the key is a segment of no path,
and every document is evaluated along every path as before. -/
theorem insert_referable {s t : Stash} (h : s.insert k v = .ok t) :
    ((∃ path, Path.parse path = [k]) ↔ Path.escapeMark ∉ k) ∧
    (Path.escapeMark ∉ k → Path.parse (Path.escape k) = [k] ∧
      ∀ d name, d ≠ .null → v.asName = .ok name →
        evaluate t.find? d (Path.escape k) = step d name ∧
          .substituted k name ∈ (trace t.find? d (Path.escape k)).1) ∧
    (Path.escapeMark ∈ k → ∀ d path, k ∉ Path.parse path ∧ trace t.find? d path = trace s.find? d path) := by
  have hne : k ≠ [] := Stash.ne_nil_of_insert h
  refine ⟨Path.exists_parse_singleton.trans (and_iff_right hne), fun hmark => ?_, fun hmark d path => ?_⟩
  · have hpath : Path.parse (Path.escape k) = [k] := Path.parse_escape_segment ⟨hne, hmark⟩
    exact ⟨hpath, fun d name hd hname => trace_kept hpath (Stash.find?_inserted h) hname hd⟩
  · have hnot : k ∉ Path.parse path := fun hk => (Path.parse_isSegment path k hk).2 hmark
    refine ⟨hnot, walk_congr (fun segment hsegment => ?_) path d⟩
    have hother : segment ≠ k := fun heq => hnot (heq ▸ hsegment)
    rw [Stash.find?_insert h, if_neg hother]

/-- A key with points in it: the path has them escaped, and the value stands for a place in a list. -/
theorem insert_referable_points :
    ∃ t, ({} : Stash).insert "a.b." (.int 1) = .ok t ∧ Path.parse "a\\.b\\." = ["a.b."] ∧
      evaluate t.find? (.list [.null, .text "x"]) "a\\.b\\." = .ok (.text "x") := by
  obtain ⟨t, ht⟩ : ∃ t, ({} : Stash).insert "a.b." (.int 1) = .ok t := Stash.insert_ok rfl (by decide) _
  have hescape : Path.escape "a.b." = "a\\.b\\." := by decide
  obtain ⟨hpath, hlook⟩ := (insert_referable ht).2.1 (by decide)
  rw [hescape] at hpath hlook
  refine ⟨t, ht, hpath, ?_⟩
  rw [(hlook (.list [.null, .text "x"]) "1" nofun (by decide +kernel)).1]
  decide +kernel

/-- An entry with an escape mark in its key is taken, but no path has its key alone. -/
theorem insert_unreferable :
    (∃ t, ({} : Stash).insert "a\\b" (.text "x") = .ok t) ∧ ¬∃ path, Path.parse path = ["a\\b"] := by
  refine ⟨Stash.insert_ok rfl (by decide) _, fun hpath => ?_⟩
  exact (Path.exists_parse_singleton.mp hpath).2 (by decide)

end Query

end DocPath
