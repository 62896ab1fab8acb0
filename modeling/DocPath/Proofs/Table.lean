import DocPath.Text
import Mathlib.Data.List.Induction
import Mathlib.Data.List.Nodup

/-! Tables as maps: what is found under a name after values were put under names. -/

namespace DocPath.Table

variable {α : Type} {name : Text} {x : α}

lemma lookup_cons_ite (m : Text) (e : Text × α) (t : Table α) :
    (e :: t).lookup m = if m = e.1 then some e.2 else t.lookup m := by
  rw [List.lookup_cons]
  by_cases h : m = e.1
  · rw [if_pos h, beq_iff_eq.mpr h]
  · rw [if_neg h, beq_false_of_ne h]

lemma lookup_put (name m : Text) (x : α) (t : Table α) :
    (put name x t).lookup m = if m = name then some x else t.lookup m := by
  induction t with
  | nil => rw [put, lookup_cons_ite]
  | cons e t ih =>
    obtain ⟨n, y⟩ := e
    rw [put]
    by_cases hn : n = name
    · subst hn
      rw [if_pos rfl, lookup_cons_ite, lookup_cons_ite]
      split_ifs <;> rfl
    · rw [if_neg hn, lookup_cons_ite, lookup_cons_ite, ih]
      by_cases h : m = n
      · subst h
        simp [hn]
      · simp [h]

lemma ofEntries_concat (es : List (Text × α)) (e : Text × α) :
    ofEntries (es ++ [e]) = put e.1 e.2 (ofEntries es) := by
  simp [ofEntries]

lemma lookup_ofEntries (m : Text) (es : List (Text × α)) : (ofEntries es).lookup m = es.reverse.lookup m := by
  induction es using List.reverseRecOn with
  | nil => rfl
  | append_singleton es e ih =>
    rw [ofEntries_concat, lookup_put, ih, List.reverse_append, List.reverse_singleton, List.singleton_append,
      lookup_cons_ite]

/-- A name that is there keeps its place. -/
lemma names_put {t : Table α} (h : name ∈ t.map (·.1)) (x : α) : (put name x t).map (·.1) = t.map (·.1) := by
  induction t with
  | nil => exact absurd h List.not_mem_nil
  | cons e t ih =>
    obtain ⟨n, y⟩ := e
    rw [put]
    by_cases hn : n = name
    · simp [hn]
    · rw [List.map_cons, List.mem_cons, or_iff_right (Ne.symm hn)] at h
      rw [if_neg hn, List.map_cons, ih h, List.map_cons]

lemma put_of_not_mem {t : Table α} (h : name ∉ t.map (·.1)) : put name x t = t ++ [(name, x)] := by
  induction t with
  | nil => rfl
  | cons e t ih =>
    rw [List.map_cons, List.mem_cons, not_or] at h
    rw [put, if_neg (Ne.symm h.1), ih h.2, List.cons_append]

lemma nodup_put {t : Table α} (h : (t.map (·.1)).Nodup) : ((put name x t).map (·.1)).Nodup := by
  by_cases hmem : name ∈ t.map (·.1)
  · rwa [names_put hmem]
  · rw [put_of_not_mem hmem, List.map_append]
    exact h.append (List.nodup_singleton name) (List.disjoint_singleton.mpr hmem)

lemma mem_names_put {m : Text} {t : Table α} (h : m ∈ (put name x t).map (·.1)) : m = name ∨ m ∈ t.map (·.1) := by
  by_cases hmem : name ∈ t.map (·.1)
  · exact .inr (names_put hmem x ▸ h)
  · rw [put_of_not_mem hmem, List.map_append, List.mem_append] at h
    exact h.symm.imp_left List.mem_singleton.mp

lemma names_ofEntries (es : List (Text × α)) :
    ((ofEntries es).map (·.1)).Nodup ∧ ∀ m ∈ (ofEntries es).map (·.1), m ∈ es.map (·.1) := by
  induction es using List.reverseRecOn with
  | nil => exact ⟨List.nodup_nil, fun _ h => h⟩
  | append_singleton es e ih =>
    rw [ofEntries_concat]
    refine ⟨nodup_put ih.1, fun m hm => ?_⟩
    rw [List.map_append, List.mem_append]
    rcases mem_names_put hm with rfl | hm
    · exact .inr (List.mem_singleton_self _)
    · exact .inl (ih.2 m hm)

lemma ofEntries_of_nodup {t : Table α} (h : (t.map (·.1)).Nodup) : ofEntries t = t := by
  induction t using List.reverseRecOn with
  | nil => rfl
  | append_singleton t e ih =>
    rw [List.map_append, List.nodup_append] at h
    obtain ⟨hnodup, -, hnew⟩ := h
    have hfresh : e.1 ∉ t.map (·.1) := fun hmem => hnew e.1 hmem e.1 (by simp) rfl
    rw [ofEntries_concat, ih hnodup, put_of_not_mem hfresh]

lemma mem_names_iff (t : Table α) : name ∈ t.map (·.1) ↔ t.lookup name ≠ none := by
  induction t with
  | nil => simp
  | cons e t ih =>
    rw [List.map_cons, List.mem_cons, ih, lookup_cons_ite]
    by_cases h : name = e.1 <;> simp [h]

lemma lookup_eq_none {t : Table α} (h : name ∉ t.map (·.1)) : t.lookup name = none :=
  not_not.mp (mt (mem_names_iff t).mpr h)

/-- A table in which no name comes twice is given by its names and what is found under them. -/
lemma eq_filterMap_lookup {t : Table α} (h : (t.map (·.1)).Nodup) :
    t = (t.map (·.1)).filterMap fun n => (t.lookup n).map (n, ·) := by
  induction t with
  | nil => rfl
  | cons e t ih =>
    obtain ⟨n, y⟩ := e
    rw [List.map_cons, List.nodup_cons] at h
    obtain ⟨hnew, hnodup⟩ := h
    have hrest : (t.map (·.1)).filterMap (fun m => (((n, y) :: t).lookup m).map (m, ·)) = t := by
      conv_rhs => rw [ih hnodup]
      refine List.filterMap_congr fun m hm => ?_
      have hne : m ≠ n := fun h => hnew (h ▸ hm)
      rw [lookup_cons_ite, if_neg hne]
    simp [hrest]

end DocPath.Table
