import DocPath.Proofs.Value.Links
import DocPath.Value.Normal

/-! Normal forms of values: what they are made of, and that each is its own normal form. -/

namespace DocPath.Value

variable {v : Value} {xs : List Value} {es : List (Value × Value)} {o f : Bool}

lemma normalizeAll_eq (vs : List Value) : normalizeAll vs = vs.map normalize := by
  induction vs with
  | nil => rfl
  | cons v vs ih => rw [normalizeAll, ih, List.map_cons]

lemma normalizeEntries_eq (es : List (Value × Value)) :
    normalizeEntries es = es.map fun e => (e.1, e.2.normalize) := by
  induction es with
  | nil => rfl
  | cons e es ih => rw [normalizeEntries, ih, List.map_cons]

lemma normalize_list : normalize (.list xs) = .list (xs.map normalize) := by rw [normalize, normalizeAll_eq]

lemma normalize_tuple : normalize (.tuple xs) = .list (xs.map normalize) := by rw [normalize, normalizeAll_eq]

lemma normalize_map : normalize (.map o es) = .map false (es.map fun e => (e.1, e.2.normalize)) := by
  rw [normalize, normalizeEntries_eq]

lemma normalize_eq_null : v.normalize = .null ↔ v = .null := by
  cases v <;> simp [normalize]

theorem normalize_normalize (v : Value) : v.normalize.normalize = v.normalize := by
  induction v using induct with
  | list xs ih | tuple xs ih =>
    simp only [normalize_list, normalize_tuple, List.map_map]
    exact congrArg list (List.map_congr_left ih)
  | map o es ih =>
    rw [normalize_map, normalize_map, List.map_map]
    exact congrArg (map false) (List.map_congr_left fun e he => Prod.ext rfl (ih e he).2)
  | anchor l v ih => rw [normalize, normalize, ih]
  | _ => rfl

section Acyclic

lemma acyclic_list : (list xs).isCyclic = false ↔ ∀ x ∈ xs, x.isCyclic = false := by
  rw [isCyclic, ← Bool.not_eq_true, anyCyclic_iff]
  simp

lemma acyclic_map : (map o es).isCyclic = false ↔ ∀ e ∈ es, e.1.isCyclic = false ∧ e.2.isCyclic = false := by
  rw [isCyclic, ← Bool.not_eq_true, anyEntryCyclic_iff]
  simp

/-- Normal forms keep the keys and the links between parts. -/
theorem acyclic_normalize (h : v.isCyclic = false) : v.normalize.isCyclic = false := by
  induction v using induct with
  | list xs ih | tuple xs ih =>
    have hxs : ∀ x ∈ xs, x.isCyclic = false := acyclic_list.mp h
    simp only [normalize_list, normalize_tuple, acyclic_list, List.forall_mem_map]
    exact fun x hx => ih x hx (hxs x hx)
  | map o es ih =>
    rw [acyclic_map] at h
    rw [normalize_map, acyclic_map, List.forall_mem_map]
    exact fun e he => ⟨(h e he).1, (ih e he).2 (h e he).2⟩
  | anchor l v ih => exact ih h
  | _ => exact h

lemma normal?_of_acyclic (h : v.isCyclic = false) : v.normal? = some v.normalize := by
  rw [normal?, h]
  rfl

theorem normal?_normal? {w : Value} (h : v.normal? = some w) : w.normal? = some w := by
  rw [normal?] at h
  split_ifs at h with hcyclic
  rw [← Option.some.inj h, normal?_of_acyclic (acyclic_normalize (by simpa using hcyclic)), normalize_normalize]

/-- Without aliases there is nothing to fill in. -/
lemma fill_of_acyclic (h : v.isCyclic = false) (label : Nat) (whole : Value) (above : List Nat) :
    fill label whole above v = v := by
  have hdescends (above : List Nat) := descends_fill label whole above
  induction v using induct generalizing above with
  | null => exact (hdescends above).null
  | scalar s => exact (hdescends above).scalar s
  | range a b c => exact (hdescends above).range a b c
  | list xs ih =>
    rw [(hdescends above).list, List.map_congr_left fun x hx => ih x hx (acyclic_list.mp h x hx) above, List.map_id']
  | tuple xs ih =>
    rw [(hdescends above).tuple, List.map_congr_left fun x hx => ih x hx (acyclic_list.mp h x hx) above, List.map_id']
  | sequence t xs ih =>
    rw [(hdescends above).sequence, List.map_congr_left fun x hx => ih x hx (acyclic_list.mp h x hx) above, List.map_id']
  | map o es ih =>
    rw [acyclic_map] at h
    have hes : ∀ e ∈ es, (fill label whole above e.1, fill label whole above e.2) = e := fun e he =>
      Prod.ext ((ih e he).1 (h e he).1 above) ((ih e he).2 (h e he).2 above)
    rw [(hdescends above).map, List.map_congr_left hes, List.map_id']
  | set f xs ih =>
    rw [(hdescends above).set, List.map_congr_left fun x hx => ih x hx (acyclic_list.mp h x hx) above, List.map_id']
  | anchor l v ih => rw [fill, ih h]
  | link l => cases h

lemma acyclic_opened (h : v.isCyclic = false) : v.opened.isCyclic = false :=
  Bool.eq_false_iff.mpr (mt isCyclic_of_opened (Bool.eq_false_iff.mp h))

lemma opened_anchor {l : Nat} (h : v.isCyclic = false) : (anchor l v).opened = v.opened := by
  rw [opened, fill_of_acyclic (acyclic_opened h)]

lemma opened_ne_anchor (h : v.isCyclic = false) (l : Nat) (w : Value) : v.opened ≠ .anchor l w := by
  induction v using induct with
  | anchor m v ih =>
    have hv : v.isCyclic = false := h
    rw [opened_anchor hv]
    exact ih hv
  | _ => nofun

lemma opened_normalize (h : v.isCyclic = false) : v.normalize.opened = v.opened.normalize := by
  induction v using induct with
  | list xs ih | tuple xs ih =>
    simp only [opened, normalize_list, normalize_tuple]
  | map o es ih => simp only [opened, normalize_map]
  | anchor l v ih =>
    have hv : v.isCyclic = false := h
    rw [normalize, opened_anchor hv, opened_anchor (acyclic_normalize hv), ih hv]
  | link l => cases h
  | _ => rfl

end Acyclic

end DocPath.Value
