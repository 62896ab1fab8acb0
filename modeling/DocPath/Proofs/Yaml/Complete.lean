import DocPath.Proofs.Yaml.Loaded

/-! Documents that are loaded completely by either rule for keys, and the faults of those that are not. -/

namespace DocPath.Yaml

namespace Make

open Value (Refers)

/-- The root is made and nothing waits any more. -/
structure Complete (d : Document) (root : Node) (rule : KeyRule) (s : Making) : Prop where
  loading : Loading d root rule [] s
  pending : s.pending = []
  root : IsDone d.source s root

section Filling

variable {d : Document} {root n : Node} {rule : KeyRule} {s s' : Making} {fuel bound : Nat}

lemma Eased.idle (hfuel : 3 * d.size + 8 ≤ fuel) (hreached : Reached d root (follow d.source n)) :
    Eased d root rule fuel false [] n :=
  ⟨hreached, fun hdeep => absurd hdeep Bool.false_ne_true, by simp, by simpa using hfuel⟩

/-- The first node that waits is filled. -/
lemma fill_first_loaded {rest : List Node} (hd : Numbered d root) (hclosed : Closed d root)
    (hfuel : 3 * d.size + 8 ≤ fuel) (hl : Loading d root rule [] s) (hactive : s.active = [])
    (hs : s.pending = n :: rest) :
    Yields (Refused d root rule) (fill (d.under rule) fuel (value (d.under rule) fuel false) n { s with pending := rest })
      fun _ s' => Loading d root rule [] s' ∧ s'.active = [] ∧
        (∀ id v, s.done.lookup id = some v → s'.done.lookup id = some v) ∧
        left d.size s' + 1 ≤ left d.size s := by
  have hwaits := hl.pending n (hs ▸ List.mem_cons_self)
  have hmade : s.done.lookup n.head.id ≠ none := hwaits.begun.resolve_right (by simp [hactive])
  have hless : left d.size { s with pending := rest } + 1 = left d.size s := by
    rw [left, left, hs, List.length_cons]
    show rest.length + (unmade d.size s).card + 1 = _
    omega
  have hbusy : Busy [n] { s with pending := rest } n.head.id := .inr ⟨hmade, n, List.mem_singleton_self n, rfl⟩
  refine (fill_loaded hd (value_loaded hd hclosed fuel false) hwaits.can (hl.begin hd hs) hbusy (fun _ => by omega) ?_
    hwaits.reached fun _ c hc => ?_).mono ?_
  · rintro h rfl htag
    obtain ⟨v, hv⟩ := Option.ne_none_iff_exists'.mp hmade
    have hcollection := isCollectionTag_filled hwaits.can.2.2
    cases (hl.done _ hwaits.can.1 rfl v hv).provided hcollection with
    | waiting _ content => exact emptyContent_pairs htag ▸ content
    | filling mem => exact absurd mem List.not_mem_nil
    | filled filled =>
      cases filled with
      | sequence tag =>
        rw [tag] at htag
        exact absurd htag (by decide)
      | pairs _ _ content => exact content
      | blank _ tag =>
        rw [show h.tag = Tag.mapping from tag] at htag
        exact absurd htag (by decide)
  · show Eased d root rule fuel false s.active c
    rw [hactive]
    exact .idle hfuel hc
  · rintro - s' ⟨hp, hfilled⟩
    have hbounded := hp.bounded
    exact ⟨hp.loading.filled hfilled, hp.active.trans hactive, hp.done, by omega⟩

/-- Filling comes to an end before the bound does. -/
lemma fillPending_loaded (hd : Numbered d root) (hclosed : Closed d root) (hfuel : 3 * d.size + 8 ≤ fuel)
    (hl : Loading d root rule [] s) (hactive : s.active = []) (hbound : left d.size s ≤ bound) :
    Yields (Refused d root rule) (fillPending (d.under rule) fuel bound s) fun _ s' =>
      Loading d root rule [] s' ∧ s'.pending = [] ∧ ∀ id v, s.done.lookup id = some v → s'.done.lookup id = some v := by
  induction bound generalizing s with
  | zero =>
    have hpending : s.pending.length = 0 := by
      rw [left] at hbound
      omega
    exact .of_eq rfl ⟨hl, List.length_eq_zero_iff.mp hpending, fun _ _ h => h⟩
  | succ bound ih =>
    rw [fillPending]
    refine .step (a := s) (t := s) rfl ?_
    cases hs : s.pending with
    | nil => exact .of_eq rfl ⟨hl, hs, fun _ _ h => h⟩
    | cons n rest =>
      refine .step (a := ()) rfl ((fill_first_loaded hd hclosed hfuel hl hactive hs).bind ?_)
      rintro - s₁ ⟨hl₁, hactive₁, hdone₁, hless⟩
      refine (ih hl₁ hactive₁ (by omega)).mono ?_
      rintro - s₂ ⟨hl₂, hpending, hdone₂⟩
      exact ⟨hl₂, hpending, fun id v hv => hdone₂ id v (hdone₁ id v hv)⟩

lemma loading_initial : Loading d root rule [] ⟨[], [], [], [], [], [], d.size⟩ where
  sourced := ⟨fun _ _ _ _ he => comes_of_mem he, fun _ _ _ _ => rfl⟩
  texts _ := rfl
  done _ _ _ _ h := by cases h
  active := by simp
  nodup := List.nodup_nil
  pending := by simp
  filling := by simp
  size := rfl

/-- Loading a document. -/
theorem loading_complete (hd : Numbered d root) (hclosed : Closed d root) :
    Yields (Refused d root rule) ((do
      let v ← Make.value (d.under rule) d.depth false root
      Make.fillPending (d.under rule) d.depth (d.size + 1)
      Make.current v : Make Value) ⟨[], [], [], [], [], [], d.size⟩) fun v s =>
      Complete d root rule s ∧ ∃ w, Has d.source s root w ∧ v = w.unfold s.contents := by
  have hfuel : 3 * d.size + 8 ≤ d.depth := by
    rw [Document.depth]
    omega
  refine (value_loaded hd hclosed d.depth false root (Node.mem_parts_self root) _ loading_initial
    fun _ => .idle hfuel .root).bind ?_
  rintro w s₁ ⟨hp, hw, -⟩
  have hbound : left d.size s₁ ≤ d.size + 1 := by
    have hcard : (unmade d.size ⟨[], [], [], [], [], [], d.size⟩).card ≤ d.size :=
      (Finset.card_filter_le _ _).trans (Nat.le_of_eq (Finset.card_range d.size))
    refine hp.bounded.trans ?_
    rw [left, List.length_nil]
    omega
  refine (fillPending_loaded hd hclosed hfuel hp.loading hp.active hbound).bind ?_
  rintro - s₂ ⟨hl, hpending, hdone⟩
  have hw₂ : Has d.source s₂ root w := hdone _ _ hw
  exact .of_eq rfl ⟨⟨hl, hpending, hw₂.isDone⟩, w, hw₂, rfl⟩

lemma Complete.filled (hs : Complete d root rule s) (hn : n ∈ root.parts) (hsolid : n.isSolid = true)
    (hdone : s.done.lookup n.head.id ≠ none) (htag : isCollectionTag n.head.tag = true) : Filled d rule s n := by
  obtain ⟨v, hv⟩ := Option.ne_none_iff_exists'.mp hdone
  cases (hs.loading.done n hn hsolid v hv).provided htag with
  | waiting pending =>
    rw [hs.pending] at pending
    exact absurd pending List.not_mem_nil
  | filling mem => exact absurd mem List.not_mem_nil
  | filled filled => exact filled

/-- A value that is made of a node is one that the node can have. -/
lemma Complete.isValueOf {v : Value} (hs : Complete d root rule s) (hd : Numbered d root) (hclosed : Closed d root)
    (hn : n ∈ root.parts) (hv : Has d.source s n v) : IsValueOf d root (follow d.source n) v :=
  (hs.loading.done _ (follow_mem hd hn) (hclosed n hn) v hv).value

end Filling

end Make

open Make

namespace Document

variable {d : Document} {root : Node} {rule : KeyRule} {v : Value} {fault : Fault}

lemma value_eq (hroot : d.root = some root) : d.value rule = (Except.map (fun p => p.1.pruned) ((do
    let v ← Make.value (d.under rule) d.depth false root
    Make.fillPending (d.under rule) d.depth (d.size + 1)
    Make.current v : Make Value) ⟨[], [], [], [], [], [], d.size⟩)) := by
  rw [Document.value.eq_def, hroot]
  rfl

/-- A document that has a value is loaded completely. -/
theorem complete_of_value (hd : Numbered d root) (hclosed : Closed d root) (hroot : d.root = some root)
    (h : d.value rule = .ok v) :
    ∃ s w, Complete d root rule s ∧ Has d.source s root w ∧ v = (w.unfold s.contents).pruned := by
  rw [value_eq hroot] at h
  obtain ⟨⟨u, s⟩, hrun, rfl⟩ := map_eq_ok h
  obtain ⟨hs, w, hw, rfl⟩ := (loading_complete hd hclosed).of_ok hrun
  exact ⟨s, w, hs, hw, rfl⟩

/-- A document without a value is refused. -/
theorem refused_of_value (hd : Numbered d root) (hclosed : Closed d root) (hroot : d.root = some root)
    (h : d.value rule = .error fault) : Refused d root rule fault := by
  rw [value_eq hroot] at h
  have hyields : Yields (Refused d root rule) _ _ := loading_complete hd hclosed
  cases hrun : (do
      let v ← Make.value (d.under rule) d.depth false root
      Make.fillPending (d.under rule) d.depth (d.size + 1)
      Make.current v : Make Value) ⟨[], [], [], [], [], [], d.size⟩ with
  | ok p =>
    rw [hrun] at h
    cases h
  | error fault' =>
    rw [hrun] at h hyields
    cases h
    exact hyields

end Document

end DocPath.Yaml
