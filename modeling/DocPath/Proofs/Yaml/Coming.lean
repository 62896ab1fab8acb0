import DocPath.Proofs.Yaml.Merging

/-! The entries that come to a mapping, whatever the rule for keys and whatever has been merged before: each is one of
its own or of a mapping that it absorbs, and without merge keys they are its own. -/

namespace DocPath.Yaml

/-- A document with a rule for its keys. -/
def Document.under (d : Document) (rule : KeyRule) : Source := ⟨rule, d.anchored⟩

namespace Make

/-- An entry comes to a node: it is one of its own or of a node that it absorbs. -/
def Comes (d : Document) (n : Node) (e : Node × Node) : Prop := ∃ m, Absorbs d.source n m ∧ e ∈ m.entries

/-- Entries that a mapping may come to have. -/
structure Gathered (d : Document) (n : Node) (es : List (Node × Node)) : Prop where
  comes : ∀ e ∈ es, Comes d n e
  own : Plain d.source n.entries → es = n.entries

/-- The entries now are such that come to their mappings, and those of a mapping without merge keys are untouched. -/
structure Sourced (d : Document) (root : Node) (s : Making) : Prop where
  comes : ∀ h own, .mapping h own ∈ root.parts → ∀ e ∈ entriesNow s h own, Comes d (.mapping h own) e
  plain : ∀ h own, .mapping h own ∈ root.parts → Plain d.source own → s.entries.lookup h.id = none

/-- Nothing but entries and texts is changed. -/
def Rewrites (s s' : Making) : Prop := s' = { s with entries := s'.entries, texts := s'.texts }

/-- A document without merge keys, in which no key of a mapping or set is the sign for its value. -/
structure Clear (d : Document) (root : Node) : Prop where
  unmerged : ∀ n ∈ root.parts, Plain d.source n.entries
  unsigned : ∀ n ∈ root.parts, n.head.tag = Tag.mapping ∨ n.head.tag = Tag.set →
    ∀ e ∈ n.entries, (follow d.source e.1).head.tag ≠ Tag.value

instance {d : Document} {root : Node} : Decidable (Clear d root) :=
  decidable_of_iff ((∀ n ∈ root.parts, ∀ e ∈ n.entries, merges d.source e = false) ∧
      ∀ n ∈ root.parts, n.head.tag = Tag.mapping ∨ n.head.tag = Tag.set →
        ∀ e ∈ n.entries, (follow d.source e.1).head.tag ≠ Tag.value)
    ⟨fun h => ⟨h.1, h.2⟩, fun h => ⟨h.unmerged, h.unsigned⟩⟩

section Sources

variable {d : Document} {root n m : Node} {rule : KeyRule} {s s' s'' : Making} {h : Head} {own es : List (Node × Node)}
  {e : Node × Node} {src : Source}

@[simp] lemma follow_under : follow (d.under rule) n = follow d.source n := by
  cases n <;> rfl

lemma merges_under : merges (d.under rule) e = merges d.source e := by
  rw [merges, merges, follow_under]

lemma plain_under : Plain (d.under rule) es ↔ Plain d.source es := by
  simp only [Plain, merges_under]

lemma comes_of_mem (he : e ∈ n.entries) : Comes d n e := ⟨n, .refl n, he⟩

lemma Comes.trans (h : Comes d n e) (hm : merges d.source e = true) {g : Node} (hg : g ∈ listed d.source e.2)
    {e' : Node × Node} (h' : Comes d g e') : Comes d n e' := by
  obtain ⟨m, habsorbs, he⟩ := h
  obtain ⟨m', habsorbs', he'⟩ := h'
  exact ⟨m', habsorbs.trans (.merge he hm hg habsorbs'), he'⟩

lemma Comes.isEntry (hd : Numbered d root) (hn : n ∈ root.parts) (h : Comes d n e) : IsEntry root e := by
  obtain ⟨m, habsorbs, he⟩ := h
  exact isEntry_of_mem (habsorbs.mem hd hn).1 he

lemma Comes.of_plain (hn : Plain d.source n.entries) (h : Comes d n e) : e ∈ n.entries := by
  obtain ⟨m, habsorbs, he⟩ := h
  cases habsorbs with
  | refl => exact he
  | merge he' hm => exact (hn.not_merges he' hm).elim

lemma Sourced.of_entries (h : Sourced d root s) (hs : s'.entries = s.entries) : Sourced d root s' := by
  refine ⟨fun g other hg => ?_, fun g other hg hplain => ?_⟩
  · rw [entriesNow, hs]
    exact h.comes g other hg
  · rw [hs]
    exact h.plain g other hg hplain

lemma Sourced.set (hd : Numbered d root) (hs : Sourced d root s) (hn : .mapping h own ∈ root.parts)
    (hown : ¬Plain d.source own) (hes : ∀ e ∈ es, Comes d (.mapping h own) e) :
    Sourced d root { s with entries := (h.id, es) :: s.entries } where
  comes := forall_set (p := fun h own es => ∀ e ∈ es, Comes d (.mapping h own) e) hd hn hes hs.comes
  plain g other hg hplain := by
    have hne : g.id ≠ h.id := fun he => hown ((mapping_unique hd hn hg he).2 ▸ hplain)
    exact (lookup_set_of_ne hne).trans (hs.plain g other hg hplain)

lemma Sourced.entriesNow_plain (hs : Sourced d root s) (hn : .mapping h own ∈ root.parts) (hown : Plain d.source own) :
    entriesNow s h own = own :=
  entriesNow_of_none (hs.plain h own hn hown)

lemma Sourced.gathered (hs : Sourced d root s) (hn : .mapping h own ∈ root.parts) :
    Gathered d (.mapping h own) (entriesNow s h own) :=
  ⟨hs.comes h own hn, hs.entriesNow_plain hn⟩

lemma splitAtMerge_plain (h : Plain src es) : splitAtMerge src es = none := by
  cases hs : splitAtMerge src es with
  | none => rfl
  | some p =>
    obtain ⟨k, rfl, hmerges, -⟩ := splitAtMerge_some hs
    exact (h.not_merges (List.mem_append_right _ List.mem_cons_self) hmerges).elim

lemma Rewrites.refl : Rewrites s s := rfl

lemma Rewrites.trans (h : Rewrites s s') (h' : Rewrites s' s'') : Rewrites s s'' := by
  rw [Rewrites] at *
  rw [h] at h'
  exact h'

end Sources

section Runs

variable {d : Document} {root : Node} {rule : KeyRule} {s : Making} {h : Head} {own es merged : List (Node × Node)}
  {fuel passed : Nat} {flat : Head → List (Node × Node) → Make (List (Node × Node))}

/-- What is brought in by a run comes to one of the nodes `ns`. -/
structure Brings (d : Document) (root : Node) (ns : List Node) (s : Making) (es : List (Node × Node)) (s' : Making) :
    Prop where
  comes : ∀ e ∈ es, ∃ n ∈ ns, Comes d n e
  sourced : Sourced d root s'
  rewrites : Rewrites s s'

/-- Whatever is given as the way to flatten a mapping brings in what comes to it. -/
def Gathers (d : Document) (root : Node) (flat : Head → List (Node × Node) → Make (List (Node × Node))) : Prop :=
  ∀ h own s, .mapping h own ∈ root.parts → Sourced d root s →
    Yields (fun _ => True) (flat h own s) (Brings d root [.mapping h own] s)

lemma mergeAll_brings {items : List Node} (hflat : Gathers d root flat)
    (hitems : ∀ n ∈ items, follow d.source n ∈ root.parts) (hs : Sourced d root s) :
    Yields (fun _ => True) (mergeAll (d.under rule) flat h items s)
      (Brings d root (items.map (follow d.source)) s) := by
  induction items generalizing s with
  | nil => exact .of_eq rfl ⟨by simp, hs, .refl⟩
  | cons n items ih =>
    obtain ⟨hn, hrest⟩ := List.forall_mem_cons.mp hitems
    rw [mergeAll, follow_under]
    cases heq : follow d.source n with
    | mapping g own =>
      refine (hflat g own s (heq ▸ hn) hs).bind fun es s₁ h₁ => ?_
      refine (ih hrest h₁.sourced).bind fun more s₂ h₂ => .of_eq rfl ⟨?_, h₂.sourced, h₁.rewrites.trans h₂.rewrites⟩
      rw [List.map_cons, heq]
      refine List.forall_mem_append.mpr ⟨fun e he => ?_, fun e he => ?_⟩
      · obtain ⟨m, hm, hcomes⟩ := h₂.comes e he
        exact ⟨m, List.mem_cons_of_mem _ hm, hcomes⟩
      · obtain ⟨m, hm, hcomes⟩ := h₁.comes e he
        exact ⟨m, List.mem_singleton.mp hm ▸ List.mem_cons_self, hcomes⟩
    | _ => trivial

lemma merge_brings (hd : Numbered d root) (hflat : Gathers d root flat) {e : Node × Node} (he : IsEntry root e)
    (hs : Sourced d root s) :
    Yields (fun _ => True) (merge (d.under rule) flat h e.2 s) (Brings d root (listed d.source e.2) s) := by
  have hmem := listed_mem hd he.parts.2
  rw [listed] at hmem ⊢
  rw [merge, follow_under]
  cases heq : follow d.source e.2 with
  | mapping g own =>
    rw [heq] at hmem
    exact hflat g own s (hmem _ (List.mem_singleton_self _)) hs
  | sequence g items =>
    rw [heq] at hmem
    exact mergeAll_brings hflat (List.forall_mem_map.mp hmem) hs
  | _ => trivial

/-- Whatever has been merged, all entries come to the mapping. -/
lemma flattenFrom_brings (hd : Numbered d root) (hn : .mapping h own ∈ root.parts) (hs : Sourced d root s)
    (hmerged : ∀ e ∈ merged, Comes d (.mapping h own) e) (hown : merged ≠ [] → ¬Plain d.source own) :
    Yields (fun _ => True) (flattenFrom (d.under rule) fuel h own merged passed s)
      (Brings d root [.mapping h own] s) := by
  induction fuel generalizing h own merged passed s with
  | zero => trivial
  | succ fuel ih =>
    obtain ⟨es, hnow⟩ : ∃ es, entriesNow s h own = es := ⟨_, rfl⟩
    have hes := hs.comes h own hn
    rw [hnow] at hes
    cases hsplit : splitAtMerge (d.under rule) (es.drop passed) with
    | none =>
      obtain ⟨texts, hrun⟩ := flattenFrom_end fuel merged hnow hsplit
      have hall : ∀ e ∈ merged ++ es, Comes d (.mapping h own) e := List.forall_mem_append.mpr ⟨hmerged, hes⟩
      refine .of_eq hrun ⟨fun e he => ⟨_, List.mem_singleton_self _, hall e he⟩, ?_, rfl⟩
      by_cases hempty : merged = []
      · rw [if_pos hempty]
        exact hs.of_entries rfl
      · rw [if_neg hempty]
        exact (hs.set hd hn (hown hempty) hall).of_entries rfl
    | some p =>
      obtain ⟨before, source, after⟩ := p
      obtain ⟨k, hdrop, hmerges, -⟩ := splitAtMerge_some hsplit
      rw [merges_under] at hmerges
      have hdrop : es.drop passed = before ++ (k, source) :: after := hdrop
      have hin : ∀ e ∈ before ++ (k, source) :: after, e ∈ es := fun e he =>
        List.mem_of_mem_drop (hdrop ▸ he)
      have hkey : Comes d (.mapping h own) (k, source) :=
        hes _ (hin _ (List.mem_append_right _ List.mem_cons_self))
      -- only a mapping that is written with merge keys has any
      have hmixed : ¬Plain d.source own := fun hplain => hplain.not_merges (hkey.of_plain hplain) hmerges
      rw [flattenFrom_merge hnow hsplit]
      have hleft : ∀ e ∈ es.take passed ++ before ++ after, Comes d (.mapping h own) e := by
        intro e he
        simp only [List.mem_append] at he
        rcases he with (he | he) | he
        · exact hes e (List.mem_of_mem_take he)
        · exact hes e (hin e (List.mem_append_left _ he))
        · exact hes e (hin e (List.mem_append_right _ (List.mem_cons_of_mem _ he)))
      refine (merge_brings hd (fun g other s hg hs => ih hg hs (by simp) (by simp)) (hkey.isEntry hd hn)
        (hs.set hd hn hmixed hleft)).bind fun more s₂ h₂ => ?_
      refine (ih hn h₂.sourced (List.forall_mem_append.mpr ⟨hmerged, fun e he => ?_⟩) fun _ => hmixed).mono
        fun es' s' h' => ⟨h'.comes, h'.sourced, ?_⟩
      · obtain ⟨g, hg, hcomes⟩ := h₂.comes e he
        exact hkey.trans hmerges hg hcomes
      · have hset : Rewrites s { s with entries := (h.id, es.take passed ++ before ++ after) :: s.entries } := rfl
        exact hset.trans (h₂.rewrites.trans h'.rewrites)

/-- Without merge keys and signs for values there is nothing to do. -/
lemma flatten_plain (hnow : entriesNow s h own = own) (hplain : Plain d.source own)
    (hunsigned : ∀ e ∈ own, (follow d.source e.1).head.tag ≠ Tag.value) :
    flatten (d.under rule) (fuel + 1) h own s = .ok (own, s) := by
  have hsplit : splitAtMerge (d.under rule) (own.drop 0) = none :=
    splitAtMerge_plain (plain_under.mpr hplain)
  have htexts : noteTexts (d.under rule) own s = .ok ((), s) := by
    have hnone : (own.filterMap fun e =>
        if (follow (d.under rule) e.1).head.tag = Tag.value then some (follow (d.under rule) e.1).head.id else none) = [] := by
      refine List.filterMap_eq_nil_iff.mpr fun e he => if_neg ?_
      rw [follow_under]
      exact hunsigned e he
    show Except.ok ((), { s with texts := _ ++ s.texts }) = _
    rw [hnone]
    rfl
  rw [flatten, flattenFrom, bind_ok (a := own) (t := s) (congrArg (fun es => Except.ok (es, s)) hnow), hsplit]
  dsimp only
  rw [bind_ok htexts]
  rfl

/-- Flattening gathers entries, and changes nothing in a clear document. -/
theorem flatten_gathers (hd : Numbered d root) (hn : .mapping h own ∈ root.parts) (hs : Sourced d root s)
    (hready : Clear d root → 0 < fuel ∧ (h.tag = Tag.mapping ∨ h.tag = Tag.set)) :
    Yields (fun _ => ¬Clear d root) (flatten (d.under rule) fuel h own s) fun es s' =>
      Gathered d (.mapping h own) es ∧ Sourced d root s' ∧ Rewrites s s' ∧ (Clear d root → s' = s) := by
  by_cases hclear : Clear d root
  · obtain ⟨hfuel, htag⟩ := hready hclear
    obtain ⟨k, rfl⟩ : ∃ k, fuel = k + 1 := ⟨fuel - 1, by omega⟩
    have hplain : Plain d.source own := hclear.unmerged _ hn
    refine .of_eq (flatten_plain (hs.entriesNow_plain hn hplain) hplain (hclear.unsigned _ hn htag)) ?_
    exact ⟨⟨fun e he => comes_of_mem he, fun _ => rfl⟩, hs, .refl, fun _ => rfl⟩
  · have hbrings : Yields (fun _ => True) (flatten (d.under rule) fuel h own s) (Brings d root [.mapping h own] s) :=
      flattenFrom_brings hd hn hs (by simp) (by simp)
    have hown : Yields (fun _ => True) (flatten (d.under rule) fuel h own s) fun es _ => Plain d.source own → es = own := by
      by_cases hplain : Plain d.source own
      · cases fuel with
        | zero => trivial
        | succ fuel =>
          have hsplit : splitAtMerge (d.under rule) (own.drop 0) = none :=
            splitAtMerge_plain (plain_under.mpr hplain)
          obtain ⟨texts, hrun⟩ := flattenFrom_end fuel [] (hs.entriesNow_plain hn hplain) hsplit
          exact .of_eq hrun fun _ => rfl
      · exact hbrings.mono fun _ _ _ h => absurd h hplain
    refine ((hbrings.and hown).mono fun es s' h' => ?_).expect fun _ _ => hclear
    refine ⟨⟨fun e he => ?_, h'.2⟩, h'.1.sourced, h'.1.rewrites, fun h => absurd h hclear⟩
    obtain ⟨m, hm, hcomes⟩ := h'.1.comes e he
    exact List.mem_singleton.mp hm ▸ hcomes

end Runs

end DocPath.Yaml.Make
