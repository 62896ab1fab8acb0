import DocPath.Proofs.Yaml.Flattened
import DocPath.Proofs.Yaml.Keeps

/-! Merging. A mapping with merge keys is rewritten when it is merged or made: the merge keys give way to the
entries of what they list. Whatever the order of these steps and even if mappings merge themselves, the written
entries stay where they are, and what is listed has come in when the merge keys are gone. The entries of a mapping
that does not merge itself are its own or, from some step on, flat. -/

namespace DocPath.Yaml.Make

/-- The entries of a mapping as they are now. -/
def entriesNow (s : Making) (h : Head) (own : List (Node × Node)) : List (Node × Node) :=
  (s.entries.lookup h.id).getD own

/-- The entries now are entries of mappings, the explicit ones of their own among them and no merge keys but their own,
and those of a mapping without merge keys have not changed. -/
structure Consistent (d : Document) (root : Node) (s : Making) : Prop where
  known : ∀ h own, .mapping h own ∈ root.parts → ∀ e ∈ entriesNow s h own, IsEntry root e
  explicit : ∀ h own, .mapping h own ∈ root.parts → (explicit d.source own).Sublist (entriesNow s h own)
  merging : ∀ h own, .mapping h own ∈ root.parts → ∀ e ∈ entriesNow s h own, merges d.source e = true → e ∈ own
  plain : ∀ h own, .mapping h own ∈ root.parts → Plain d.source own → s.entries.lookup h.id = none

/-- Nothing that a node absorbs has merge keys left. -/
def Resolved (d : Document) (root : Node) (s : Making) (n : Node) : Prop :=
  ∀ h own, .mapping h own ∈ root.parts → Absorbs d.source n (.mapping h own) → Plain d.source (entriesNow s h own)

/-- The entries of a mapping have been replaced: one of the nodes `ns` absorbs it, and they are flat now. -/
structure Replaced (d : Document) (root : Node) (ns : List Node) (s : Making) (h : Head) (own : List (Node × Node)) :
    Prop where
  mixed : ¬Plain d.source own
  absorbed : ∃ n ∈ ns, Absorbs d.source n (.mapping h own)
  flat : Grounded d (.mapping h own) → entriesNow s h own = flatOf d own
  resolved : Grounded d (.mapping h own) → Resolved d root s (.mapping h own)

/-- What merging the nodes `ns` may change. -/
structure Rewritten (d : Document) (root : Node) (ns : List Node) (s s' : Making) : Prop where
  rest : s' = { s with entries := s'.entries, texts := s'.texts }
  covers : ∀ h own, .mapping h own ∈ root.parts → Covers d.source (entriesNow s h own) (entriesNow s' h own)
  plain : ∀ h own, .mapping h own ∈ root.parts →
    entriesNow s' h own = entriesNow s h own ∨ Plain d.source (entriesNow s' h own)
  touched : ∀ h own, .mapping h own ∈ root.parts →
    s'.entries.lookup h.id = s.entries.lookup h.id ∨ Replaced d root ns s' h own

/-- All that a node absorbs has its own entries still, or flat ones. -/
def Clean (d : Document) (root : Node) (s : Making) (n : Node) : Prop :=
  ∀ h own, .mapping h own ∈ root.parts → Absorbs d.source n (.mapping h own) → Grounded d (.mapping h own) →
    entriesNow s h own = own ∨ entriesNow s h own = flatOf d own ∧ Resolved d root s (.mapping h own)

/-- What merging the nodes `ns` comes to. -/
structure Merging (d : Document) (root : Node) (ns : List Node) (s : Making) (es : List (Node × Node)) (s' : Making) :
    Prop where
  rewritten : Rewritten d root ns s s'
  consistent : Consistent d root s'
  plain : Plain d.source es
  known : ∀ e ∈ es, IsEntry root e
  listed : ∀ g ∈ ns, explicit d.source g.entries ⊆ es
  flat : (∀ g ∈ ns, Grounded d g) → es = ns.reverse.flatMap fun g => flatOf d g.entries
  resolved : ∀ g ∈ ns, Grounded d g → Resolved d root s' g

section Steps

variable {d : Document} {root n g : Node} {ns ns' : List Node} {s s' s'' : Making} {h : Head}
  {own es : List (Node × Node)} {e : Node × Node}

lemma mapping_unique (hd : Numbered d root) {g : Head} {other : List (Node × Node)} (hn : .mapping h own ∈ root.parts)
    (hm : .mapping g other ∈ root.parts) (he : g.id = h.id) : g = h ∧ other = own := by
  have heq := hd.unique _ hm rfl _ hn rfl he
  injection heq with hhead hentries
  exact ⟨hhead, hentries⟩

lemma entriesNow_congr (hs : s'.entries.lookup h.id = s.entries.lookup h.id) : entriesNow s' h own = entriesNow s h own := by
  rw [entriesNow, entriesNow, hs]

lemma entriesNow_set_self (hs : s'.entries = (h.id, es) :: s.entries) : entriesNow s' h own = es := by
  rw [entriesNow, hs, List.lookup_cons, beq_self_eq_true]
  rfl

lemma entriesNow_of_none (h' : s.entries.lookup h.id = none) : entriesNow s h own = own := by
  rw [entriesNow, h']
  rfl

lemma lookup_set_of_ne {g : Head} (hne : g.id ≠ h.id) :
    ((h.id, es) :: s.entries).lookup g.id = s.entries.lookup g.id := by
  rw [List.lookup_cons, beq_eq_false_iff_ne.mpr hne]

lemma entriesNow_set_of_ne {g : Head} {other : List (Node × Node)} (hne : g.id ≠ h.id) :
    entriesNow { s with entries := (h.id, es) :: s.entries } g other = entriesNow s g other :=
  entriesNow_congr (lookup_set_of_ne hne)

lemma forall_set {p : Head → List (Node × Node) → List (Node × Node) → Prop} (hd : Numbered d root)
    (hn : .mapping h own ∈ root.parts) (hes : p h own es)
    (hs : ∀ g other, .mapping g other ∈ root.parts → p g other (entriesNow s g other)) :
    ∀ g other, .mapping g other ∈ root.parts →
      p g other (entriesNow { s with entries := (h.id, es) :: s.entries } g other) := by
  intro g other hg
  by_cases he : g.id = h.id
  · obtain ⟨rfl, rfl⟩ := mapping_unique hd hn hg he
    rwa [entriesNow_set_self rfl]
  · rw [entriesNow_set_of_ne he]
    exact hs g other hg

lemma Rewritten.refl : Rewritten d root ns s s :=
  ⟨rfl, fun _ _ _ => .refl, fun _ _ _ => .inl rfl, fun _ _ _ => .inl rfl⟩

lemma Rewritten.texts {texts : List Nat} : Rewritten d root ns s { s with texts := texts } :=
  ⟨rfl, fun _ _ _ => .refl, fun _ _ _ => .inl rfl, fun _ _ _ => .inl rfl⟩

lemma Consistent.texts (hs : Consistent d root s) {texts : List Nat} :
    Consistent d root { s with texts := texts } :=
  ⟨hs.known, hs.explicit, hs.merging, hs.plain⟩

lemma Consistent.set (hd : Numbered d root) (hs : Consistent d root s) (hn : .mapping h own ∈ root.parts)
    (hown : ¬Plain d.source own) (hknown : ∀ e ∈ es, IsEntry root e)
    (hexplicit : (Make.explicit d.source own).Sublist es) (hmerging : ∀ e ∈ es, merges d.source e = true → e ∈ own) :
    Consistent d root { s with entries := (h.id, es) :: s.entries } where
  known := forall_set (p := fun _ _ es => ∀ e ∈ es, IsEntry root e) hd hn hknown hs.known
  explicit := forall_set (p := fun _ own es => (Make.explicit d.source own).Sublist es) hd hn hexplicit hs.explicit
  merging := forall_set (p := fun _ own es => ∀ e ∈ es, merges d.source e = true → e ∈ own) hd hn hmerging hs.merging
  plain g other hg hplain := by
    have he : g.id ≠ h.id := fun he => hown ((mapping_unique hd hn hg he).2 ▸ hplain)
    exact (lookup_set_of_ne he).trans (hs.plain g other hg hplain)

/-- A rewriting that begins with replacing the entries of a mapping with merge keys. -/
lemma Rewritten.of_set (hd : Numbered d root) (hn : .mapping h own ∈ root.parts)
    (h' : Rewritten d root [.mapping h own] { s with entries := (h.id, es) :: s.entries } s')
    (hcovers : Covers d.source (entriesNow s h own) (entriesNow s' h own))
    (hplain : Plain d.source (entriesNow s' h own)) (hreplaced : Replaced d root [.mapping h own] s' h own) :
    Rewritten d root [.mapping h own] s s' := by
  refine ⟨h'.rest, fun g other hg => ?_, fun g other hg => ?_, fun g other hg => ?_⟩
  · by_cases he : g.id = h.id
    · obtain ⟨rfl, rfl⟩ := mapping_unique hd hn hg he
      exact hcovers
    · have hg' := h'.covers g other hg
      rwa [entriesNow_set_of_ne he] at hg'
  · by_cases he : g.id = h.id
    · obtain ⟨rfl, rfl⟩ := mapping_unique hd hn hg he
      exact .inr hplain
    · have hg' := h'.plain g other hg
      rwa [entriesNow_set_of_ne he] at hg'
  · by_cases he : g.id = h.id
    · obtain ⟨rfl, rfl⟩ := mapping_unique hd hn hg he
      exact .inr hreplaced
    · exact (h'.touched g other hg).imp_left fun heq => heq.trans (lookup_set_of_ne he)

lemma Resolved.rewritten (h : Resolved d root s n) (hr : Rewritten d root ns s s') : Resolved d root s' n := by
  intro g own hg habsorbs
  rcases hr.plain g own hg with heq | hplain
  · rw [heq]
    exact h g own hg habsorbs
  · exact hplain

lemma Resolved.set (hd : Numbered d root) (hn : .mapping h own ∈ root.parts) (hs : Resolved d root s n)
    (hplain : Plain d.source es) : Resolved d root { s with entries := (h.id, es) :: s.entries } n := by
  refine forall_set (p := fun g other es => Absorbs d.source n (.mapping g other) → Plain d.source es) hd hn
    (fun _ => hplain) hs

lemma Resolved.of_listed (hplain : Plain d.source (entriesNow s h own))
    (hlisted : ∀ e ∈ own, merges d.source e = true → ∀ g ∈ listed d.source e.2, Resolved d root s g) :
    Resolved d root s (.mapping h own) := by
  intro g other hg habsorbs
  cases habsorbs with
  | refl => exact hplain
  | merge he hm hlist habsorbs => exact hlisted _ he hm _ hlist g other hg habsorbs

lemma Rewritten.trans (h : Rewritten d root ns s s') (h' : Rewritten d root ns s' s'') :
    Rewritten d root ns s s'' := by
  refine ⟨?_, fun g own hg => (h.covers g own hg).trans (h'.covers g own hg), fun g own hg => ?_, fun g own hg => ?_⟩
  · have hrest := h'.rest
    rw [h.rest] at hrest
    exact hrest
  · rcases h'.plain g own hg with heq | hplain
    · rw [heq]
      exact h.plain g own hg
    · exact .inr hplain
  · refine (h'.touched g own hg).elim (fun heq => ?_) .inr
    rw [heq]
    refine (h.touched g own hg).imp_right fun hr =>
      ⟨hr.mixed, hr.absorbed, fun hgrounded => ?_, fun hgrounded => (hr.resolved hgrounded).rewritten h'⟩
    rw [entriesNow_congr heq, hr.flat hgrounded]

lemma Rewritten.mono (h : Rewritten d root ns s s') (hns : ∀ g ∈ ns, ∃ n ∈ ns', Absorbs d.source n g) :
    Rewritten d root ns' s s' := by
  refine ⟨h.rest, h.covers, h.plain, fun g own hg => (h.touched g own hg).imp_right fun hr => ?_⟩
  obtain ⟨m, hm, habsorbs⟩ := hr.absorbed
  obtain ⟨n, hn, habsorbs'⟩ := hns m hm
  exact ⟨hr.mixed, ⟨n, hn, habsorbs'.trans habsorbs⟩, hr.flat, hr.resolved⟩

lemma Clean.rewritten (h : Clean d root s n) (hr' : Rewritten d root ns s s') : Clean d root s' n := by
  intro g own hg habsorbs hgrounded
  rcases hr'.touched g own hg with heq | hr
  · rw [entriesNow_congr heq]
    exact (h g own hg habsorbs hgrounded).imp_right fun hflat => ⟨hflat.1, hflat.2.rewritten hr'⟩
  · exact .inr ⟨hr.flat hgrounded, hr.resolved hgrounded⟩

lemma Clean.listed (h : Clean d root s n) (he : e ∈ n.entries) (hm : merges d.source e = true)
    (hg : g ∈ listed d.source e.2) : Clean d root s g :=
  fun m own hmem habsorbs => h m own hmem (.merge he hm hg habsorbs)

/-- What a mapping merges does not depend on its own entries. -/
lemma Clean.set (hd : Numbered d root) (hn : .mapping h own ∈ root.parts) (hs : Clean d root s g) (he : e ∈ own)
    (hm : merges d.source e = true) (hg : g ∈ Make.listed d.source e.2) :
    Clean d root { s with entries := (h.id, es) :: s.entries } g := by
  intro m other hmem habsorbs hgrounded
  have hno : ¬Absorbs d.source (.mapping m other) (.mapping h own) := fun hback =>
    (hgrounded.absorbs hback).not_absorbs he hm hg (habsorbs.trans hback)
  have hne {x : Head} {xs : List (Node × Node)} (hx : .mapping x xs ∈ root.parts)
      (hbelow : Absorbs d.source (.mapping m other) (.mapping x xs)) : x.id ≠ h.id := by
    intro heq
    obtain ⟨rfl, rfl⟩ := mapping_unique hd hn hx heq
    exact hno hbelow
  rw [entriesNow_set_of_ne (hne hmem (.refl _))]
  refine (hs m other hmem habsorbs hgrounded).imp_right fun hflat => ⟨hflat.1, fun x xs hx hbelow => ?_⟩
  rw [entriesNow_set_of_ne (hne hx hbelow)]
  exact hflat.2 x xs hx hbelow

end Steps

section Splits

variable {src : Source} {s : Making} {h : Head} {own es merged before after : List (Node × Node)} {source : Node}
  {fuel passed : Nat}

/-- Without merge keys, what has been merged comes in front, and nothing else is left to do. -/
lemma flattenFrom_end (fuel : Nat) (merged : List (Node × Node)) (hnow : entriesNow s h own = es)
    (hsplit : splitAtMerge src (es.drop passed) = none) :
    ∃ texts, flattenFrom src (fuel + 1) h own merged passed s = .ok (merged ++ es,
      { s with entries := if merged = [] then s.entries else (h.id, merged ++ es) :: s.entries, texts := texts }) := by
  subst hnow
  obtain ⟨texts, htexts⟩ : ∃ texts, noteTexts src (entriesNow s h own) s = .ok ((), { s with texts := texts }) :=
    ⟨_, rfl⟩
  refine ⟨texts, ?_⟩
  rw [flattenFrom, bind_ok (a := entriesNow s h own) (t := s) rfl, hsplit]
  dsimp only
  rw [bind_ok htexts]
  by_cases hempty : merged = []
  · subst hempty
    rfl
  · rw [if_neg hempty, if_neg (by simpa using hempty)]
    rfl

lemma flattenFrom_merge (hnow : entriesNow s h own = es)
    (hsplit : splitAtMerge src (es.drop passed) = some (before, source, after)) :
    flattenFrom src (fuel + 1) h own merged passed s =
      (merge src (fun g own => flattenFrom src fuel g own [] 0) h source >>= fun more =>
        flattenFrom src fuel h own (merged ++ more) (passed + before.length))
          { s with entries := (h.id, es.take passed ++ before ++ after) :: s.entries } := by
  subst hnow
  rw [flattenFrom, bind_ok (a := entriesNow s h own) (t := s) rfl, hsplit]
  rfl

/-- The entries around the first merge key that has not been looked at. -/
lemma splitAtMerge_drop (hpassed : Plain src (es.take passed))
    (hsplit : splitAtMerge src (es.drop passed) = some (before, source, after)) :
    ∃ k, merges src (k, source) = true ∧ es = (es.take passed ++ before) ++ (k, source) :: after ∧
      (es.take passed ++ before).length = passed + before.length ∧ Plain src (es.take passed ++ before) ∧
      Plain src before ∧ es.drop passed = before ++ (k, source) :: after := by
  obtain ⟨k, hdrop, hmerges, hbefore⟩ := splitAtMerge_some hsplit
  have hdrop : es.drop passed = before ++ (k, source) :: after := hdrop
  refine ⟨k, hmerges, ?_, ?_, hpassed.append hbefore, hbefore, hdrop⟩
  · rw [List.append_assoc, ← hdrop, List.take_append_drop]
  · have hlt : passed < es.length := by
      by_contra hle
      rw [List.drop_eq_nil_of_le (by omega)] at hdrop
      exact absurd hdrop (by simp)
    rw [List.length_append, List.length_take_of_le (by omega)]

end Splits

section Runs

variable {d : Document} {root : Node} {fair : Prop} {s s' : Making} {h : Head} {own merged : List (Node × Node)}
  {flat : Head → List (Node × Node) → Make (List (Node × Node))} {fuel passed : Nat}

/-- Whatever is given as the way to flatten a mapping merges it. -/
def Flattens (d : Document) (root : Node) (fair : Prop) (flat : Head → List (Node × Node) → Make (List (Node × Node))) :
    Prop :=
  ∀ h own s, .mapping h own ∈ root.parts → Consistent d root s → Clean d root s (.mapping h own) →
    Yields (Refuses fair) (flat h own s) (Merging d root [.mapping h own] s)

lemma mergeAll_spec {items : List Node} (hflat : Flattens d root fair flat)
    (hitems : ∀ n ∈ items, follow d.source n ∈ root.parts) (hs : Consistent d root s)
    (hclean : ∀ n ∈ items, Clean d root s (follow d.source n)) :
    Yields (Refuses fair) (mergeAll d.source flat h items s) (Merging d root (items.map (follow d.source)) s) := by
  induction items generalizing s with
  | nil => exact .of_eq rfl ⟨.refl, hs, by simp [Plain], by simp, by simp, by simp, by simp⟩
  | cons n items ih =>
    obtain ⟨hn, hrest⟩ := List.forall_mem_cons.mp hitems
    obtain ⟨hclean, hcleanRest⟩ := List.forall_mem_cons.mp hclean
    rw [mergeAll]
    cases heq : follow d.source n with
    | mapping g own =>
      rw [heq] at hn hclean
      refine (hflat g own s hn hs hclean).bind fun es s₁ h₁ => ?_
      refine (ih hrest h₁.consistent fun m hm => (hcleanRest m hm).rewritten h₁.rewritten).bind fun more s₂ h₂ => ?_
      refine .of_eq rfl ⟨(h₁.rewritten.mono ?_).trans (h₂.rewritten.mono ?_), h₂.consistent, h₂.plain.append h₁.plain,
        List.forall_mem_append.mpr ⟨h₂.known, h₁.known⟩, ?_, fun hgrounded => ?_, ?_⟩
      · exact List.forall_mem_singleton.mpr ⟨_, heq ▸ List.mem_cons_self, .refl _⟩
      · exact fun m hm => ⟨m, List.mem_cons_of_mem _ hm, .refl m⟩
      · rw [List.map_cons, List.forall_mem_cons]
        refine ⟨List.subset_append_of_subset_right _ ?_, fun m hm => List.subset_append_of_subset_left _ (h₂.listed m hm)⟩
        exact h₁.listed _ (heq ▸ List.mem_singleton_self _)
      · rw [List.map_cons, List.forall_mem_cons, heq] at hgrounded
        rw [List.map_cons, List.reverse_cons, List.flatMap_append, heq, h₂.flat hgrounded.2,
          h₁.flat (List.forall_mem_singleton.mpr hgrounded.1)]
        rfl
      · rw [List.map_cons, List.forall_mem_cons, heq]
        exact ⟨fun hgrounded => (h₁.resolved _ (List.mem_singleton_self _) hgrounded).rewritten h₂.rewritten, h₂.resolved⟩
    | _ => exact yields_failWithin

/-- What a merge key of the document brings in. -/
lemma merge_spec (hd : Numbered d root) (hflat : Flattens d root fair flat) {e : Node × Node} (he : IsEntry root e)
    (hs : Consistent d root s) (hclean : ∀ g ∈ listed d.source e.2, Clean d root s g) :
    Yields (Refuses fair) (merge d.source flat h e.2 s) (Merging d root (listed d.source e.2) s) := by
  have hmem := listed_mem hd he.parts.2
  rw [listed] at hmem hclean ⊢
  rw [merge]
  cases heq : follow d.source e.2 with
  | mapping g own =>
    rw [heq] at hmem hclean
    exact hflat g own s (hmem _ (List.mem_singleton_self _)) hs (hclean _ (List.mem_singleton_self _))
  | sequence g items =>
    rw [heq] at hmem hclean
    exact mergeAll_spec hflat (List.forall_mem_map.mp hmem) hs (List.forall_mem_map.mp hclean)
  | _ => exact yields_failWithin

/-- At the end, what has been merged comes in front. -/
lemma Merging.ended {es : List (Node × Node)} {texts : List Nat} (hd : Numbered d root)
    (hn : .mapping h own ∈ root.parts) (hs : Consistent d root s) (hnow : entriesNow s h own = es)
    (hplain : Plain d.source es) (hmerged : Plain d.source merged) (hknown : ∀ e ∈ merged, IsEntry root e)
    (hown : merged ≠ [] → ¬Plain d.source own) (hflat : Grounded d (.mapping h own) → merged ++ es = flatOf d own)
    (hresolved : Grounded d (.mapping h own) → ∀ e ∈ own, merges d.source e = true → ∀ g ∈ Make.listed d.source e.2,
      Resolved d root s g)
    (hs' : s' = { s with
      entries := if merged = [] then s.entries else (h.id, merged ++ es) :: s.entries, texts := texts }) :
    Merging d root [.mapping h own] s (merged ++ es) s' ∧ merged ++ es = entriesNow s' h own := by
  subst hs'
  have hentries := hs.known h own hn
  have hexplicit := hs.explicit h own hn
  rw [hnow] at hentries hexplicit
  have hflat' (hall : ∀ g ∈ [Node.mapping h own], Grounded d g) :
      merged ++ es = [Node.mapping h own].reverse.flatMap fun g => flatOf d g.entries := by
    rw [hflat (hall _ (List.mem_singleton_self _))]
    exact (List.append_nil _).symm
  have hbelow (hgrounded : Grounded d (.mapping h own)) : Resolved d root s (.mapping h own) :=
    .of_listed (hnow ▸ hplain) (hresolved hgrounded)
  by_cases hempty : merged = []
  · subst hempty
    exact ⟨⟨.texts, hs.texts, hplain, hentries, List.forall_mem_singleton.mpr hexplicit.subset, hflat',
      List.forall_mem_singleton.mpr hbelow⟩, hnow.symm⟩
  · rw [if_neg hempty]
    have hall : ∀ e ∈ merged ++ es, IsEntry root e := List.forall_mem_append.mpr ⟨hknown, hentries⟩
    have hsub := hexplicit.trans (List.sublist_append_right merged es)
    have hfinal := hmerged.append hplain
    have htexts : Consistent d root { s with texts := texts } := hs.texts
    have hset := htexts.set hd hn (hown hempty) hall hsub fun e he hm => (hfinal.not_merges he hm).elim
    have hafter (hgrounded : Grounded d (.mapping h own)) := (hbelow hgrounded).set hd hn hfinal
    refine ⟨⟨.of_set hd hn .texts ?_ ?_ ⟨hown hempty, ⟨_, List.mem_singleton_self _, .refl _⟩, ?_, hafter⟩, hset, hfinal,
      hall, List.forall_mem_singleton.mpr hsub.subset, hflat', List.forall_mem_singleton.mpr hafter⟩,
      (entriesNow_set_self (s := s) rfl).symm⟩
    · rw [hnow, entriesNow_set_self (s := s) rfl]
      exact Covers.refl.append merged
    · rwa [entriesNow_set_self (s := s) rfl]
    · rwa [entriesNow_set_self (s := s) rfl]

/-- Only a mapping that is written with merge keys has some. -/
lemma not_plain_of_merges {e : Node × Node} (hn : .mapping h own ∈ root.parts) (hs : Consistent d root s)
    (he : e ∈ entriesNow s h own) (hm : merges d.source e = true) : ¬Plain d.source own :=
  fun hplain => hplain.not_merges (hs.merging h own hn e he hm) hm

lemma Consistent.drop {front after : List (Node × Node)} {e : Node × Node} (hd : Numbered d root)
    (hn : .mapping h own ∈ root.parts) (hs : Consistent d root s) (hnow : entriesNow s h own = front ++ e :: after)
    (hm : merges d.source e = true) : Consistent d root { s with entries := (h.id, front ++ after) :: s.entries } := by
  have hsub : front ++ after ⊆ front ++ e :: after := (List.Sublist.append_left (List.sublist_cons_self _ _) _).subset
  have hown := not_plain_of_merges hn hs (hnow ▸ List.mem_append_right _ List.mem_cons_self) hm
  have hexplicit := explicit_sublist (hs.explicit h own hn)
  have hknown := hs.known h own hn
  have hmerging := hs.merging h own hn
  rw [hnow] at hexplicit hknown hmerging
  rw [explicit_append, explicit_cons_merge hm, ← explicit_append] at hexplicit
  exact hs.set hd hn hown (fun e he => hknown e (hsub he)) (hexplicit.trans List.filter_sublist)
    fun e he => hmerging e (hsub he)

/-- A merge key is taken away, what it lists is merged, and the rest is done. -/
lemma Merging.after_merge {front after more es : List (Node × Node)} {e : Node × Node} {s₂ : Making}
    (hd : Numbered d root) (hn : .mapping h own ∈ root.parts) (hs : Consistent d root s)
    (hnow : entriesNow s h own = front ++ e :: after) (hm : merges d.source e = true)
    (hmore : Merging d root (Make.listed d.source e.2) { s with entries := (h.id, front ++ after) :: s.entries } more s₂)
    (hrest : Merging d root [.mapping h own] s₂ es s') (hes : es = entriesNow s' h own) (hin : more ⊆ es) :
    Merging d root [.mapping h own] s es s' := by
  subst hes
  have he : e ∈ entriesNow s h own := hnow ▸ List.mem_append_right _ List.mem_cons_self
  have hown : e ∈ own := hs.merging h own hn e he hm
  have hlater : Rewritten d root [.mapping h own] { s with entries := (h.id, front ++ after) :: s.entries } s' :=
    (hmore.rewritten.mono fun g hg => ⟨_, List.mem_singleton_self _, .merge hown hm hg (.refl g)⟩).trans hrest.rewritten
  have hkept := hlater.covers h own hn
  rw [entriesNow_set_self rfl] at hkept
  have hcovers : Covers d.source (entriesNow s h own) (entriesNow s' h own) := by
    rw [hnow]
    exact hkept.merge hm fun g hg => List.Subset.trans (hmore.listed g hg) hin
  have hflat (hgrounded : Grounded d (.mapping h own)) : entriesNow s' h own = flatOf d own := by
    rw [hrest.flat (List.forall_mem_singleton.mpr hgrounded)]
    exact List.append_nil _
  exact ⟨.of_set hd hn hlater hcovers hrest.plain ⟨not_plain_of_merges hn hs he hm, ⟨_, List.mem_singleton_self _, .refl _⟩,
    hflat, hrest.resolved _ (List.mem_singleton_self _)⟩, hrest.consistent, hrest.plain, hrest.known, hrest.listed,
    hrest.flat, hrest.resolved⟩

/-- What there will be, if all goes as it is written from here on: what has been merged and what the merge keys that
are left bring in come before the explicit entries. -/
def Promises (d : Document) (h : Head) (own merged es : List (Node × Node)) (passed : Nat) : Prop :=
  Grounded d (.mapping h own) →
    merged ++ (brought d.source (fun g => flatOf d g.entries) (es.drop passed) ++ explicit d.source es) = flatOf d own

lemma promises_of_clean (hn : .mapping h own ∈ root.parts) (hs : Clean d root s (.mapping h own)) :
    Promises d h own [] (entriesNow s h own) 0 := by
  intro hgrounded
  rw [List.nil_append, List.drop_zero]
  rcases hs h own hn (.refl _) hgrounded with hnow | ⟨hnow, -⟩
  · rw [hnow]
    exact (flatOf_eq hgrounded).symm
  · have hplain : Plain d.source (flatOf d own) := plain_flatEntries
    rw [hnow, hplain.brought, hplain.explicit, List.nil_append]

/-- Every merge key of a mapping is still to come, or all that it lists is resolved. -/
def Pursues (d : Document) (root : Node) (s : Making) (h : Head) (own : List (Node × Node)) (passed : Nat) : Prop :=
  Grounded d (.mapping h own) → ∀ e ∈ own, merges d.source e = true →
    e ∈ (entriesNow s h own).drop passed ∨ ∀ g ∈ listed d.source e.2, Resolved d root s g

lemma pursues_of_clean (hn : .mapping h own ∈ root.parts) (hs : Clean d root s (.mapping h own)) :
    Pursues d root s h own 0 := by
  intro hgrounded e he hm
  rcases hs h own hn (.refl _) hgrounded with hnow | ⟨-, hresolved⟩
  · rw [hnow]
    exact .inl he
  · exact .inr fun g hg m other hmem habsorbs => hresolved m other hmem (.merge he hm hg habsorbs)

lemma entriesNow_after_merge {front after more : List (Node × Node)} {e : Node × Node} {s₂ : Making}
    (hn : .mapping h own ∈ root.parts) (hgrounded : Grounded d (.mapping h own)) (he : e ∈ own)
    (hm : merges d.source e = true)
    (hmore : Merging d root (listed d.source e.2) { s with entries := (h.id, front ++ after) :: s.entries } more s₂) :
    entriesNow s₂ h own = front ++ after := by
  rcases hmore.rewritten.touched h own hn with heq | hr
  · exact (entriesNow_congr heq).trans (entriesNow_set_self rfl)
  · obtain ⟨g, hg, habsorbs⟩ := hr.absorbed
    exact absurd habsorbs (hgrounded.not_absorbs he hm hg)

lemma Pursues.merge {front before after more : List (Node × Node)} {e : Node × Node} {s₂ : Making}
    (hd : Numbered d root) (hn : .mapping h own ∈ root.parts) (hp : Pursues d root s h own passed)
    (hdrop : (entriesNow s h own).drop passed = before ++ e :: after) (hbefore : Plain d.source before)
    (he : e ∈ own) (hm : merges d.source e = true)
    (hmore : Merging d root (listed d.source e.2) { s with entries := (h.id, front ++ after) :: s.entries } more s₂) :
    Pursues d root s₂ h own front.length := by
  intro hgrounded x hx hxm
  rw [entriesNow_after_merge hn hgrounded he hm hmore, List.drop_left]
  rcases hp hgrounded x hx hxm with hin | hresolved
  · rw [hdrop] at hin
    rcases List.mem_append.mp hin with hin | hin
    · exact (hbefore.not_merges hin hxm).elim
    · rcases List.mem_cons.mp hin with rfl | hin
      · exact .inr fun g hg => hmore.resolved g hg (hgrounded.listed he hm hg)
      · exact .inl hin
  · refine .inr fun g hg => Resolved.rewritten (fun m other hmem habsorbs => ?_) hmore.rewritten
    have hne : m.id ≠ h.id := by
      intro heq
      obtain ⟨rfl, rfl⟩ := mapping_unique hd hn hmem heq
      exact hgrounded.not_absorbs hx hxm hg habsorbs
    rw [entriesNow_set_of_ne hne]
    exact hresolved g hg m other hmem habsorbs

/-- A merge key is kept to its promise, since what it lists does not come back to the mapping. -/
lemma Promises.merge {front before after more : List (Node × Node)} {e : Node × Node} {s₂ : Making}
    (hn : .mapping h own ∈ root.parts) (hp : Promises d h own merged (front ++ e :: after) passed)
    (hdrop : (front ++ e :: after).drop passed = before ++ e :: after) (hbefore : Plain d.source before)
    (he : e ∈ own) (hm : merges d.source e = true)
    (hmore : Merging d root (listed d.source e.2) { s with entries := (h.id, front ++ after) :: s.entries } more s₂) :
    Promises d h own (merged ++ more) (entriesNow s₂ h own) front.length := by
  intro hgrounded
  have hnow : entriesNow s₂ h own = front ++ after := entriesNow_after_merge hn hgrounded he hm hmore
  have hflat := hmore.flat fun g hg => hgrounded.listed he hm hg
  have hpromised := hp hgrounded
  rw [hdrop, brought_append, hbefore.brought, brought_cons_merge hm, explicit_append, explicit_cons_merge hm,
    ← explicit_append, ← hflat] at hpromised
  rw [hnow, List.drop_left, ← hpromised]
  simp only [List.append_assoc, List.nil_append]

/-- Flattening a mapping from some place on. -/
theorem flattenFrom_spec (hd : Numbered d root) (hn : .mapping h own ∈ root.parts) (hs : Consistent d root s)
    (hmerged : Plain d.source merged) (hknown : ∀ e ∈ merged, IsEntry root e)
    (hown : merged ≠ [] → ¬Plain d.source own) (hpassed : Plain d.source ((entriesNow s h own).take passed))
    (hbelow : ∀ e ∈ own, merges d.source e = true → ∀ g ∈ listed d.source e.2, Clean d root s g)
    (hpromised : Promises d h own merged (entriesNow s h own) passed) (hpursued : Pursues d root s h own passed) :
    Yields (Refuses fair) (flattenFrom d.source fuel h own merged passed s) fun es s' =>
      Merging d root [.mapping h own] s es s' ∧ es = entriesNow s' h own ∧ merged ⊆ es := by
  induction fuel generalizing h own merged passed s with
  | zero => exact yields_throw rfl
  | succ fuel ih =>
    obtain ⟨es, hnow⟩ : ∃ es, entriesNow s h own = es := ⟨_, rfl⟩
    rw [hnow] at hpassed hpromised
    cases hsplit : splitAtMerge d.source (es.drop passed) with
    | none =>
      have hdrop := splitAtMerge_none hsplit
      have hplain : Plain d.source es := List.take_append_drop passed es ▸ hpassed.append hdrop
      obtain ⟨texts, hrun⟩ := flattenFrom_end fuel merged hnow hsplit
      rw [Promises, hdrop.brought, hplain.explicit, List.nil_append] at hpromised
      have hresolved (hgrounded : Grounded d (.mapping h own)) (e : Node × Node) (he : e ∈ own)
          (hm : merges d.source e = true) : ∀ g ∈ listed d.source e.2, Resolved d root s g :=
        (hpursued hgrounded e he hm).resolve_left fun hin => hdrop.not_merges (hnow ▸ hin) hm
      obtain ⟨hended, heq⟩ := Merging.ended hd hn hs hnow hplain hmerged hknown hown hpromised hresolved rfl
      exact .of_eq hrun ⟨hended, heq, List.subset_append_left _ _⟩
    | some p =>
      obtain ⟨before, source, after⟩ := p
      obtain ⟨k, hmerges, hes, hlength, hfront, hbefore, hdrop⟩ := splitAtMerge_drop hpassed hsplit
      rw [flattenFrom_merge hnow hsplit]
      generalize es.take passed ++ before = front at hes hlength hfront ⊢
      subst hes
      have he : (k, source) ∈ entriesNow s h own := hnow ▸ List.mem_append_right _ List.mem_cons_self
      have hin := hs.merging h own hn _ he hmerges
      -- the merge key is gone before what it lists is merged, which may lead back to the mapping
      refine (merge_spec hd (fun g other s hg hs hclean => ?_) (hs.known h own hn _ he) (hs.drop hd hn hnow hmerges)
        fun g hg => (hbelow _ hin hmerges g hg).set hd hn hin hmerges hg).bind ?_
      · refine (ih hg hs (by simp [Plain]) (by simp) (by simp) (by simp [Plain])
          (fun e he hm g hg => hclean.listed he hm hg) (promises_of_clean hg hclean) (pursues_of_clean hg hclean)).mono
            fun _ _ h => h.1
      · intro more s₂ hmore
        have hpassed₂ : Plain d.source ((entriesNow s₂ h own).take (passed + before.length)) := by
          rcases hmore.rewritten.plain h own hn with heq | hplain
          · rwa [heq, entriesNow_set_self rfl, ← hlength, List.take_left]
          · exact fun e he => hplain e (List.mem_of_mem_take he)
        have hbelow₂ (e : Node × Node) (he : e ∈ own) (hm : merges d.source e = true) (g : Node)
            (hg : g ∈ listed d.source e.2) : Clean d root s₂ g :=
          ((hbelow e he hm g hg).set hd hn he hm hg).rewritten hmore.rewritten
        refine (ih hn hmore.consistent (hmerged.append hmore.plain) (List.forall_mem_append.mpr ⟨hknown, hmore.known⟩)
          (fun _ => not_plain_of_merges hn hs he hmerges) hpassed₂ hbelow₂
          (hlength ▸ hpromised.merge hn hdrop hbefore hin hmerges hmore)
          (hlength ▸ hpursued.merge hd hn (hnow ▸ hdrop) hbefore hin hmerges hmore)).mono ?_
        rintro final s' ⟨hfinal, heq, hsub⟩
        have hbrought := List.Subset.trans (List.subset_append_right merged more) hsub
        exact ⟨.after_merge hd hn hs hnow hmerges hmore hfinal heq hbrought, heq,
          List.Subset.trans (List.subset_append_left merged more) hsub⟩

/-- Flattening a mapping. -/
theorem flatten_spec (hd : Numbered d root) (hn : .mapping h own ∈ root.parts) (hs : Consistent d root s)
    (hclean : Clean d root s (.mapping h own)) :
    Yields (Refuses fair) (flatten d.source fuel h own s) fun es s' =>
      Merging d root [.mapping h own] s es s' ∧ es = entriesNow s' h own :=
  (flattenFrom_spec hd hn hs (by simp [Plain]) (by simp) (by simp) (by simp [Plain])
    (fun _ he hm _ hg => hclean.listed he hm hg) (promises_of_clean hn hclean) (pursues_of_clean hn hclean)).mono
      fun _ _ h => ⟨h.1, h.2.1⟩

end Runs

end DocPath.Yaml.Make
