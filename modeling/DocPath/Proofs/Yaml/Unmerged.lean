import DocPath.Proofs.Yaml.Coming
import Mathlib.Algebra.Order.BigOperators.Group.List
import Mathlib.Algebra.Order.Group.Nat
import Mathlib.Algebra.Ring.Nat

/-! Merging comes to an end: a merge key that is dealt with is gone for good, so that all that are left in a document
become fewer with every step, and fuel for them is enough. -/

namespace DocPath.Yaml

open Yaml.Node

/-- How many entries nodes have. -/
def entryCount (ns : List Node) : Nat := (ns.map (·.entries.length)).sum

section Entries

lemma entryCount_append (ns ms : List Node) : entryCount (ns ++ ms) = entryCount ns + entryCount ms := by
  rw [entryCount, List.map_append, List.sum_append]
  rfl

lemma entryCount_cons (n : Node) (ns : List Node) : entryCount (n :: ns) = n.entries.length + entryCount ns := rfl

mutual

/-- Every entry has parts of its own. -/
theorem entryCount_parts (n : Node) : entryCount n.parts < n.parts.length := by
  cases n with
  | sequence h ns => exact Nat.lt_succ_of_le ((Nat.zero_add _).le.trans (entryCount_partsAll ns))
  | mapping h es =>
    have hes := entryCount_partsEntries es
    rw [parts, entryCount_cons, List.length_cons]
    show es.length + _ < _
    omega
  | scalar h t => exact Nat.one_pos
  | «alias» id => exact Nat.one_pos

theorem entryCount_partsAll (ns : List Node) : entryCount (partsAll ns) ≤ (partsAll ns).length := by
  cases ns with
  | nil => exact Nat.zero_le _
  | cons n ns =>
    rw [partsAll, entryCount_append, List.length_append]
    exact Nat.add_le_add (entryCount_parts n).le (entryCount_partsAll ns)

theorem entryCount_partsEntries (es : List (Node × Node)) :
    entryCount (partsEntries es) + es.length ≤ (partsEntries es).length := by
  match es with
  | [] => exact Nat.zero_le _
  | (k, v) :: es =>
    have hk := entryCount_parts k
    have hv := entryCount_parts v
    have hes := entryCount_partsEntries es
    simp only [partsEntries, entryCount_append, List.length_append, List.length_cons]
    omega

end

end Entries

namespace Make

/-- How many merge keys a node has now. -/
def mergesLeft (d : Document) (s : Making) : Node → Nat
  | .mapping h own => (entriesNow s h own).countP (merges d.source)
  | _ => 0

/-- How many merge keys there are now. -/
def unmerged (d : Document) (root : Node) (s : Making) : Nat := (root.parts.map (mergesLeft d s)).sum

/-- What merging comes to: no merge keys in what is brought in, and not more of them anywhere. -/
structure Unmerges (d : Document) (root : Node) (s : Making) (es : List (Node × Node)) (s' : Making) : Prop where
  plain : Plain d.source es
  left : unmerged d root s' ≤ unmerged d root s
  kept : ∀ h own, .mapping h own ∈ root.parts →
    entriesNow s' h own = entriesNow s h own ∨ Plain d.source (entriesNow s' h own)

/-- Whatever is given as the way to flatten a mapping comes to an end while there are fewer merge keys than `bound`. -/
def Finishes (d : Document) (root : Node) (bound : Nat) (flat : Head → List (Node × Node) → Make (List (Node × Node))) :
    Prop :=
  ∀ h own s, .mapping h own ∈ root.parts → Sourced d root s → unmerged d root s < bound →
    Yields (·.isMarked = true) (flat h own s) (Unmerges d root s)

section Counts

variable {d : Document} {root : Node} {s s' s'' : Making} {h : Head} {own es es' : List (Node × Node)}

lemma Plain.countP (h : Plain d.source es) : es.countP (merges d.source) = 0 :=
  List.countP_eq_zero.mpr fun e he => Bool.eq_false_iff.mp (h e he)

lemma mergesLeft_set (hd : Numbered d root) (hn : .mapping h own ∈ root.parts)
    (hes : es.countP (merges d.source) ≤ (entriesNow s h own).countP (merges d.source)) :
    ∀ n ∈ root.parts, mergesLeft d { s with entries := (h.id, es) :: s.entries } n ≤ mergesLeft d s n := by
  intro n hmem
  cases n with
  | mapping g other =>
    exact forall_set (p := fun g other es => es.countP (merges d.source) ≤ (entriesNow s g other).countP (merges d.source))
      hd hn hes (fun _ _ _ => le_rfl) g other hmem
  | _ => exact le_rfl

lemma unmerged_set (hd : Numbered d root) (hn : .mapping h own ∈ root.parts)
    (hes : es.countP (merges d.source) ≤ (entriesNow s h own).countP (merges d.source)) :
    unmerged d root { s with entries := (h.id, es) :: s.entries } ≤ unmerged d root s :=
  List.sum_le_sum (mergesLeft_set hd hn hes)

lemma unmerged_set_lt {front after : List (Node × Node)} {e : Node × Node} (hd : Numbered d root)
    (hn : .mapping h own ∈ root.parts) (hnow : entriesNow s h own = front ++ e :: after)
    (he : merges d.source e = true) :
    unmerged d root { s with entries := (h.id, front ++ after) :: s.entries } < unmerged d root s := by
  have hes : (front ++ after).countP (merges d.source) < (entriesNow s h own).countP (merges d.source) := by
    rw [hnow, List.countP_append, List.countP_append, List.countP_cons_of_pos he]
    omega
  refine List.sum_lt_sum _ _ (mergesLeft_set hd hn hes.le) ⟨_, hn, ?_⟩
  rw [mergesLeft, entriesNow_set_self rfl]
  exact hes

lemma unmerged_congr (hs : s'.entries = s.entries) : unmerged d root s' = unmerged d root s := by
  have hleft : mergesLeft d s' = mergesLeft d s := by
    funext n
    cases n with
    | mapping g other => rw [mergesLeft, mergesLeft, entriesNow, entriesNow, hs]
    | _ => rfl
  rw [unmerged, hleft, unmerged]

lemma kept_of_set (hd : Numbered d root) (hn : .mapping h own ∈ root.parts)
    (hkept : ∀ g other, .mapping g other ∈ root.parts →
      entriesNow s' g other = entriesNow { s with entries := (h.id, es) :: s.entries } g other ∨
        Plain d.source (entriesNow s' g other)) (hplain : Plain d.source (entriesNow s' h own)) :
    ∀ g other, .mapping g other ∈ root.parts →
      entriesNow s' g other = entriesNow s g other ∨ Plain d.source (entriesNow s' g other) := by
  intro g other hg
  by_cases he : g.id = h.id
  · obtain ⟨rfl, rfl⟩ := mapping_unique hd hn hg he
    exact .inr hplain
  · have hother := hkept g other hg
    rwa [entriesNow_set_of_ne he] at hother

lemma unmerges_set {texts : List Nat} (hd : Numbered d root) (hn : .mapping h own ∈ root.parts) (hes : Plain d.source es)
    (hs' : s' = { s with entries := (h.id, es) :: s.entries, texts := texts }) : Unmerges d root s es s' := by
  have hleft : unmerged d root { s with entries := (h.id, es) :: s.entries } ≤ unmerged d root s :=
    unmerged_set hd hn (hes.countP ▸ Nat.zero_le _)
  subst hs'
  refine ⟨hes, (unmerged_congr rfl).trans_le hleft, kept_of_set hd hn (fun _ _ _ => .inl rfl) ?_⟩
  rwa [entriesNow_set_self (s := s) rfl]

lemma unmerged_start (hs : s.entries = []) : unmerged d root s ≤ root.parts.length := by
  refine (List.sum_le_sum fun n _ => ?_).trans (entryCount_parts root).le
  cases n with
  | mapping h own =>
    rw [mergesLeft, entriesNow, hs]
    exact List.countP_le_length
  | _ => exact Nat.zero_le _

lemma Unmerges.after (h : Unmerges d root s es s') (h' : Unmerges d root s' es' s'') :
    Unmerges d root s (es' ++ es) s'' := by
  refine ⟨h'.plain.append h.plain, h'.left.trans h.left, fun g own hg => ?_⟩
  rcases h'.kept g own hg with heq | hplain
  · rw [heq]
    exact h.kept g own hg
  · exact .inr hplain

end Counts

section Runs

variable {d : Document} {root : Node} {s : Making} {h : Head} {own merged : List (Node × Node)} {bound fuel passed : Nat}
  {flat : Head → List (Node × Node) → Make (List (Node × Node))}

lemma mergeAll_unmerges {items : List Node} (hflat : Finishes d root bound flat) (hgathers : Gathers d root flat)
    (hitems : ∀ n ∈ items, follow d.source n ∈ root.parts) (hs : Sourced d root s) (hbound : unmerged d root s < bound) :
    Yields (·.isMarked = true) (mergeAll d.source flat h items s) (Unmerges d root s) := by
  induction items generalizing s with
  | nil => exact .of_eq rfl ⟨by simp [Plain], le_rfl, fun _ _ _ => .inl rfl⟩
  | cons n items ih =>
    obtain ⟨hn, hrest⟩ := List.forall_mem_cons.mp hitems
    rw [mergeAll]
    cases heq : follow d.source n with
    | mapping g own =>
      rw [heq] at hn
      refine ((hflat g own s hn hs hbound).and (hgathers g own s hn hs)).bind fun es s₁ h₁ => ?_
      exact (ih hrest h₁.2.sourced (h₁.1.left.trans_lt hbound)).bind fun more s₂ h₂ => .of_eq rfl (h₁.1.after h₂)
    | _ => exact rfl

lemma merge_unmerges (hd : Numbered d root) (hflat : Finishes d root bound flat) (hgathers : Gathers d root flat)
    {e : Node × Node} (he : IsEntry root e) (hs : Sourced d root s) (hbound : unmerged d root s < bound) :
    Yields (·.isMarked = true) (merge d.source flat h e.2 s) (Unmerges d root s) := by
  have hmem := listed_mem hd he.parts.2
  rw [listed] at hmem
  rw [merge]
  cases heq : follow d.source e.2 with
  | mapping g own =>
    rw [heq] at hmem
    exact hflat g own s (hmem _ (List.mem_singleton_self _)) hs hbound
  | sequence g items =>
    rw [heq] at hmem
    exact mergeAll_unmerges hflat hgathers (List.forall_mem_map.mp hmem) hs hbound
  | _ => exact rfl

/-- Flattening comes to an end with fuel for all merge keys that there are. -/
theorem flattenFrom_unmerges (hd : Numbered d root) (hn : .mapping h own ∈ root.parts) (hs : Sourced d root s)
    (hmerged : Plain d.source merged) (hcomes : ∀ e ∈ merged, Comes d (.mapping h own) e)
    (hown : merged ≠ [] → ¬Plain d.source own) (hpassed : Plain d.source ((entriesNow s h own).take passed))
    (hfuel : unmerged d root s < fuel) :
    Yields (·.isMarked = true) (flattenFrom d.source fuel h own merged passed s) fun es s' =>
      Unmerges d root s es s' ∧ es = entriesNow s' h own := by
  induction fuel generalizing h own merged passed s with
  | zero => exact absurd hfuel (Nat.not_lt_zero _)
  | succ fuel ih =>
    obtain ⟨es, hnow⟩ : ∃ es, entriesNow s h own = es := ⟨_, rfl⟩
    rw [hnow] at hpassed
    cases hsplit : splitAtMerge d.source (es.drop passed) with
    | none =>
      have hplain : Plain d.source es := List.take_append_drop passed es ▸ hpassed.append (splitAtMerge_none hsplit)
      obtain ⟨texts, hrun⟩ := flattenFrom_end fuel merged hnow hsplit
      refine .of_eq hrun ?_
      by_cases hempty : merged = []
      · subst hempty
        exact ⟨⟨hplain, (unmerged_congr rfl).le, fun _ _ _ => .inl rfl⟩, hnow.symm⟩
      · rw [if_neg hempty]
        exact ⟨unmerges_set hd hn (hmerged.append hplain) rfl, (entriesNow_set_self rfl).symm⟩
    | some p =>
      obtain ⟨before, source, after⟩ := p
      obtain ⟨k, hmerges, hes, hlength, hfront, -, -⟩ := splitAtMerge_drop hpassed hsplit
      rw [flattenFrom_merge hnow hsplit]
      generalize es.take passed ++ before = front at hes hlength hfront ⊢
      subst hes
      have hcome := hs.comes h own hn
      rw [hnow] at hcome
      have hkey : Comes d (.mapping h own) (k, source) := hcome _ (List.mem_append_right _ List.mem_cons_self)
      have hmixed : ¬Plain d.source own := fun hplain => hplain.not_merges (hkey.of_plain hplain) hmerges
      have hsub : front ++ after ⊆ front ++ (k, source) :: after :=
        (List.Sublist.append_left (List.sublist_cons_self _ _) _).subset
      have hset := hs.set hd hn hmixed fun e he => hcome e (hsub he)
      -- the merge key is gone, so that there is fuel for what it merges and then for the rest
      have hless : unmerged d root { s with entries := (h.id, front ++ after) :: s.entries } < unmerged d root s :=
        unmerged_set_lt hd hn hnow hmerges
      have hroom := hless.trans_le (Nat.le_of_lt_succ hfuel)
      have hgathers : Gathers d root fun g own => flattenFrom d.source fuel g own [] 0 :=
        fun g other s hg hs => flattenFrom_brings hd hg hs (by simp) (by simp)
      have hfinishes : Finishes d root fuel fun g own => flattenFrom d.source fuel g own [] 0 :=
        fun g other s hg hs hbound =>
          (ih hg hs (by simp [Plain]) (by simp) (by simp) (by simp [Plain]) hbound).mono fun _ _ h => h.1
      refine ((merge_unmerges hd hfinishes hgathers (hkey.isEntry hd hn) hset hroom).and
        (merge_brings hd hgathers (hkey.isEntry hd hn) hset)).bind ?_
      rintro more s₂ ⟨h₂, hbrings⟩
      have hpassed₂ : Plain d.source ((entriesNow s₂ h own).take (passed + before.length)) := by
        rcases h₂.kept h own hn with heq | hplain
        · rwa [heq, entriesNow_set_self rfl, ← hlength, List.take_left]
        · exact fun e he => hplain e (List.mem_of_mem_take he)
      have hcomes₂ : ∀ e ∈ more, Comes d (.mapping h own) e := fun e he => by
        obtain ⟨g, hg, hcomes⟩ := hbrings.comes e he
        exact hkey.trans hmerges hg hcomes
      refine (ih hn hbrings.sourced (hmerged.append h₂.plain) (List.forall_mem_append.mpr ⟨hcomes, hcomes₂⟩)
        (fun _ => hmixed) hpassed₂ (h₂.left.trans_lt hroom)).mono ?_
      rintro final s' ⟨h', rfl⟩
      exact ⟨⟨h'.plain, h'.left.trans (h₂.left.trans hless.le), kept_of_set hd hn (h₂.after h').kept h'.plain⟩, rfl⟩

end Runs

end Make

end DocPath.Yaml
