import DocPath.Proofs.Yaml.Numbering
import Mathlib.Data.Finset.Card

/-! What mappings merge, as it is written: which mappings come into which, when that comes to an end, and the
entries that there are in the end. -/

namespace DocPath.Yaml

/-- The entries of a mapping; other nodes have none. -/
def Node.entries : Node → List (Node × Node)
  | .mapping _ es => es
  | _ => []

/-- What keys are read as names in. -/
def Document.source (d : Document) : Source := ⟨.names, d.anchored⟩

namespace Make

section Statics

variable (src : Source)

/-- Whether an entry merges others. -/
def merges (e : Node × Node) : Bool := (follow src e.1).head.tag = Tag.merge

/-- The entries that merge nothing. -/
def explicit (es : List (Node × Node)) : List (Node × Node) := es.filter (!merges src ·)

/-- No entry merges others. -/
def Plain (es : List (Node × Node)) : Prop := ∀ e ∈ es, merges src e = false

/-- The nodes that a merge key with a value lists. -/
def listed (v : Node) : List Node :=
  match follow src v with
  | .mapping h own => [.mapping h own]
  | .sequence _ items => items.map (follow src)
  | _ => []

/-- What merge keys bring in: of the nodes that a key lists, the entries of the first come last. -/
def brought (entriesOf : Node → List (Node × Node)) (es : List (Node × Node)) : List (Node × Node) :=
  (es.filter (merges src)).flatMap fun e => (listed src e.2).reverse.flatMap entriesOf

/-- Entries with those of all that is merged in front of them, down to some depth. -/
def flatEntries : Nat → List (Node × Node) → List (Node × Node)
  | 0, es => explicit src es
  | k + 1, es => brought src (fun g => flatEntries k g.entries) es ++ explicit src es

/-- Merges of merges end at some depth. -/
def MergesWithin : Nat → Node → Prop
  | 0, n => Plain src n.entries
  | k + 1, n => ∀ e ∈ n.entries, merges src e = true → ∀ g ∈ listed src e.2, MergesWithin k g

/-- A node absorbs itself, what it merges, and what this absorbs. -/
inductive Absorbs : Node → Node → Prop
  | refl (n : Node) : Absorbs n n
  | merge {n g m : Node} {e : Node × Node} (he : e ∈ n.entries) (hm : merges src e = true) (hg : g ∈ listed src e.2)
      (h : Absorbs g m) : Absorbs n m

/-- Entries can be had in place of others: the explicit ones are among them in order, and every other one either is,
too, or all that it lists is. -/
structure Covers (es es' : List (Node × Node)) : Prop where
  explicit : (explicit src es).Sublist es'
  merged : ∀ e ∈ es, merges src e = true → e ∈ es' ∨ ∀ g ∈ listed src e.2, Make.explicit src g.entries ⊆ es'

end Statics

instance MergesWithin.decidable (src : Source) : ∀ k n, Decidable (MergesWithin src k n)
  | 0, n => inferInstanceAs (Decidable (∀ e ∈ n.entries, merges src e = false))
  | k + 1, n =>
    have := MergesWithin.decidable src k
    inferInstanceAs (Decidable (∀ e ∈ n.entries, merges src e = true → ∀ g ∈ listed src e.2, MergesWithin src k g))

section Entries

variable {src : Source} {es es' es'' : List (Node × Node)} {e : Node × Node} {f : Node → List (Node × Node)}

lemma mem_explicit : e ∈ explicit src es ↔ e ∈ es ∧ merges src e = false := by
  rw [explicit, List.mem_filter, Bool.not_eq_true']

lemma plain_explicit : Plain src (explicit src es) := fun _ he => (mem_explicit.mp he).2

lemma Plain.explicit (h : Plain src es) : Make.explicit src es = es :=
  List.filter_eq_self.mpr fun e he => by rw [h e he]; rfl

lemma Plain.brought (h : Plain src es) : Make.brought src f es = [] := by
  rw [Make.brought, List.filter_eq_nil_iff.mpr fun e he => Bool.eq_false_iff.mp (h e he)]
  rfl

lemma Plain.append (h : Plain src es) (h' : Plain src es') : Plain src (es ++ es') :=
  List.forall_mem_append.mpr ⟨h, h'⟩

lemma Plain.not_merges (h : Plain src es) (he : e ∈ es) (hm : merges src e = true) : False := by
  rw [h e he] at hm
  cases hm

lemma explicit_append : explicit src (es ++ es') = explicit src es ++ explicit src es' := List.filter_append ..

lemma brought_append : brought src f (es ++ es') = brought src f es ++ brought src f es' := by
  rw [brought, List.filter_append, List.flatMap_append]
  rfl

lemma explicit_cons (h : merges src e = false) : explicit src (e :: es) = e :: explicit src es :=
  List.filter_cons_of_pos (by simp [h])

lemma explicit_cons_merge (h : merges src e = true) : explicit src (e :: es) = explicit src es :=
  List.filter_cons_of_neg (by simp [h])

lemma brought_cons_merge (h : merges src e = true) :
    brought src f (e :: es) = (listed src e.2).reverse.flatMap f ++ brought src f es := by
  rw [brought, List.filter_cons_of_pos h]
  rfl

lemma mem_brought {x : Node × Node} :
    x ∈ brought src f es ↔ ∃ e ∈ es, merges src e = true ∧ ∃ g ∈ listed src e.2, x ∈ f g := by
  simp only [brought, List.mem_flatMap, List.mem_filter, List.mem_reverse, and_assoc]

lemma explicit_sublist (h : (explicit src es).Sublist es') : (explicit src es).Sublist (explicit src es') := by
  have hfilter := h.filter (!merges src ·)
  rwa [List.filter_eq_self.mpr fun e he => by rw [plain_explicit e he]; rfl] at hfilter

lemma Covers.refl : Covers src es es := ⟨List.filter_sublist, fun _ he _ => .inl he⟩

lemma Covers.trans (h : Covers src es es') (h' : Covers src es' es'') : Covers src es es'' := by
  refine ⟨(explicit_sublist h.explicit).trans h'.explicit, fun e he hm => ?_⟩
  rcases h.merged e he hm with hin | hlisted
  · exact h'.merged e hin hm
  · exact .inr fun g hg x hx => h'.explicit.subset (mem_explicit.mpr ⟨hlisted g hg hx, plain_explicit x hx⟩)

lemma Covers.append (h : Covers src es es') (more : List (Node × Node)) : Covers src es (more ++ es') :=
  ⟨h.explicit.trans (List.sublist_append_right _ _), fun e he hm => (h.merged e he hm).imp
    (List.mem_append_right _) fun hlisted g hg => List.Subset.trans (hlisted g hg) (List.subset_append_right _ _)⟩

lemma Covers.merge {before after : List (Node × Node)} (he : merges src e = true)
    (h : Covers src (before ++ after) es') (hlisted : ∀ g ∈ listed src e.2, Make.explicit src g.entries ⊆ es') :
    Covers src (before ++ e :: after) es' := by
  refine ⟨?_, fun x hx hm => ?_⟩
  · rw [explicit_append, explicit_cons_merge he, ← explicit_append]
    exact h.explicit
  · rcases List.mem_append.mp hx with hx | hx
    · exact h.merged x (List.mem_append_left _ hx) hm
    · rcases List.mem_cons.mp hx with rfl | hx
      · exact .inr hlisted
      · exact h.merged x (List.mem_append_right _ hx) hm

lemma splitAtMerge_none (h : splitAtMerge src es = none) : Plain src es := by
  induction es with
  | nil => exact fun e he => absurd he List.not_mem_nil
  | cons e es ih =>
    obtain ⟨k, v⟩ := e
    rw [splitAtMerge] at h
    split_ifs at h with hk
    exact List.forall_mem_cons.mpr ⟨decide_eq_false hk, ih (Option.map_eq_none_iff.mp h)⟩

lemma splitAtMerge_some {p : List (Node × Node) × Node × List (Node × Node)} (h : splitAtMerge src es = some p) :
    ∃ k, es = p.1 ++ (k, p.2.1) :: p.2.2 ∧ merges src (k, p.2.1) = true ∧ Plain src p.1 := by
  induction es generalizing p with
  | nil => cases h
  | cons e es ih =>
    obtain ⟨k, v⟩ := e
    rw [splitAtMerge] at h
    split_ifs at h with hk
    · cases h
      exact ⟨k, rfl, decide_eq_true hk, fun e he => absurd he List.not_mem_nil⟩
    · obtain ⟨q, hq, rfl⟩ := Option.map_eq_some_iff.mp h
      obtain ⟨k', heq, hmerges, hplain⟩ := ih hq
      exact ⟨k', congrArg _ heq, hmerges, List.forall_mem_cons.mpr ⟨decide_eq_false hk, hplain⟩⟩

end Entries

section Depth

variable {src : Source} {n g m : Node} {e : Node × Node} {es : List (Node × Node)} {k : Nat}

lemma Absorbs.trans (h : Absorbs src n g) (h' : Absorbs src g m) : Absorbs src n m := by
  induction h with
  | refl => exact h'
  | merge he hm hg _ ih => exact .merge he hm hg (ih h')

lemma MergesWithin.succ (h : MergesWithin src k n) : MergesWithin src (k + 1) n := by
  induction k generalizing n with
  | zero => exact fun e he hm => (Plain.not_merges h he hm).elim
  | succ k ih => exact fun e he hm g hg => ih (h e he hm g hg)

lemma MergesWithin.listed (h : MergesWithin src k n) (he : e ∈ n.entries) (hm : merges src e = true)
    (hg : g ∈ listed src e.2) : MergesWithin src k g :=
  h.succ e he hm g hg

lemma MergesWithin.absorbs (h : MergesWithin src k n) (h' : Absorbs src n m) : MergesWithin src k m := by
  induction h' with
  | refl => exact h
  | merge he hm hg _ ih => exact ih (h.listed he hm hg)

lemma MergesWithin.not_absorbs (h : MergesWithin src k n) (he : e ∈ n.entries) (hm : merges src e = true)
    (hg : g ∈ Make.listed src e.2) : ¬Absorbs src g n := by
  induction k generalizing n e g with
  | zero => exact fun _ => Plain.not_merges h he hm
  | succ k ih =>
    have hk : MergesWithin src k g := h e he hm g hg
    rintro (_ | ⟨he', hm', hg', habsorbs⟩)
    · exact ih hk he hm hg (.refl _)
    · exact ih hk he' hm' hg' (habsorbs.trans (.merge he hm hg (.refl _)))

lemma plain_flatEntries : Plain src (flatEntries src k es) := by
  induction k generalizing es with
  | zero => exact plain_explicit
  | succ k ih =>
    refine Plain.append (fun x hx => ?_) plain_explicit
    obtain ⟨e, -, -, g, -, hx⟩ := mem_brought.mp hx
    exact ih x hx

lemma Plain.flatEntries (h : Plain src es) : Make.flatEntries src k es = es := by
  cases k with
  | zero => exact h.explicit
  | succ k => rw [Make.flatEntries, h.brought, h.explicit, List.nil_append]

lemma flatEntries_succ (h : MergesWithin src k n) :
    flatEntries src (k + 1) n.entries = flatEntries src k n.entries := by
  induction k generalizing n with
  | zero => rw [Plain.flatEntries h, Plain.flatEntries h]
  | succ k ih =>
    rw [flatEntries, flatEntries]
    congr 1
    refine List.flatMap_congr fun e he => List.flatMap_congr fun g hg => ?_
    obtain ⟨he, hm⟩ := List.mem_filter.mp he
    exact ih (h e he hm g (List.mem_reverse.mp hg))

lemma mem_flatEntries {x : Node × Node} (h : x ∈ flatEntries src k n.entries) :
    ∃ m, Absorbs src n m ∧ x ∈ explicit src m.entries := by
  induction k generalizing n with
  | zero => exact ⟨n, .refl n, h⟩
  | succ k ih =>
    rcases List.mem_append.mp h with h | h
    · obtain ⟨e, he, hm, g, hg, h⟩ := mem_brought.mp h
      obtain ⟨m, hm', hx⟩ := ih h
      exact ⟨m, .merge he hm hg hm', hx⟩
    · exact ⟨n, .refl n, h⟩

end Depth

/-- The entries of a mapping in the end, if no mapping merges itself. -/
def flatOf (d : Document) (own : List (Node × Node)) : List (Node × Node) := flatEntries d.source d.size own

/-- A node does not merge itself, not even through others. -/
def Grounded (d : Document) (n : Node) : Prop := MergesWithin d.source d.size n

instance (d : Document) (n : Node) : Decidable (Grounded d n) := MergesWithin.decidable _ _ _

/-- An entry of some mapping in a document. -/
def IsEntry (root : Node) (e : Node × Node) : Prop := ∃ h own, .mapping h own ∈ root.parts ∧ e ∈ own

/-- The nodes that the mappings in a document merge. -/
def mergedNodes (d : Document) (root : Node) : List Node :=
  root.parts.flatMap fun n => (n.entries.filter (merges d.source)).flatMap fun e => listed d.source e.2

section Parts

variable {d : Document} {root n m : Node} {e : Node × Node} {own : List (Node × Node)}

lemma flatOf_eq (h : Grounded d n) :
    flatOf d n.entries = brought d.source (fun g => flatOf d g.entries) n.entries ++ explicit d.source n.entries :=
  (flatEntries_succ h).symm

lemma follow_mem (hd : Numbered d root) (hn : n ∈ root.parts) : follow d.source n ∈ root.parts := by
  cases n with
  | «alias» id =>
    rw [follow]
    cases hl : d.source.anchored.lookup id with
    | none => exact hn
    | some m => exact (hd.anchored _ (mem_of_lookup hl)).1
  | _ => exact hn

lemma follow_of_solid (src : Source) (hn : n.isSolid = true) : follow src n = n := by
  cases n with
  | «alias» id => cases hn
  | _ => rfl

lemma isEntry_of_mem (hn : n ∈ root.parts) (he : e ∈ n.entries) : IsEntry root e := by
  cases n with
  | mapping h own => exact ⟨h, own, hn, he⟩
  | _ => exact absurd he List.not_mem_nil

lemma IsEntry.parts (he : IsEntry root e) : e.1 ∈ root.parts ∧ e.2 ∈ root.parts := by
  obtain ⟨h, own, hpart, he⟩ := he
  constructor <;> exact Node.parts_trans root hpart (List.mem_flatMap.mpr ⟨e, he, by simp⟩)

lemma IsEntry.merged (he : IsEntry root e) (hm : merges d.source e = true) :
    ∀ n ∈ listed d.source e.2, n ∈ mergedNodes d root := by
  obtain ⟨h, own, hpart, he⟩ := he
  exact fun n hn => List.mem_flatMap.mpr ⟨_, hpart, List.mem_flatMap.mpr ⟨e, List.mem_filter.mpr ⟨he, hm⟩, hn⟩⟩

lemma listed_mem (hd : Numbered d root) (hn : n ∈ root.parts) : ∀ g ∈ listed d.source n, g ∈ root.parts := by
  have hfollow := follow_mem hd hn
  rw [listed]
  split
  · next h own heq => exact List.forall_mem_singleton.mpr (heq ▸ hfollow)
  · next h items heq =>
    have hpart : .sequence h items ∈ root.parts := heq ▸ hfollow
    exact List.forall_mem_map.mpr fun m hm => follow_mem hd (Node.parts_trans root hpart hm)
  · simp

/-- What a node absorbs lies in the same document, and is merged unless it is the node. -/
lemma Absorbs.mem (hd : Numbered d root) (h : Absorbs d.source n m) (hn : n ∈ root.parts) :
    m ∈ root.parts ∧ (m = n ∨ m ∈ mergedNodes d root) := by
  induction h with
  | refl => exact ⟨hn, .inl rfl⟩
  | @merge n g m e he hm hg _ ih =>
    have hentry := isEntry_of_mem hn he
    obtain ⟨hpart, hmerged⟩ := ih (listed_mem hd hentry.parts.2 g hg)
    exact ⟨hpart, .inr (hmerged.elim (fun heq => heq ▸ hentry.merged hm g hg) id)⟩

open Classical in
/-- The numbers of the nodes that a node absorbs. -/
noncomputable def absorbedNumbers (d : Document) (n : Node) : Finset Nat :=
  (Finset.range d.size).filter fun id => ∃ m, Absorbs d.source n m ∧ m.isSolid = true ∧ m.head.id = id

lemma isSolid_of_entry (he : e ∈ n.entries) : n.isSolid = true := by
  cases n with
  | mapping h own => rfl
  | _ => exact absurd he List.not_mem_nil

lemma mem_absorbedNumbers {id : Nat} : id ∈ absorbedNumbers d n ↔
    id < d.size ∧ ∃ m, Absorbs d.source n m ∧ m.isSolid = true ∧ m.head.id = id := by
  classical
  rw [absorbedNumbers, Finset.mem_filter, Finset.mem_range]

lemma card_absorbedNumbers_le : (absorbedNumbers d n).card ≤ d.size := by
  classical
  rw [absorbedNumbers]
  exact (Finset.card_filter_le _ _).trans (Nat.le_of_eq (Finset.card_range d.size))

lemma id_mem_absorbedNumbers (hd : Numbered d root) (hn : n ∈ root.parts) (hsolid : n.isSolid = true) :
    n.head.id ∈ absorbedNumbers d n :=
  mem_absorbedNumbers.mpr ⟨hd.bounded n hn hsolid, n, .refl n, hsolid, rfl⟩

/-- What is merged absorbs less, unless the mapping merges itself. -/
lemma card_absorbedNumbers_lt {g : Node} (hd : Numbered d root) (hn : n ∈ root.parts) (he : e ∈ n.entries)
    (hm : merges d.source e = true) (hg : g ∈ listed d.source e.2) (hno : ¬Absorbs d.source g n) :
    (absorbedNumbers d g).card < (absorbedNumbers d n).card := by
  have hsolid := isSolid_of_entry he
  have hgpart := listed_mem hd (isEntry_of_mem hn he).parts.2 g hg
  have hsub : absorbedNumbers d g ⊆ absorbedNumbers d n := by
    intro id hid
    obtain ⟨hlt, m, habsorbs, hrest⟩ := mem_absorbedNumbers.mp hid
    exact mem_absorbedNumbers.mpr ⟨hlt, m, .merge he hm hg habsorbs, hrest⟩
  have hout : n.head.id ∉ absorbedNumbers d g := by
    intro hin
    obtain ⟨-, m, habsorbs, hmsolid, hid⟩ := mem_absorbedNumbers.mp hin
    obtain rfl := hd.unique m (habsorbs.mem hd hgpart).1 hmsolid n hn hsolid hid
    exact hno habsorbs
  exact Finset.card_lt_card ((Finset.ssubset_iff_of_subset hsub).mpr ⟨_, id_mem_absorbedNumbers hd hn hsolid, hout⟩)

/-- Merging comes to an end if and only if no mapping merges itself. -/
theorem grounded_iff (hd : Numbered d root) : (∀ n ∈ root.parts, Grounded d n) ↔
    ∀ n ∈ root.parts, ∀ e ∈ n.entries, merges d.source e = true → ∀ g ∈ listed d.source e.2, ¬Absorbs d.source g n := by
  refine ⟨fun h n hn e he hm g hg => (h n hn).not_absorbs he hm hg, fun h => ?_⟩
  have hdepth (k : Nat) : ∀ n ∈ root.parts, (absorbedNumbers d n).card ≤ k → MergesWithin d.source k n := by
    induction k with
    | zero =>
      intro n hn hcard e he
      have hempty := Finset.card_eq_zero.mp (Nat.le_zero.mp hcard)
      have hin := id_mem_absorbedNumbers hd hn (isSolid_of_entry he)
      rw [hempty] at hin
      exact absurd hin (Finset.notMem_empty _)
    | succ k ih =>
      intro n hn hcard e he hm g hg
      have hless := card_absorbedNumbers_lt hd hn he hm hg (h n hn e he hm g hg)
      exact ih g (listed_mem hd (isEntry_of_mem hn he).parts.2 g hg) (by omega)
  exact fun n hn => hdepth d.size n hn card_absorbedNumbers_le

end Parts

end Make

end DocPath.Yaml
