import DocPath.Proofs.Value.Keys
import Mathlib.Data.List.Perm.Subperm
import Mathlib.Logic.Relation

/-! Links between the parts of a value. A value that is put together from labelled contents contains itself exactly
if some content leads back to itself. -/

namespace DocPath.Value

/-- An alias with the label lies in a value. -/
inductive Refers (l : Nat) : Value → Prop
  | link : Refers l (.alias l)
  | anchor {m : Nat} {v : Value} (h : Refers l v) : Refers l (.anchor m v)
  | list {xs : List Value} {x : Value} (hx : x ∈ xs) (h : Refers l x) : Refers l (.list xs)
  | tuple {xs : List Value} {x : Value} (hx : x ∈ xs) (h : Refers l x) : Refers l (.tuple xs)
  | sequence {t : SequenceType} {xs : List Value} {x : Value} (hx : x ∈ xs) (h : Refers l x) : Refers l (.sequence t xs)
  | key {o : Bool} {es : List (Value × Value)} {e : Value × Value} (he : e ∈ es) (h : Refers l e.1) :
      Refers l (.map o es)
  | entry {o : Bool} {es : List (Value × Value)} {e : Value × Value} (he : e ∈ es) (h : Refers l e.2) :
      Refers l (.map o es)
  | set {f : Bool} {xs : List Value} {x : Value} (hx : x ∈ xs) (h : Refers l x) : Refers l (.set f xs)

section Members

variable {l m : Nat} {v : Value} {s : Scalar} {t : SequenceType} {xs : List Value} {es : List (Value × Value)} {o f : Bool}

@[simp] lemma not_refers_null : ¬Refers l .null := nofun

@[simp] lemma not_refers_scalar : ¬Refers l (.scalar s) := nofun

@[simp] lemma not_refers_range {a b c : Int} : ¬Refers l (.range a b c) := nofun

@[simp] lemma refers_link : Refers l (.alias m) ↔ m = l := by
  constructor
  · intro h
    cases h
    rfl
  · rintro rfl
    exact .link

@[simp] lemma refers_anchor : Refers l (.anchor m v) ↔ Refers l v := by
  constructor
  · intro h
    cases h with
    | anchor h => exact h
  · exact .anchor

@[simp] lemma refers_list : Refers l (.list xs) ↔ ∃ x ∈ xs, Refers l x := by
  constructor
  · intro h
    cases h with
    | list hx h => exact ⟨_, hx, h⟩
  · rintro ⟨x, hx, h⟩
    exact .list hx h

@[simp] lemma refers_tuple : Refers l (.tuple xs) ↔ ∃ x ∈ xs, Refers l x := by
  constructor
  · intro h
    cases h with
    | tuple hx h => exact ⟨_, hx, h⟩
  · rintro ⟨x, hx, h⟩
    exact .tuple hx h

@[simp] lemma refers_sequence : Refers l (.sequence t xs) ↔ ∃ x ∈ xs, Refers l x := by
  constructor
  · intro h
    cases h with
    | sequence hx h => exact ⟨_, hx, h⟩
  · rintro ⟨x, hx, h⟩
    exact .sequence hx h

@[simp] lemma refers_set : Refers l (.set f xs) ↔ ∃ x ∈ xs, Refers l x := by
  constructor
  · intro h
    cases h with
    | set hx h => exact ⟨_, hx, h⟩
  · rintro ⟨x, hx, h⟩
    exact .set hx h

@[simp] lemma refers_map : Refers l (.map o es) ↔ ∃ e ∈ es, Refers l e.1 ∨ Refers l e.2 := by
  constructor
  · intro h
    cases h with
    | key he h => exact ⟨_, he, .inl h⟩
    | entry he h => exact ⟨_, he, .inr h⟩
  · rintro ⟨e, he, h | h⟩
    · exact .key he h
    · exact .entry he h

lemma anyCyclic_iff : anyCyclic xs = true ↔ ∃ x ∈ xs, x.isCyclic = true := by
  induction xs with
  | nil => simp [anyCyclic]
  | cons x xs ih => simp [anyCyclic, ih]

lemma anyEntryCyclic_iff : anyEntryCyclic es = true ↔ ∃ e ∈ es, e.1.isCyclic = true ∨ e.2.isCyclic = true := by
  induction es with
  | nil => simp [anyEntryCyclic]
  | cons e es ih => simp [anyEntryCyclic, ih, or_assoc]

lemma exists_cyclic_iff (h : ∀ x ∈ xs, (x.isCyclic = true ↔ ∃ l, Refers l x)) :
    (∃ x ∈ xs, x.isCyclic = true) ↔ ∃ l, ∃ x ∈ xs, Refers l x := by
  constructor
  · rintro ⟨x, hx, hcyclic⟩
    obtain ⟨l, hl⟩ := (h x hx).mp hcyclic
    exact ⟨l, x, hx, hl⟩
  · rintro ⟨l, x, hx, hl⟩
    exact ⟨x, hx, (h x hx).mpr ⟨l, hl⟩⟩

/-- A value contains itself if some alias is left in it. -/
theorem isCyclic_iff : v.isCyclic = true ↔ ∃ l, Refers l v := by
  induction v using induct with
  | null => simp [isCyclic]
  | scalar s => simp [isCyclic]
  | range a b c => simp [isCyclic]
  | list xs ih => simpa only [isCyclic, anyCyclic_iff, refers_list] using exists_cyclic_iff ih
  | tuple xs ih => simpa only [isCyclic, anyCyclic_iff, refers_tuple] using exists_cyclic_iff ih
  | sequence t xs ih => simpa only [isCyclic, anyCyclic_iff, refers_sequence] using exists_cyclic_iff ih
  | map o es ih =>
    simp only [isCyclic, anyEntryCyclic_iff, refers_map]
    constructor
    · rintro ⟨e, he, h | h⟩
      · exact ((ih e he).1.mp h).imp fun l hl => ⟨e, he, .inl hl⟩
      · exact ((ih e he).2.mp h).imp fun l hl => ⟨e, he, .inr hl⟩
    · rintro ⟨l, e, he, h | h⟩
      · exact ⟨e, he, .inl ((ih e he).1.mpr ⟨l, h⟩)⟩
      · exact ⟨e, he, .inr ((ih e he).2.mpr ⟨l, h⟩)⟩
  | set f xs ih => simpa only [isCyclic, anyCyclic_iff, refers_set] using exists_cyclic_iff ih
  | anchor l v ih => simpa [isCyclic] using ih
  | link l => simp [isCyclic]

lemma refers_insertEntry {k : Value} (h : Refers l (.map o (insertEntry es k v))) :
    Refers l (.map o es) ∨ Refers l k ∨ Refers l v := by
  induction es with
  | nil =>
    rw [insertEntry, refers_map] at h
    simpa using h
  | cons e es ih =>
    obtain ⟨k', w⟩ := e
    rw [insertEntry] at h
    split_ifs at h
    all_goals simp only [refers_map, List.exists_mem_cons_iff] at h ih ⊢
    · rcases h with (h | h) | h
      · exact .inl (.inl (.inl h))
      · exact .inr (.inr h)
      · exact .inl (.inr h)
    · rcases h with h | h
      · exact .inl (.inl h)
      · exact (ih h).imp_left .inr

lemma refers_entriesOf {ps : List (Value × Value)} (h : Refers l (.map o (entriesOf ps))) :
    ∃ p ∈ ps, Refers l p.1 ∨ Refers l p.2 := by
  induction ps using List.reverseRecOn with
  | nil => simp [entriesOf] at h
  | append_singleton ps p ih =>
    rw [entriesOf, List.foldl_append] at h
    rcases refers_insertEntry h with h | h
    · obtain ⟨q, hq, h⟩ := ih h
      exact ⟨q, List.mem_append_left _ hq, h⟩
    · exact ⟨p, List.mem_append_right _ (List.mem_singleton_self p), h⟩

/-- The elements of a set have no aliases but those of the values that it is made of. -/
lemma refers_elementsOf (h : Refers l (.set f (elementsOf xs))) : ∃ x ∈ xs, Refers l x := by
  have hsub (ys zs : List Value) : ∀ x ∈ ys.foldl insertElement zs, x ∈ zs ∨ x ∈ ys := by
    induction ys generalizing zs with
    | nil => exact fun x hx => .inl hx
    | cons y ys ih =>
      intro x hx
      rcases ih _ x hx with hx | hx
      · rw [insertElement] at hx
        split_ifs at hx
        · exact .inl hx
        · refine (List.mem_append.mp hx).imp_right fun hin => ?_
          rw [List.mem_singleton.mp hin]
          exact List.mem_cons_self
      · exact .inr (List.mem_cons_of_mem _ hx)
  rw [elementsOf, refers_set] at h
  split_ifs at h
  · obtain ⟨x, hx, h⟩ := h
    obtain ⟨i, -, rfl⟩ := List.mem_map.mp hx
    exact absurd h not_refers_scalar
  · obtain ⟨x, hx, h⟩ := h
    exact ⟨x, (hsub _ _ x hx).resolve_left List.not_mem_nil, h⟩

end Members

section Changes

variable {l : Nat} {v : Value} {g : Value → Value}

lemma refers_mapped {p : Nat → Prop} {xs : List Value} (h : ∀ x ∈ xs, (Refers l (g x) ↔ ∃ k, Refers k x ∧ p k)) :
    (∃ y ∈ xs.map g, Refers l y) ↔ ∃ k, (∃ x ∈ xs, Refers k x) ∧ p k := by
  constructor
  · rintro ⟨y, hy, hl⟩
    obtain ⟨x, hx, rfl⟩ := List.mem_map.mp hy
    obtain ⟨k, hk, hp⟩ := (h x hx).mp hl
    exact ⟨k, ⟨x, hx, hk⟩, hp⟩
  · rintro ⟨k, ⟨x, hx, hk⟩, hp⟩
    exact ⟨g x, List.mem_map_of_mem hx, (h x hx).mpr ⟨k, hk, hp⟩⟩

/-- What aliases are left after a change that goes into collections is told by what it makes of the aliases. -/
theorem Descends.refers (hg : Descends g) (p : Nat → Prop)
    (anchor : ∀ m w, (Refers l (g w) ↔ ∃ k, Refers k w ∧ p k) → (Refers l (g (.anchor m w)) ↔ ∃ k, Refers k w ∧ p k))
    (link : ∀ m, Refers l (g (.alias m)) ↔ p m) : Refers l (g v) ↔ ∃ k, Refers k v ∧ p k := by
  induction v using induct with
  | null => simp [hg.null]
  | scalar s => simp [hg.scalar]
  | range a b c => simp [hg.range]
  | list xs ih => simpa only [hg.list, refers_list] using refers_mapped ih
  | tuple xs ih => simpa only [hg.tuple, refers_tuple] using refers_mapped ih
  | sequence t xs ih => simpa only [hg.sequence, refers_sequence] using refers_mapped ih
  | map o es ih =>
    rw [hg.map, refers_map]
    constructor
    · rintro ⟨y, hy, h⟩
      obtain ⟨e, he, rfl⟩ := List.mem_map.mp hy
      rcases h with h | h
      · obtain ⟨k, hk, hp⟩ := (ih e he).1.mp h
        exact ⟨k, .key he hk, hp⟩
      · obtain ⟨k, hk, hp⟩ := (ih e he).2.mp h
        exact ⟨k, .entry he hk, hp⟩
    · rintro ⟨k, hk, hp⟩
      obtain ⟨e, he, hk | hk⟩ := refers_map.mp hk
      · exact ⟨_, List.mem_map_of_mem he, .inl ((ih e he).1.mpr ⟨k, hk, hp⟩)⟩
      · exact ⟨_, List.mem_map_of_mem he, .inr ((ih e he).2.mpr ⟨k, hk, hp⟩)⟩
  | set f xs ih => simpa only [hg.set, refers_set] using refers_mapped ih
  | anchor m w ih => simpa using anchor m w ih
  | link m => simpa using link m

lemma refers_substitute {f : Nat → Value} : Refers l (substitute f v) ↔ ∃ k, Refers k v ∧ Refers l (f k) :=
  (descends_substitute f).refers _ (fun m w ih => by rw [substitute, refers_anchor, ih]) fun m => by rw [substitute]

lemma refers_prune {shared : List Nat} : Refers l (prune shared v) ↔ Refers l v := by
  have hall : Refers l (prune shared v) ↔ ∃ k, Refers k v ∧ k = l := by
    refine (descends_prune shared).refers _ (fun m w ih => ?_) fun m => by simp only [prune, refers_link]
    rw [prune]
    split_ifs <;> simpa using ih
  simpa using hall

/-- Opening a part without aliases leaves it without. -/
lemma Refers.of_fill {label : Nat} {whole : Value} {above : List Nat} (h : Refers l (fill label whole above v)) :
    ∃ k, Refers k v := by
  induction v using induct generalizing above with
  | null => exact absurd h not_refers_null
  | scalar s => exact absurd h not_refers_scalar
  | range a b c => exact absurd h not_refers_range
  | list xs ih =>
    rw [(descends_fill label whole above).list, refers_list] at h
    obtain ⟨y, hy, h⟩ := h
    obtain ⟨x, hx, rfl⟩ := List.mem_map.mp hy
    exact (ih x hx h).imp fun k hk => .list hx hk
  | tuple xs ih =>
    rw [(descends_fill label whole above).tuple, refers_tuple] at h
    obtain ⟨y, hy, h⟩ := h
    obtain ⟨x, hx, rfl⟩ := List.mem_map.mp hy
    exact (ih x hx h).imp fun k hk => .tuple hx hk
  | sequence t xs ih =>
    rw [(descends_fill label whole above).sequence, refers_sequence] at h
    obtain ⟨y, hy, h⟩ := h
    obtain ⟨x, hx, rfl⟩ := List.mem_map.mp hy
    exact (ih x hx h).imp fun k hk => .sequence hx hk
  | map o es ih =>
    rw [(descends_fill label whole above).map, refers_map] at h
    obtain ⟨y, hy, h⟩ := h
    obtain ⟨e, he, rfl⟩ := List.mem_map.mp hy
    rcases h with h | h
    · exact ((ih e he).1 h).imp fun k hk => .key he hk
    · exact ((ih e he).2 h).imp fun k hk => .entry he hk
  | set f xs ih =>
    rw [(descends_fill label whole above).set, refers_set] at h
    obtain ⟨y, hy, h⟩ := h
    obtain ⟨x, hx, rfl⟩ := List.mem_map.mp hy
    exact (ih x hx h).imp fun k hk => .set hx hk
  | anchor m w ih =>
    rw [fill, refers_anchor] at h
    exact (ih h).imp fun k hk => .anchor hk
  | link m => exact ⟨m, .link⟩

lemma isCyclic_pruned : v.pruned.isCyclic = v.isCyclic := by
  rw [Bool.eq_iff_iff, isCyclic_iff, isCyclic_iff]
  exact exists_congr fun _ => refers_prune

lemma isCyclic_of_opened (h : v.opened.isCyclic = true) : v.isCyclic = true := by
  induction v using induct with
  | anchor m w ih =>
    obtain ⟨l, hl⟩ := isCyclic_iff.mp h
    exact ih (isCyclic_iff.mpr (Refers.of_fill hl))
  | _ => exact h

end Changes

/-- The content with a label has an alias with another. -/
def Leads (contents : List (Nat × Value)) (l m : Nat) : Prop := ∃ c, contents.lookup l = some c ∧ Refers m c

/-- There is fuel for all labels that are not above. -/
structure Spare (contents : List (Nat × Value)) (fuel : Nat) (above : List Nat) : Prop where
  nodup : above.Nodup
  known : above ⊆ contents.map (·.1)
  fuel : contents.length < fuel + above.length

section Unfold

open Relation

variable {contents : List (Nat × Value)} {fuel l m : Nat} {above : List Nat} {v c : Value}

lemma Spare.start : Spare contents (contents.length + 1) [] :=
  ⟨List.nodup_nil, List.nil_subset _, Nat.lt_succ_self _⟩

lemma Spare.next (h : Spare contents fuel above) (hl : l ∉ above) (hc : contents.lookup l = some c) :
    ∃ f, fuel = f + 1 ∧ Spare contents f (l :: above) := by
  have hnodup : (l :: above).Nodup := List.nodup_cons.mpr ⟨hl, h.nodup⟩
  have hknown : l :: above ⊆ contents.map (·.1) :=
    List.cons_subset.mpr ⟨List.mem_map_of_mem (mem_of_lookup hc), h.known⟩
  have hlength := (List.subperm_of_subset hnodup hknown).length_le
  rw [List.length_cons, List.length_map] at hlength
  have hfuel := h.fuel
  exact ⟨fuel - 1, by omega, hnodup, hknown, by rw [List.length_cons]; omega⟩

lemma unfoldLabel_above (h : l ∈ above) : unfoldLabel contents fuel above l = .alias l := by
  cases fuel with
  | zero => rfl
  | succ fuel => rw [unfoldLabel, if_pos (by simpa using h)]

lemma unfoldLabel_none (h : contents.lookup l = none) : unfoldLabel contents fuel above l = .alias l := by
  cases fuel with
  | zero => rfl
  | succ fuel =>
    rw [unfoldLabel, h]
    split_ifs <;> rfl

lemma Spare.unfoldLabel (h : Spare contents fuel above) (hl : l ∉ above) (hc : contents.lookup l = some c) :
    ∃ f, Spare contents f (l :: above) ∧ Value.unfoldLabel contents fuel above l =
      .anchor l (substitute (Value.unfoldLabel contents f (l :: above)) c) := by
  obtain ⟨f, rfl, hf⟩ := h.next hl hc
  exact ⟨f, hf, by rw [Value.unfoldLabel, if_neg (by simpa using hl), hc]⟩

/-- An alias that is left stands for what is above, for what is unknown or for what leads back to itself. -/
lemma Spare.refers (h : Spare contents fuel above) (hm : Refers m (Value.unfoldLabel contents fuel above l)) :
    ReflTransGen (Leads contents) l m ∧
      (m ∈ above ∨ contents.lookup m = none ∨ TransGen (Leads contents) m m) := by
  induction fuel generalizing above l with
  | zero =>
    obtain rfl := refers_link.mp hm
    refine ⟨.refl, ?_⟩
    by_contra hout
    simp only [not_or] at hout
    obtain ⟨c, hc⟩ := Option.ne_none_iff_exists'.mp hout.2.1
    obtain ⟨f, hf, -⟩ := h.next hout.1 hc
    cases hf
  | succ fuel ih =>
    by_cases hl : l ∈ above
    · rw [unfoldLabel_above hl] at hm
      obtain rfl := refers_link.mp hm
      exact ⟨.refl, .inl hl⟩
    cases hc : contents.lookup l with
    | none =>
      rw [unfoldLabel_none hc] at hm
      obtain rfl := refers_link.mp hm
      exact ⟨.refl, .inr (.inl hc)⟩
    | some c =>
      obtain ⟨f, hf, hspare⟩ := h.next hl hc
      obtain rfl := Nat.succ.inj hf
      rw [Value.unfoldLabel, if_neg (by simpa using hl), hc, refers_anchor, refers_substitute] at hm
      obtain ⟨k, hk, hm⟩ := hm
      obtain ⟨hreach, hend⟩ := ih hspare hm
      have hstep : Leads contents l k := ⟨c, hc, hk⟩
      refine ⟨.head hstep hreach, ?_⟩
      rcases hend with hin | hend
      · rcases List.mem_cons.mp hin with rfl | hin
        · exact .inr (.inr (.head' hstep hreach))
        · exact .inl hin
      · exact .inr hend

/-- If no alias is left, nothing above is reached, and nothing that is reached leads back to itself. -/
lemma Spare.ends (h : Spare contents fuel above) (hnone : ∀ k, ¬Refers k (Value.unfoldLabel contents fuel above l))
    (hm : ReflTransGen (Leads contents) l m) : m ∉ above ∧ ¬TransGen (Leads contents) m m := by
  induction fuel generalizing above l m with
  | zero => exact absurd Refers.link (hnone l)
  | succ fuel ih =>
    have hl : l ∉ above := fun hin => hnone l (by rw [unfoldLabel_above hin]; exact .link)
    cases hc : contents.lookup l with
    | none =>
      have hlink : Value.unfoldLabel contents (fuel + 1) above l = .alias l := unfoldLabel_none hc
      exact absurd .link (hlink ▸ hnone l)
    | some c =>
      obtain ⟨f, hf, hspare⟩ := h.next hl hc
      obtain rfl := Nat.succ.inj hf
      have hinner (k : Nat) (hk : Leads contents l k) (j : Nat) (hj : ReflTransGen (Leads contents) k j) :
          j ∉ l :: above ∧ ¬TransGen (Leads contents) j j := by
        obtain ⟨c', hc', hk⟩ := hk
        rw [hc] at hc'
        cases hc'
        refine ih hspare (fun i hi => hnone i ?_) hj
        rw [Value.unfoldLabel, if_neg (by simpa using hl), hc, refers_anchor, refers_substitute]
        exact ⟨k, hk, hi⟩
      rcases hm.cases_head with rfl | ⟨k, hk, hreach⟩
      · refine ⟨hl, fun hcycle => ?_⟩
        obtain ⟨k, hk, hback⟩ := TransGen.head'_iff.mp hcycle
        exact (hinner k hk l hback).1 List.mem_cons_self
      · obtain ⟨hout, hno⟩ := hinner k hk m hreach
        exact ⟨fun hin => hout (List.mem_cons_of_mem _ hin), hno⟩

/-- A value that is put together contains itself if and only if what its aliases reach leads back to itself, provided
that every alias that is reached has a content. -/
theorem isCyclic_unfold (hknown : ∀ k l, Refers k v → ReflTransGen (Leads contents) k l → contents.lookup l ≠ none) :
    (v.unfold contents).isCyclic = true ↔
      ∃ k l, Refers k v ∧ ReflTransGen (Leads contents) k l ∧ TransGen (Leads contents) l l := by
  rw [isCyclic_iff]
  constructor
  · rintro ⟨l, hl⟩
    obtain ⟨k, hk, hl⟩ := refers_substitute.mp hl
    obtain ⟨hreach, hend⟩ := Spare.start.refers hl
    rcases hend with hin | hnone | hcycle
    · exact absurd hin List.not_mem_nil
    · exact absurd hnone (hknown k l hk hreach)
    · exact ⟨k, l, hk, hreach, hcycle⟩
  · rintro ⟨k, l, hk, hreach, hcycle⟩
    by_contra hnone
    have hinner (j : Nat) : ¬Refers j (Value.unfoldLabel contents (contents.length + 1) [] k) := fun hj =>
      hnone ⟨j, refers_substitute.mpr ⟨k, hk, hj⟩⟩
    exact (Spare.start.ends hinner hreach).2 hcycle

end Unfold

end DocPath.Value
