import DocPath.Proofs.Text
import DocPath.Proofs.Value.Plain
import DocPath.Value.Key
import Mathlib.Data.List.Induction
import Mathlib.Tactic.SplitIfs

/-! Values whose mappings have texts as keys stay such values when their labels are resolved: opening a part
that contains itself, putting parts into their places and dropping labels change no key. -/

namespace DocPath.Value

/-- What holds of a value if it holds of all that lies in it holds of every value. -/
@[elab_as_elim]
theorem induct {motive : Value → Prop} (null : motive .null) (scalar : ∀ s, motive (.scalar s))
    (range : ∀ a b c, motive (.range a b c)) (list : ∀ xs, (∀ x ∈ xs, motive x) → motive (.list xs))
    (tuple : ∀ xs, (∀ x ∈ xs, motive x) → motive (.tuple xs))
    (sequence : ∀ t xs, (∀ x ∈ xs, motive x) → motive (.sequence t xs))
    (map : ∀ o es, (∀ e ∈ es, motive e.1 ∧ motive e.2) → motive (.map o es))
    (set : ∀ f xs, (∀ x ∈ xs, motive x) → motive (.set f xs))
    (anchor : ∀ l v, motive v → motive (.anchor l v)) (link : ∀ l, motive (.alias l)) (v : Value) : motive v :=
  @Value.rec motive (fun xs => ∀ x ∈ xs, motive x) (fun es => ∀ e ∈ es, motive e.1 ∧ motive e.2)
    (fun e => motive e.1 ∧ motive e.2) null scalar range list tuple sequence map set anchor link
    (fun _ h => absurd h List.not_mem_nil) (fun _ _ hx hxs => List.forall_mem_cons.mpr ⟨hx, hxs⟩)
    (fun _ h => absurd h List.not_mem_nil) (fun _ _ he hes => List.forall_mem_cons.mpr ⟨he, hes⟩)
    (fun _ _ hk hv => ⟨hk, hv⟩) v

section Members

variable {t : SequenceType} {xs : List Value} {es : List (Value × Value)} {o f : Bool}

lemma textKeyedAll_iff : TextKeyedAll xs ↔ ∀ x ∈ xs, x.TextKeyed := by
  induction xs with
  | nil => simp [TextKeyedAll]
  | cons x xs ih => rw [TextKeyedAll, ih, List.forall_mem_cons]

lemma textKeyedEntries_iff : TextKeyedEntries es ↔ ∀ e ∈ es, e.2.TextKeyed := by
  induction es with
  | nil => simp [TextKeyedEntries]
  | cons e es ih => rw [TextKeyedEntries, ih, List.forall_mem_cons]

@[simp] lemma textKeyed_list : (list xs).TextKeyed ↔ ∀ x ∈ xs, x.TextKeyed := textKeyedAll_iff

@[simp] lemma textKeyed_tuple : (tuple xs).TextKeyed ↔ ∀ x ∈ xs, x.TextKeyed := textKeyedAll_iff

@[simp] lemma textKeyed_sequence : (sequence t xs).TextKeyed ↔ ∀ x ∈ xs, x.TextKeyed := textKeyedAll_iff

lemma textKeyed_map : (map o es).TextKeyed ↔
    (∀ e ∈ es, ∃ t, e.1 = .text t) ∧ (es.map (·.1)).Nodup ∧ ∀ e ∈ es, e.2.TextKeyed := by
  rw [TextKeyed, textKeyedEntries_iff]

/-- A change that leaves texts alone leaves the keys of a mapping alone. -/
lemma TextKeyed.map_entries {g : Value → Value} (hg : ∀ t, g (.text t) = .text t) (h : (map o es).TextKeyed)
    (hv : ∀ e ∈ es, (g e.2).TextKeyed) : (map o (es.map fun e => (g e.1, g e.2))).TextKeyed := by
  rw [textKeyed_map] at h ⊢
  obtain ⟨htexts, hnodup, -⟩ := h
  have hkeys : (es.map fun e => (g e.1, g e.2)).map (·.1) = es.map (·.1) := by
    rw [List.map_map]
    refine List.map_congr_left fun e he => ?_
    obtain ⟨t, ht⟩ := htexts e he
    show g e.1 = e.1
    rw [ht, hg]
  refine ⟨fun e he => ?_, hkeys ▸ hnodup, fun e he => ?_⟩
  · have hmem : e.1 ∈ es.map (·.1) := hkeys ▸ List.mem_map_of_mem he
    obtain ⟨e', he', heq⟩ := List.mem_map.mp hmem
    exact heq ▸ htexts e' he'
  · obtain ⟨e', he', rfl⟩ := List.mem_map.mp he
    exact hv e' he'

end Members

section Entries

variable {t : Text} {v : Value} {es : List (Value × Value)} {o : Bool}

lemma sameKey_text {u : Text} : sameKey (.text t) (.text u) = (t == u) := by
  have hinj : (Scalar.text t == Scalar.text u) = (t == u) := by
    simp only [beq_eq_decide, Scalar.text.injEq]
  rw [sameKey, Scalar.sameKey, ← hinj]
  · rfl
  all_goals exact nofun

lemma insertEntry_new (hes : ∀ e ∈ es, ∃ u, e.1 = .text u ∧ u ≠ t) :
    insertEntry es (.text t) v = es ++ [(.text t, v)] := by
  induction es with
  | nil => rfl
  | cons e es ih =>
    obtain ⟨k, w⟩ := e
    obtain ⟨u, rfl, hu⟩ := hes _ List.mem_cons_self
    have hne : (u == t) = false := beq_eq_false_iff_ne.mpr hu
    rw [insertEntry, sameKey_text, hne, if_neg Bool.false_ne_true,
      ih fun e he => hes e (List.mem_cons_of_mem _ he)]
    rfl

lemma entriesOf_texts {es : List (Text × Value)} (hes : (es.map (·.1)).Nodup) :
    entriesOf (es.map fun e => (.text e.1, e.2)) = es.map fun e => (.text e.1, e.2) := by
  induction es using List.reverseRecOn with
  | nil => rfl
  | append_singleton es e ih =>
    rw [List.map_append, List.nodup_append] at hes
    obtain ⟨hfirst, -, hdisjoint⟩ := hes
    rw [entriesOf] at ih ⊢
    rw [List.map_append, List.foldl_append, ih hfirst]
    refine insertEntry_new fun x hx => ?_
    obtain ⟨y, hy, rfl⟩ := List.mem_map.mp hx
    exact ⟨y.1, rfl, hdisjoint y.1 (List.mem_map_of_mem hy) e.1 (List.mem_singleton_self _)⟩

/-- What a mapping has at a text. -/
def entryAt (es : List (Value × Value)) (name : Text) : Option Value :=
  (es.find? fun e => e.1.sameKey (.text name)).map (·.2)

lemma entryAt_cons (name : Text) :
    entryAt ((.text t, v) :: es) name = if t = name then some v else entryAt es name := by
  rw [entryAt, List.find?_cons, sameKey_text]
  by_cases ht : t = name
  · rw [beq_iff_eq.mpr ht, if_pos ht]
    rfl
  · rw [beq_eq_false_iff_ne.mpr ht, if_neg ht]
    rfl

/-- All keys are texts. -/
def HasTexts (es : List (Value × Value)) : Prop := ∀ e ∈ es, ∃ u, e.1 = .text u

lemma hasTexts_insertEntry (hes : HasTexts es) : HasTexts (insertEntry es (.text t) v) := by
  induction es with
  | nil => exact List.forall_mem_singleton.mpr ⟨t, rfl⟩
  | cons e es ih =>
    obtain ⟨⟨u, hu⟩, hrest⟩ := List.forall_mem_cons.mp hes
    rw [insertEntry]
    split_ifs
    · exact List.forall_mem_cons.mpr ⟨⟨u, hu⟩, hrest⟩
    · exact List.forall_mem_cons.mpr ⟨⟨u, hu⟩, ih hrest⟩

/-- An entry that is put in counts, and the others stay. -/
lemma entryAt_insertEntry (hes : HasTexts es) (name : Text) :
    entryAt (insertEntry es (.text t) v) name = if t = name then some v else entryAt es name := by
  induction es with
  | nil => rw [insertEntry, entryAt_cons]
  | cons e es ih =>
    obtain ⟨k, w⟩ := e
    obtain ⟨⟨u, rfl⟩, hrest⟩ := List.forall_mem_cons.mp hes
    rw [insertEntry, sameKey_text]
    by_cases hu : u = t
    · rw [if_pos (beq_iff_eq.mpr hu), entryAt_cons, entryAt_cons, hu]
      split_ifs <;> rfl
    · rw [if_neg (by simpa using hu), entryAt_cons, entryAt_cons, ih hrest]
      split_ifs with h h'
      · exact absurd (h.trans h'.symm) hu
      · rfl
      · rfl
      · rfl

/-- A mapping with an entry put in. -/
lemma textKeyed_insertEntry (h : (map o es).TextKeyed) (hv : v.TextKeyed) :
    (map o (insertEntry es (.text t) v)).TextKeyed ∧
      ∀ e ∈ insertEntry es (.text t) v, e.1 = .text t ∨ ∃ e' ∈ es, e'.1 = e.1 := by
  induction es with
  | nil =>
    rw [insertEntry, textKeyed_map]
    simp [hv]
  | cons e es ih =>
    obtain ⟨k, w⟩ := e
    rw [textKeyed_map, List.forall_mem_cons, List.map_cons, List.nodup_cons, List.forall_mem_cons] at h
    obtain ⟨⟨⟨u, rfl⟩, htexts⟩, ⟨hnew, hnodup⟩, hw, hvalues⟩ := h
    have hrest : (map o es).TextKeyed := textKeyed_map.mpr ⟨htexts, hnodup, hvalues⟩
    obtain ⟨hin, hsub⟩ := ih hrest
    rw [insertEntry, sameKey_text]
    by_cases hu : u = t
    · rw [if_pos (beq_iff_eq.mpr hu), textKeyed_map, List.map_cons]
      refine ⟨⟨List.forall_mem_cons.mpr ⟨⟨u, rfl⟩, htexts⟩, List.nodup_cons.mpr ⟨hnew, hnodup⟩,
        List.forall_mem_cons.mpr ⟨hv, hvalues⟩⟩, fun e he => ?_⟩
      rcases List.mem_cons.mp he with rfl | he
      · exact .inl (congrArg Value.text hu)
      · exact .inr ⟨e, List.mem_cons_of_mem _ he, rfl⟩
    · rw [if_neg (by simpa using hu), textKeyed_map, List.map_cons]
      rw [textKeyed_map] at hin
      refine ⟨⟨List.forall_mem_cons.mpr ⟨⟨u, rfl⟩, hin.1⟩, List.nodup_cons.mpr ⟨fun hmem => ?_, hin.2.1⟩,
        List.forall_mem_cons.mpr ⟨hw, hin.2.2⟩⟩, fun e he => ?_⟩
      · obtain ⟨e, he, heq⟩ := List.mem_map.mp hmem
        rcases hsub e he with ht | ⟨e', he', heq'⟩
        · rw [heq] at ht
          exact hu (by simpa using ht)
        · exact hnew (List.mem_map.mpr ⟨e', he', heq'.trans heq⟩)
      · rcases List.mem_cons.mp he with rfl | he
        · exact .inr ⟨_, List.mem_cons_self, rfl⟩
        · rcases hsub e he with ht | ⟨e', he', heq⟩
          · exact .inl ht
          · exact .inr ⟨e', List.mem_cons_of_mem _ he', heq⟩

lemma textKeyed_entriesOf (hes : ∀ e ∈ es, (∃ t, e.1 = .text t) ∧ e.2.TextKeyed) :
    (map o (entriesOf es)).TextKeyed := by
  induction es using List.reverseRecOn with
  | nil => exact textKeyed_map.mpr (by simp [entriesOf])
  | append_singleton es e ih =>
    obtain ⟨⟨t, ht⟩, hv⟩ := hes e (by simp)
    rw [entriesOf, List.foldl_append]
    show (map o (insertEntry (entriesOf es) e.1 e.2)).TextKeyed
    rw [ht]
    exact (textKeyed_insertEntry (ih fun e he => hes e (by simp [he])) hv).1

/-- Of different texts as keys only the one that is looked up is found. -/
lemma find?_text (h : (map o es).TextKeyed) (he : (.text t, v) ∈ es) :
    es.find? (fun e => e.1.sameKey (.text t)) = some (.text t, v) := by
  rw [textKeyed_map] at h
  obtain ⟨htexts, hnodup, -⟩ := h
  rw [List.find?_eq_some_iff_append]
  obtain ⟨before, after, rfl⟩ := List.append_of_mem he
  refine ⟨by rw [sameKey_text]; simp, before, after, rfl, fun e hmem => ?_⟩
  obtain ⟨u, hu⟩ := htexts e (by simp [hmem])
  rw [hu, sameKey_text, Bool.not_eq_true', beq_eq_false_iff_ne]
  rintro rfl
  rw [List.map_append, List.nodup_append] at hnodup
  exact hnodup.2.2 e.1 (List.mem_map_of_mem hmem) (.text u) (by simp) hu

end Entries

/-- A change of values that goes into collections and leaves alone what is neither a collection nor a label. -/
structure Descends (g : Value → Value) : Prop where
  null : g .null = .null
  scalar : ∀ s, g (.scalar s) = .scalar s
  range : ∀ a b c, g (.range a b c) = .range a b c
  list : ∀ xs, g (.list xs) = .list (xs.map g)
  tuple : ∀ xs, g (.tuple xs) = .tuple (xs.map g)
  sequence : ∀ t xs, g (.sequence t xs) = .sequence t (xs.map g)
  map : ∀ o es, g (.map o es) = .map o (es.map fun e => (g e.1, g e.2))
  set : ∀ f xs, g (.set f xs) = .set f (xs.map g)

/-- Such changes keep texts as keys if they do so where they come to a label. -/
theorem Descends.textKeyed {ι : Type} {g : ι → Value → Value} (hg : ∀ i, Descends (g i))
    (anchor : ∀ i l v, (∀ j, (g j v).TextKeyed) → (g i (.anchor l v)).TextKeyed)
    (link : ∀ i l, (g i (.alias l)).TextKeyed) {v : Value} (h : v.TextKeyed) (i : ι) : (g i v).TextKeyed := by
  induction v using induct generalizing i with
  | null => rw [(hg i).null]; trivial
  | scalar s => rw [(hg i).scalar]; trivial
  | range a b c => rw [(hg i).range]; trivial
  | list xs ih =>
    rw [(hg i).list, textKeyed_list, List.forall_mem_map]
    exact fun x hx => ih x hx (textKeyed_list.mp h x hx) i
  | tuple xs ih =>
    rw [(hg i).tuple, textKeyed_tuple, List.forall_mem_map]
    exact fun x hx => ih x hx (textKeyed_tuple.mp h x hx) i
  | sequence t xs ih =>
    rw [(hg i).sequence, textKeyed_sequence, List.forall_mem_map]
    exact fun x hx => ih x hx (textKeyed_sequence.mp h x hx) i
  | map o es ih =>
    rw [(hg i).map]
    exact h.map_entries (fun t => (hg i).scalar _) fun e he => (ih e he).2 ((textKeyed_map.mp h).2.2 e he) i
  | set f xs ih => rw [(hg i).set]; trivial
  | anchor l v ih => exact anchor i l v fun j => ih h j
  | link l => exact link i l

section Links

variable {label : Nat} {labels shared : List Nat} {whole v : Value} {f : Nat → Value}

lemma descends_cut (labels : List Nat) : Descends (cut labels) := by
  have all (xs : List Value) : cutAll labels xs = xs.map (cut labels) := by
    induction xs with
    | nil => rfl
    | cons x xs ih => rw [cutAll, ih, List.map_cons]
  have entries (es : List (Value × Value)) :
      cutEntries labels es = es.map fun e => (cut labels e.1, cut labels e.2) := by
    induction es with
    | nil => rfl
    | cons e es ih => rw [cutEntries, ih, List.map_cons]
  constructor <;> intros <;> simp only [cut, all, entries]

lemma descends_fill (label : Nat) (whole : Value) (above : List Nat) : Descends (fill label whole above) := by
  have all (xs : List Value) : fillAll label whole above xs = xs.map (fill label whole above) := by
    induction xs with
    | nil => rfl
    | cons x xs ih => rw [fillAll, ih, List.map_cons]
  have entries (es : List (Value × Value)) : fillEntries label whole above es =
      es.map fun e => (fill label whole above e.1, fill label whole above e.2) := by
    induction es with
    | nil => rfl
    | cons e es ih => rw [fillEntries, ih, List.map_cons]
  constructor <;> intros <;> simp only [fill, all, entries]

lemma descends_substitute (f : Nat → Value) : Descends (substitute f) := by
  have all (xs : List Value) : substituteAll f xs = xs.map (substitute f) := by
    induction xs with
    | nil => rfl
    | cons x xs ih => rw [substituteAll, ih, List.map_cons]
  have entries (es : List (Value × Value)) :
      substituteEntries f es = es.map fun e => (substitute f e.1, substitute f e.2) := by
    induction es with
    | nil => rfl
    | cons e es ih => rw [substituteEntries, ih, List.map_cons]
  constructor <;> intros <;> simp only [substitute, all, entries]

lemma descends_prune (shared : List Nat) : Descends (prune shared) := by
  have all (xs : List Value) : pruneAll shared xs = xs.map (prune shared) := by
    induction xs with
    | nil => rfl
    | cons x xs ih => rw [pruneAll, ih, List.map_cons]
  have entries (es : List (Value × Value)) :
      pruneEntries shared es = es.map fun e => (prune shared e.1, prune shared e.2) := by
    induction es with
    | nil => rfl
    | cons e es ih => rw [pruneEntries, ih, List.map_cons]
  constructor <;> intros <;> simp only [prune, all, entries]

lemma textKeyed_cut (h : v.TextKeyed) : (cut labels v).TextKeyed := by
  refine Descends.textKeyed (fun _ : Unit => descends_cut labels) (fun _ l w hw => ?_) (fun _ _ => trivial) h ()
  rw [cut]
  split_ifs
  · trivial
  · exact hw ()

lemma textKeyed_fill {above : List Nat} (hw : whole.TextKeyed) (h : v.TextKeyed) :
    (fill label whole above v).TextKeyed := by
  refine Descends.textKeyed (descends_fill label whole) (fun above l w hw => ?_) (fun above l => ?_) h above
  · exact hw (l :: above)
  · rw [fill]
    split_ifs
    · exact textKeyed_cut hw
    · trivial

lemma TextKeyed.opened (h : v.TextKeyed) : v.opened.TextKeyed := by
  induction v using Value.induct with
  | anchor l v ih => exact textKeyed_fill (show (anchor l v).TextKeyed from h) (ih h)
  | _ => exact h

lemma textKeyed_substitute (hf : ∀ l, (f l).TextKeyed) (h : v.TextKeyed) : (substitute f v).TextKeyed :=
  Descends.textKeyed (fun _ : Unit => descends_substitute f) (fun _ _ _ hw => hw ()) (fun _ l => hf l) h ()

/-- Parts whose contents have texts as keys are unfolded to values that have. -/
lemma textKeyed_unfold {contents : List (Nat × Value)} (hc : ∀ e ∈ contents, e.2.TextKeyed) (h : v.TextKeyed) :
    (v.unfold contents).TextKeyed := by
  have label (fuel : Nat) (above : List Nat) (l : Nat) : (unfoldLabel contents fuel above l).TextKeyed := by
    induction fuel generalizing above l with
    | zero => trivial
    | succ fuel ih =>
      rw [unfoldLabel]
      split_ifs
      · trivial
      · split
        · trivial
        · next w hw => exact textKeyed_substitute (ih (l :: above)) (hc (l, w) (mem_of_lookup hw))
  exact textKeyed_substitute (label _ _) h

lemma TextKeyed.pruned (h : v.TextKeyed) : v.pruned.TextKeyed := by
  refine Descends.textKeyed (fun _ : Unit => descends_prune (repeated v.labels)) (fun _ l w hw => ?_)
    (fun _ _ => trivial) h ()
  simp only [prune]
  split_ifs <;> exact hw ()

end Links

end DocPath.Value
