import DocPath.Proofs.Yaml.Keeps
import DocPath.Proofs.Yaml.Parts
import Mathlib.Data.Finset.Card

/-! The values of composed nodes. Sequences wait until the mapping around them is complete, so the invariant
speaks about all parts at once: what is made is full unless it still waits. -/

namespace DocPath.Yaml.Make

/-- What stands for a node in the content of another. -/
def ref : Node → Value
  | .scalar h t => (plainScalar h.tag t).toOption.getD .null
  | n => .alias n.head.id

/-- The name of a key that is a scalar. -/
def keyText : Node → Text
  | .scalar h t => scalarName h.tag t
  | _ => []

/-- The content of a collection. -/
def content : Node → Value
  | .sequence _ ns => .list (ns.map ref)
  | .mapping _ es => .map false (es.map fun e => (.text (keyText e.1), ref e.2))
  | _ => .null

/-- No two keys of a mapping are equal. -/
def DistinctKeys : Node → Prop
  | .mapping _ es => (es.map fun e => keyText e.1).Nodup
  | _ => True

lemma size_le_partId (size id place : Nat) : size ≤ partId size id place :=
  (Nat.le_mul_of_pos_right size (Nat.succ_pos place)).trans (Nat.le_add_right _ id)

section Steps

variable {src : Source} {fuel : Nat} {deep : Bool} {s : Making} {n : Node} {h : Head} {t : Text} {ns : List Node}
  {es : List (Node × Node)}

lemma follow_of_sound (hn : n.Sound) : follow src n = n := by
  cases n with
  | «alias» l => exact absurd hn id
  | _ => rfl

lemma tagOf_run (ht : s.texts = []) : tagOf n s = .ok (n.head.tag, s) := by
  have hrun : tagOf n s = (if n.head.tag = Tag.value ∧ s.texts.contains n.head.id = true then
      (pure Tag.string : Make Text) else pure n.head.tag) s := rfl
  rw [hrun, ht, if_neg (by simp)]
  rfl

lemma value_done {v : Value} (hn : n.Sound) (hd : s.done.lookup n.head.id = some v) :
    value src (fuel + 1) deep n s = .ok (v, s) := by
  rw [value, follow_of_sound hn, bind_ok (t := s) rfl]
  simp only [hd]
  rfl

lemma value_new (hn : n.Sound) (hd : s.done.lookup n.head.id = none) (ha : n.head.id ∉ s.active)
    (ht : s.texts = []) :
    value src (fuel + 1) deep n s = (make src fuel deep n n.head.tag >>= fun v => do
      modify fun s => { s with done := (n.head.id, v) :: s.done, active := s.active.filter (· != n.head.id) }
      pure v) { s with active := n.head.id :: s.active } := by
  rw [value, follow_of_sound hn, bind_ok (t := s) rfl]
  simp only [hd]
  rw [bind_ok (t := s) rfl, if_neg (by simpa using ha), bind_ok (t := { s with active := n.head.id :: s.active }) rfl,
    bind_ok (tagOf_run (by exact ht))]

lemma textOf_scalar : textOf src (fuel + 1) (.scalar h t) s = .ok (t, s) := by
  rw [textOf]
  rfl

lemma scalarOf_plain {tag : Text} (ht : tag ∈ plainTags) :
    scalarOf n tag t = plainScalar tag t ∧ isScalarTag tag = true := by
  simp only [plainTags, List.mem_cons, List.not_mem_nil, or_false] at ht
  rcases ht with rfl | rfl | rfl | rfl | rfl
  · exact ⟨rfl, by decide⟩
  · exact ⟨rfl, by decide⟩
  · exact ⟨rfl, by decide⟩
  · exact ⟨rfl, by decide⟩
  · exact ⟨rfl, by decide⟩

lemma make_scalar (ht : IsReadable h.tag t) :
    make src (fuel + 2) deep (.scalar h t) h.tag s = .ok (ref (.scalar h t), s) := by
  obtain ⟨htag, v, hv⟩ := ht
  obtain ⟨hscalar, hall⟩ := @scalarOf_plain (.scalar h t) t h.tag htag
  have href : ref (.scalar h t) = v := by rw [ref, hv]; rfl
  rw [make, if_pos hall, bind_ok textOf_scalar, hscalar, hv, href]
  rfl

lemma make_sequence (fuel : Nat) (ns : List Node) (hrule : src.rule = .names) :
    make src (fuel + 1) false (.sequence h ns) Tag.sequence s = .ok (.alias h.id,
      { s with contents := (h.id, .list []) :: s.contents, pending := s.pending ++ [.sequence h ns] }) := by
  have h1 : isScalarTag Tag.sequence = false := by decide
  have h2 : isFilledTag src.rule Tag.sequence = true := by rw [hrule]; decide
  have h3 : emptyContent Tag.sequence = .list [] := by decide
  rw [make, h1, h2, h3]
  rfl

lemma make_mapping (hrule : src.rule = .names) :
    make src (fuel + 1) deep (.mapping h es) Tag.mapping s =
      (namedMapping src fuel (value src fuel true) (value src fuel deep) (.mapping h es) >>= fun c => do
        setContent h.id c
        pure (.alias h.id)) s := by
  have h1 : isScalarTag Tag.mapping = false := by decide
  have h2 : isFilledTag src.rule Tag.mapping = false := by rw [hrule]; decide
  rw [make, h1, h2]
  simp only [Bool.false_eq_true, if_false, if_true]
  rfl

end Steps

/-- A collection whose content is known and whose children are made. -/
structure Full (s : Making) (m : Node) : Prop where
  content : s.contents.lookup m.head.id = some (content m)
  children : ∀ c ∈ m.children, (s.done.lookup c.head.id).isSome
  distinct : DistinctKeys m

/-- What is known of a node that is made: a sequence may still wait or be about to be filled. -/
def Settled (s : Making) (filling : List Node) (m : Node) : Prop :=
  match m with
  | .sequence .. => m ∈ s.pending ∨ m ∈ filling ∨ Full s m
  | .mapping .. => Full s m
  | _ => True

/-- What holds of the parts of a document between any two steps. -/
structure Inv (root : Node) (filling : List Node) (s : Making) : Prop where
  entries : s.entries = []
  texts : s.texts = []
  done : ∀ m ∈ root.parts, ∀ v, s.done.lookup m.head.id = some v → v = ref m ∧ Settled s filling m
  pending : ∀ m ∈ s.pending, m ∈ root.parts ∧ ∃ h ns, m = .sequence h ns

/-- The parts that are not made yet. -/
def unmade (size : Nat) (s : Making) : Finset Nat :=
  (Finset.range size).filter fun id => s.done.lookup id = none

/-- A bound for the sequences that are still to be filled. -/
def left (size : Nat) (s : Making) : Nat := s.pending.length + (unmade size s).card

/-- What a step leaves as it is, and what only grows. -/
structure After (size : Nat) (s s' : Making) : Prop where
  active : s'.active = s.active
  done : ∀ id, (s.done.lookup id).isSome → (s'.done.lookup id).isSome
  left : left size s' ≤ left size s

lemma After.refl (size : Nat) (s : Making) : After size s s := ⟨rfl, fun _ h => h, Nat.le_refl _⟩

lemma After.trans {size : Nat} {s s' s'' : Making} (h : After size s s') (h' : After size s' s'') :
    After size s s'' :=
  ⟨h'.active.trans h.active, fun id hid => h'.done id (h.done id hid), h'.left.trans h.left⟩

lemma After.setContents {size : Nat} {s s' : Making} (h : After size s s') (contents : List (Nat × Value)) :
    After size s { s' with contents := contents } :=
  ⟨h.active, h.done, h.left⟩

/-- The only faults are those of mappings with two equal keys. -/
def Clash (root : Node) (_ : Fault) : Prop := ¬∀ m ∈ root.parts, DistinctKeys m

section Invariant

variable {root : Node} {size : Nat} {filling : List Node} {s s' : Making} {m n : Node}

lemma Full.mono (h : Full s m) (hc : s'.contents.lookup m.head.id = s.contents.lookup m.head.id)
    (hd : ∀ id, (s.done.lookup id).isSome → (s'.done.lookup id).isSome) : Full s' m :=
  ⟨hc.trans h.content, fun c hm => hd _ (h.children c hm), h.distinct⟩

lemma Settled.mono (h : Settled s filling m) (hp : s.pending ⊆ s'.pending)
    (hf : Full s m → Full s' m) : Settled s' filling m := by
  cases m with
  | sequence g ns =>
    rcases h with h | h | h
    · exact .inl (hp h)
    · exact .inr (.inl h)
    · exact .inr (.inr (hf h))
  | mapping g es => exact hf h
  | _ => trivial

lemma lookup_cons_of_ne {id id' : Nat} {v : Value} {l : List (Nat × Value)} (h : id' ≠ id) :
    ((id, v) :: l).lookup id' = l.lookup id' := by
  have hne : (id' == id) = false := beq_eq_false_iff_ne.mpr h
  rw [List.lookup_cons, hne]

lemma lookup_cons_self {id : Nat} {v : Value} {l : List (Nat × Value)} : ((id, v) :: l).lookup id = some v := by
  rw [List.lookup_cons, beq_self_eq_true]

lemma isSome_lookup_cons {id id' : Nat} {v : Value} {l : List (Nat × Value)} (h : (l.lookup id').isSome) :
    (((id, v) :: l).lookup id').isSome := by
  by_cases he : id' = id
  · subst he
    rw [lookup_cons_self]
    rfl
  · rwa [lookup_cons_of_ne he]

/-- A node is made. -/
lemma Inv.setDone (hw : Whole root size) (h : Inv root filling s) (hn : n ∈ root.parts)
    (hs : Settled s filling n) (active : List Nat) :
    Inv root filling { s with done := (n.head.id, ref n) :: s.done, active := active } := by
  have hfull {m : Node} (hm : Full s m) :
      Full { s with done := (n.head.id, ref n) :: s.done, active := active } m :=
    hm.mono rfl fun id hid => isSome_lookup_cons hid
  refine ⟨h.entries, h.texts, fun m hm v hv => ?_, h.pending⟩
  by_cases he : m.head.id = n.head.id
  · obtain rfl := hw.unique m hm n hn he
    refine ⟨?_, hs.mono (List.Subset.refl _) hfull⟩
    exact (Option.some.inj (lookup_cons_self.symm.trans hv)).symm
  · obtain ⟨hv, hsettled⟩ := h.done m hm v ((lookup_cons_of_ne he).symm.trans hv)
    exact ⟨hv, hsettled.mono (List.Subset.refl _) hfull⟩

lemma Inv.setContent (hw : Whole root size) (h : Inv root filling s) (hn : n ∈ root.parts) :
    Inv root filling { s with contents := (n.head.id, content n) :: s.contents } := by
  refine ⟨h.entries, h.texts, fun m hm v hv => ?_, h.pending⟩
  obtain ⟨hv, hsettled⟩ := h.done m hm v hv
  refine ⟨hv, hsettled.mono (List.Subset.refl _) fun hfull => ⟨?_, hfull.children, hfull.distinct⟩⟩
  by_cases he : m.head.id = n.head.id
  · obtain rfl := hw.unique m hm n hn he
    exact lookup_cons_self
  · exact (lookup_cons_of_ne he).trans hfull.content

/-- A sequence that is not made yet begins to wait. -/
lemma Inv.wait (h : Inv root filling s) {g : Head} {ns : List Node}
    (hn : .sequence g ns ∈ root.parts) (hnew : s.done.lookup g.id = none) (v : Value) :
    Inv root filling
      { s with contents := (g.id, v) :: s.contents, pending := s.pending ++ [.sequence g ns] } := by
  refine ⟨h.entries, h.texts, fun m hm w hw' => ?_, fun m hm => ?_⟩
  · obtain ⟨hv, hsettled⟩ := h.done m hm w hw'
    refine ⟨hv, hsettled.mono (List.subset_append_left _ _) fun hfull => hfull.mono ?_ fun _ h => h⟩
    refine lookup_cons_of_ne fun he => ?_
    have hsome : s.done.lookup m.head.id = some w := hw'
    rw [he, hnew] at hsome
    cases hsome
  · rcases List.mem_append.mp hm with hm | hm
    · exact h.pending m hm
    · rw [List.mem_singleton.mp hm]
      exact ⟨hn, _, _, rfl⟩

lemma unmade_subset {v : Value} {active : List Nat} {id : Nat} :
    unmade size { s with done := (id, v) :: s.done, active := active } ⊆ unmade size s := by
  intro x hx
  rw [unmade, Finset.mem_filter] at hx ⊢
  refine ⟨hx.1, ?_⟩
  have hlookup : ((id, v) :: s.done).lookup x = none := hx.2
  by_cases he : x = id
  · subst he
    rw [lookup_cons_self] at hlookup
    cases hlookup
  · rwa [lookup_cons_of_ne he] at hlookup

lemma card_unmade_lt {v : Value} {active : List Nat} {id : Nat} (hid : id < size) (hnew : s.done.lookup id = none) :
    (unmade size { s with done := (id, v) :: s.done, active := active }).card < (unmade size s).card := by
  refine Finset.card_lt_card ⟨unmade_subset, fun h => ?_⟩
  have hmem : id ∈ unmade size s := by
    rw [unmade, Finset.mem_filter, Finset.mem_range]
    exact ⟨hid, hnew⟩
  have := h hmem
  rw [unmade, Finset.mem_filter] at this
  have hlookup : ((id, v) :: s.done).lookup id = none := this.2
  rw [lookup_cons_self] at hlookup
  cases hlookup

end Invariant

/-- A node is made: what stands for it is known, and it is kept. -/
structure Made (root : Node) (size : Nat) (filling : List Node) (s : Making) (n : Node) (v : Value) (s' : Making) :
    Prop where
  value : v = ref n
  inv : Inv root filling s'
  after : After size s s'
  done : (s'.done.lookup n.head.id).isSome

section Values

variable {root : Node} {size : Nat} {filling : List Node} {src : Source} {s : Making} {n : Node} {fuel : Nat}

lemma filter_active {id : Nat} {active : List Nat} (h : id ∉ active) :
    (id :: active).filter (· != id) = active := by
  rw [List.filter_cons_of_neg (by simp), List.filter_eq_self]
  intro a ha
  exact bne_iff_ne.mpr fun he => h (he ▸ ha)

/-- What is left to do once the value of a node is there. -/
lemma value_finish (hw : Whole root size) {x : Make Value} (hn : n ∈ root.parts) (hnew : n.head.id ∉ s.active)
    {s₀ : Making} (hs₀ : s₀ = { s with active := n.head.id :: s.active })
    (hx : Yields (Clash root) (x s₀) fun v s' => v = ref n ∧ Inv root filling s' ∧ After size s₀ s' ∧
      Settled s' filling n) :
    Yields (Clash root) ((x >>= fun v => do
      modify fun s => { s with done := (n.head.id, v) :: s.done, active := s.active.filter (· != n.head.id) }
      pure v : Make Value) s₀) (Made root size filling s n) := by
  subst hs₀
  refine hx.bind fun v s' ⟨hv, hinv, hafter, hsettled⟩ => ?_
  subst hv
  have hactive : s'.active.filter (· != n.head.id) = s.active := by
    rw [hafter.active]
    exact filter_active hnew
  refine Yields.of_eq (s := { s' with done := (n.head.id, ref n) :: s'.done, active := s.active }) ?_
    ⟨rfl, hinv.setDone hw hn hsettled _, ⟨rfl, fun id hid => isSome_lookup_cons (hafter.done id hid), ?_⟩, ?_⟩
  · rw [← hactive]
    rfl
  · refine Nat.le_trans (Nat.add_le_add_left (Finset.card_le_card unmade_subset) _) hafter.left
  · show (((n.head.id, ref n) :: s'.done).lookup n.head.id).isSome
    rw [lookup_cons_self]
    rfl

lemma Inv.setActive (h : Inv root filling s) (active : List Nat) : Inv root filling { s with active := active } := by
  refine ⟨h.entries, h.texts, fun m hm v hv => ?_, h.pending⟩
  obtain ⟨hv, hsettled⟩ := h.done m hm v hv
  exact ⟨hv, hsettled.mono (List.Subset.refl _) fun hfull => ⟨hfull.content, hfull.children, hfull.distinct⟩⟩

/-- A node that is made already is not made again. -/
lemma value_known {deep : Bool} {v : Value} (hw : Whole root size) (hinv : Inv root filling s) (hn : n ∈ root.parts)
    (hd : s.done.lookup n.head.id = some v) :
    Yields (Clash root) (value src (fuel + 1) deep n s) (Made root size filling s n) := by
  refine Yields.of_eq (value_done (hw.sound n hn) hd) ⟨(hinv.done n hn v hd).1, hinv, .refl size s, ?_⟩
  rw [hd]
  rfl

lemma value_scalar {h : Head} {t : Text} {deep : Bool} (hw : Whole root size) (hinv : Inv root filling s)
    (hn : .scalar h t ∈ root.parts) (hnew : h.id ∉ s.active) :
    Yields (Clash root) (value src (fuel + 3) deep (.scalar h t) s) (Made root size filling s (.scalar h t)) := by
  have hsound := hw.sound _ hn
  cases hd : s.done.lookup h.id with
  | some v => exact value_known hw hinv hn hd
  | none =>
    rw [value_new hsound hd hnew hinv.texts]
    exact value_finish hw hn hnew rfl
      (Yields.of_eq (make_scalar hsound) ⟨rfl, hinv.setActive _, .refl _ _, trivial⟩)

lemma value_sequence {h : Head} {ns : List Node} (hw : Whole root size) (hinv : Inv root filling s)
    (hrule : src.rule = .names) (hn : .sequence h ns ∈ root.parts) (hnew : h.id ∉ s.active) :
    Yields (Clash root) (value src (fuel + 2) false (.sequence h ns) s) (Made root size filling s (.sequence h ns)) := by
  have hsound := hw.sound _ hn
  have htag : h.tag = Tag.sequence := hsound
  cases hd : s.done.lookup h.id with
  | some v => exact value_known hw hinv hn hd
  | none =>
    have hmake := make_sequence (h := h) (s := { s with active := h.id :: s.active }) fuel ns hrule
    rw [← htag] at hmake
    rw [value_new hsound hd hnew hinv.texts]
    refine Yields.of_eq ((bind_ok hmake).trans rfl) ⟨rfl, ?_, ⟨filter_active hnew, fun id hid => isSome_lookup_cons hid, ?_⟩, ?_⟩
    · exact (hinv.wait hn hd (.list [])).setDone hw hn (.inl (List.mem_append_right _ (List.mem_singleton_self _))) _
    · -- one more node waits, and one less is to be made
      have hlt : (unmade size { s with done := (h.id, .alias h.id) :: s.done, active := s.active }).card
          < (unmade size s).card := card_unmade_lt (hw.bounded _ hn) hd
      show (s.pending ++ [Node.sequence h ns]).length
        + (unmade size { s with done := (h.id, .alias h.id) :: s.done, active := s.active }).card ≤ left size s
      rw [List.length_append, List.length_singleton, left]
      omega
    · show (((h.id, Value.alias h.id) :: s.done).lookup h.id).isSome
      rw [lookup_cons_self]
      rfl

end Values

end DocPath.Yaml.Make
