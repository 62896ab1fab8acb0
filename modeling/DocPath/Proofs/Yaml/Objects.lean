import DocPath.Proofs.Value.Keys
import DocPath.Proofs.Yaml.Reached
import DocPath.Yaml.Reader
import Mathlib.Data.List.Forall2

/-! The collections of a document that is read. When nothing waits any more, all nodes that are reached from the root
are made, and the value of the document is its root with the contents of the collections put in. -/

namespace DocPath.Yaml

namespace Make

section Filling

variable {d : Document} {root n : Node} {s s' : Making} {rest : List Node} {fuel : Nat}

/-- The next node begins to be filled. -/
lemma Invariant.start (h : Invariant d root [] s) (hs : s.pending = n :: rest) :
    Invariant d root [n] { s with pending := rest } where
  consistent := ⟨h.consistent.known, h.consistent.explicit, h.consistent.merging, h.consistent.plain⟩
  sourced := h.sourced.of_entries rfl
  covers := h.covers
  clean := h.clean
  done m hm hsolid v hv := by
    obtain ⟨hstands, hready⟩ := h.done m hm hsolid v hv
    refine ⟨hstands, fun htag => ?_, fun g own heq htag => ?_⟩
    · rcases hready.filled htag with hp | hp | hp
      · rw [hs] at hp
        exact (List.mem_cons.mp hp).elim (fun he => .inr (.inl (he ▸ List.mem_singleton_self _))) .inl
      · exact absurd hp List.not_mem_nil
      · exact .inr (.inr ⟨hp.within, hp.items⟩)
    · obtain ⟨es, ps, hm⟩ := hready.mapped g own heq htag
      exact ⟨es, ps, hm.covers, hm.plain, hm.flat, hm.named.imp fun _ _ hp => ⟨hp.name, hp.key, hp.value⟩, hm.content,
        hm.distinct⟩
  active := h.active
  pending m hm := h.pending m (hs ▸ List.mem_cons_of_mem _ hm)
  filling := List.forall_mem_singleton.mpr (h.pending n (hs ▸ List.mem_cons_self))
  size := h.size

/-- The node that is about to be filled has been filled. -/
lemma Invariant.filled (h : Invariant d root [n] s) (hn : Stocked d s n) : Invariant d root [] s where
  consistent := h.consistent
  sourced := h.sourced
  covers := h.covers
  clean := h.clean
  done m hm hsolid v hv := by
    obtain ⟨hstands, hready⟩ := h.done m hm hsolid v hv
    refine ⟨hstands, fun htag => (hready.filled htag).imp_right fun hf => ?_, hready.mapped⟩
    rcases hf with hf | hf
    · obtain rfl := List.mem_singleton.mp hf
      exact .inr hn
    · exact .inr hf
  active := h.active
  pending := h.pending
  filling _ hm := absurd hm List.not_mem_nil
  size := h.size

/-- Filling comes to an end before the bound does. -/
lemma fillPending_goes {bound : Nat} (hd : Numbered d root) (hinv : Invariant d root [] s)
    (hbound : left d.size s ≤ bound) :
    Gives (fillPending d.source fuel bound s) fun _ s' =>
      Invariant d root [] s' ∧ s'.pending = [] ∧ ∀ id v, s.done.lookup id = some v → s'.done.lookup id = some v := by
  induction bound generalizing s with
  | zero =>
    have hpending : s.pending.length = 0 := by
      rw [left] at hbound
      omega
    exact .of_eq rfl ⟨hinv, List.length_eq_zero_iff.mp hpending, fun _ _ h => h⟩
  | succ bound ih =>
    rw [fillPending]
    refine .step (a := s) (t := s) rfl ?_
    cases hs : s.pending with
    | nil => exact .of_eq rfl ⟨hinv, hs, fun _ _ h => h⟩
    | cons n rest =>
      have hless : left d.size { s with pending := rest } + 1 = left d.size s := by
        rw [left, left, hs, List.length_cons]
        show rest.length + (unmade d.size s).card + 1 = _
        omega
      obtain ⟨hn, hno⟩ := hinv.pending n (hs ▸ List.mem_cons_self)
      refine .step (a := ()) rfl ((fill_goes hd (value_goes hd fuel false) hn (fun _ => hno)
        (.inr ⟨n, List.mem_singleton_self _, rfl⟩) (hinv.start hs)).bind ?_)
      rintro - s₁ ⟨hgoes, hdone⟩
      have hle := hgoes.bounded
      refine (ih (hgoes.inv.filled hdone) (by omega)).mono ?_
      rintro - s₂ ⟨hinv₂, hpending, hgrown⟩
      exact ⟨hinv₂, hpending, fun id v hv => hgrown id v (hgoes.done id v hv)⟩

/-- Everything that is reached from the root is made. -/
structure Finished (d : Document) (root : Node) (s : Making) : Prop where
  inv : Invariant d root [] s
  pending : s.pending = []
  root : IsDone d.source s root

lemma invariant_initial : Invariant d root [] ⟨[], [], [], [], [], [], d.size⟩ where
  consistent := ⟨fun h own hn e he => ⟨h, own, hn, he⟩, fun _ _ _ => List.filter_sublist, fun _ _ _ _ he _ => he,
    fun _ _ _ _ => rfl⟩
  sourced := ⟨fun _ _ _ _ he => comes_of_mem he, fun _ _ _ _ => rfl⟩
  covers _ _ _ := .refl
  clean _ _ _ _ _ _ := .inl rfl
  done _ _ _ _ h := by cases h
  active := by simp
  pending := by simp
  filling := by simp
  size := rfl

lemma left_le_of_goes (h : Goes d root [] 0 ⟨[], [], [], [], [], [], d.size⟩ s) : left d.size s ≤ d.size + 1 := by
  have hcard : (unmade d.size ⟨[], [], [], [], [], [], d.size⟩).card ≤ d.size :=
    (Finset.card_filter_le _ _).trans (Nat.le_of_eq (Finset.card_range d.size))
  refine h.bounded.trans ?_
  rw [left, List.length_nil]
  omega

lemma root_outside (hd : Numbered d root) : ¬Enclosed root (follow d.source root) :=
  not_enclosed_follow hd (Node.mem_parts_self root) not_enclosed_root

theorem making_goes (hd : Numbered d root) :
    Gives ((do
      let v ← Make.value d.source d.depth false root
      Make.fillPending d.source d.depth (d.size + 1)
      Make.current v : Make Value) ⟨[], [], [], [], [], [], d.size⟩) fun v s =>
      Finished d root s ∧ ∃ w, Has d.source s root w ∧ v = w.unfold s.contents := by
  refine (value_goes hd d.depth false root (Node.mem_parts_self root) (fun _ => root_outside hd) _ invariant_initial).bind ?_
  rintro w s₁ ⟨hgoes, hw, -⟩
  refine (fillPending_goes hd hgoes.inv (left_le_of_goes hgoes)).bind ?_
  rintro - s₂ ⟨hinv, hpending, hgrown⟩
  have hw₂ : Has d.source s₂ root w := hgrown _ _ hw
  exact .of_eq rfl ⟨⟨hinv, hpending, hw₂.isDone⟩, w, hw₂, rfl⟩

end Filling

/-- The nodes that the value of a document is made of. -/
inductive Reached (d : Document) (root : Node) : Node → Prop
  | root : Reached d root (follow d.source root)
  | within {n c : Node} (hn : Reached d root n) (htag : isCollectionTag n.head.tag = true)
      (hc : c ∈ within d n) : Reached d root (follow d.source c)

section Reaching

variable {d : Document} {root n c : Node} {s : Making} {h : Head} {own es : List (Node × Node)}

lemma isEntry_explicit (hn : n ∈ root.parts) : ∀ e ∈ explicit d.source n.entries, IsEntry root e :=
  fun _ he => isEntry_of_mem hn (mem_explicit.mp he).1

lemma sides_mem (hes : ∀ e ∈ es, IsEntry root e) (hc : c ∈ sides es) : c ∈ root.parts := by
  obtain ⟨e, he, rfl | rfl⟩ := mem_sides.mp hc
  · exact (hes e he).parts.1
  · exact (hes e he).parts.2

lemma isEntry_flatOf (hd : Numbered d root) (hn : n ∈ root.parts) : ∀ e ∈ flatOf d n.entries, IsEntry root e := by
  intro e he
  obtain ⟨m, hm, he⟩ := mem_flatEntries he
  exact isEntry_explicit (hm.mem hd hn).1 e he

lemma isEntry_certain (hd : Numbered d root) (hn : .mapping h own ∈ root.parts) : ∀ e ∈ certain d h own, IsEntry root e := by
  intro e he
  rw [certain] at he
  split_ifs at he
  · exact isEntry_flatOf hd hn e he
  · rcases List.mem_append.mp he with he | he
    · obtain ⟨x, hx, -, g, hg, he⟩ := mem_brought.mp he
      exact isEntry_explicit (listed_mem hd (IsEntry.parts ⟨h, own, hn, hx⟩).2 g hg) e he
    · exact isEntry_explicit hn e he

lemma within_mem (hd : Numbered d root) (hn : n ∈ root.parts) (hc : c ∈ within d n) : c ∈ root.parts := by
  cases n with
  | sequence h items =>
    rw [within] at hc
    split_ifs at hc
    · exact Node.parts_trans root hn hc
    · obtain ⟨m, hm, hc⟩ := List.mem_flatMap.mp hc
      exact sides_mem (isEntry_explicit (follow_mem hd (Node.parts_trans root hn hm))) hc
    · exact absurd hc List.not_mem_nil
  | mapping h own => exact sides_mem (isEntry_certain hd hn) hc
  | _ => exact absurd hc List.not_mem_nil

lemma Reached.mem_parts (hd : Numbered d root) (h : Reached d root n) : n ∈ root.parts := by
  induction h with
  | root => exact follow_mem hd (Node.mem_parts_self root)
  | within _ _ hc ih => exact follow_mem hd (within_mem hd ih hc)

lemma isSolid_of_collection (h : isCollectionTag n.head.tag = true) : n.isSolid = true := by
  cases n with
  | «alias» id =>
    rw [show (Node.alias id).head.tag = [] from rfl, isCollectionTag_nil] at h
    cases h
  | _ => rfl

lemma named_of_mem {ps : List (Value × Value)} {e : Node × Node} (hps : List.Forall₂ (Named d root s) es ps)
    (he : e ∈ es) : ∃ p, Named d root s e p :=
  (exists_of_forall₂ hps.flip he).imp fun _ hp => hp.2

lemma Mapped.within {ps : List (Value × Value)} (hm : Mapped d root s h own es ps)
    (hc : c ∈ Make.within d (.mapping h own)) : IsDone d.source s c := by
  obtain ⟨e, he, hc⟩ := mem_sides.mp (sides_mono (certain_subset hm.covers hm.plain hm.flat) hc)
  obtain ⟨p, hp⟩ := named_of_mem hm.named he
  rcases hc with rfl | rfl
  · exact hp.key
  · exact hp.value.isDone

/-- In the end all nodes that are reached are made. -/
theorem Finished.done (hd : Numbered d root) (hf : Finished d root s) (h : Reached d root n) :
    s.done.lookup n.head.id ≠ none := by
  induction h with
  | root => exact hf.root
  | @within n c hn htag hc ih =>
    obtain ⟨v, hv⟩ := Option.ne_none_iff_exists'.mp ih
    obtain ⟨-, hready⟩ := hf.inv.done n (hn.mem_parts hd) (isSolid_of_collection htag) v hv
    rw [isCollectionTag, Bool.or_eq_true] at htag
    rcases htag with htag | htag
    · rcases hready.filled htag with hp | hp | hall
      · rw [hf.pending] at hp
        exact absurd hp List.not_mem_nil
      · exact absurd hp List.not_mem_nil
      · exact hall.within c hc
    · have htag := beq_iff_eq.mp htag
      cases n with
      | mapping g other =>
        obtain ⟨es, ps, hm⟩ := hready.mapped g other rfl htag
        exact hm.within hc
      | sequence g items =>
        have hnone : Make.within d (.sequence g items) = [] := by
          have htag : g.tag = Tag.mapping := htag
          rw [Make.within, htag, if_neg (by decide), if_neg (by decide)]
        rw [hnone] at hc
        exact absurd hc List.not_mem_nil
      | _ => exact absurd hc List.not_mem_nil

/-- In the end the content of every mapping that is reached is known. -/
theorem Finished.mapped (hd : Numbered d root) (hf : Finished d root s) (h' : Reached d root (.mapping h own))
    (htag : h.tag = Tag.mapping) : ∃ es ps, Mapped d root s h own es ps := by
  obtain ⟨v, hv⟩ := Option.ne_none_iff_exists'.mp (hf.done hd h')
  exact (hf.inv.done _ (h'.mem_parts hd) rfl v hv).2.mapped h own rfl htag

/-- In the end the content of every sequence that is reached is known. -/
theorem Finished.items {ns : List Node} (hd : Numbered d root) (hf : Finished d root s)
    (h' : Reached d root (.sequence h ns)) (htag : h.tag = Tag.sequence) :
    ∃ vs, s.contents.lookup h.id = some (.list vs) ∧ List.Forall₂ (Has d.source s) ns vs := by
  obtain ⟨v, hv⟩ := Option.ne_none_iff_exists'.mp (hf.done hd h')
  have hfilled : isFilledTag .names (Node.sequence h ns).head.tag = true := by
    rw [show (Node.sequence h ns).head.tag = Tag.sequence from htag]
    decide
  rcases (hf.inv.done _ (h'.mem_parts hd) rfl v hv).2.filled hfilled with hp | hp | hstocked
  · rw [hf.pending] at hp
    exact absurd hp List.not_mem_nil
  · exact absurd hp List.not_mem_nil
  · exact hstocked.items h ns rfl htag

theorem Finished.link (hd : Numbered d root) (hf : Finished d root s) (h' : Reached d root n)
    (htag : isCollectionTag n.head.tag = true) : s.done.lookup n.head.id = some (.alias n.head.id) := by
  obtain ⟨v, hv⟩ := Option.ne_none_iff_exists'.mp (hf.done hd h')
  rw [hv, (hf.inv.done _ (h'.mem_parts hd) (isSolid_of_collection htag) v hv).1.link htag]

end Reaching

/-- The value of the last entry with a name. -/
def lastNamed (d : Document) (root : Node) (name : Text) : List (Node × Node) → Option Node
  | [] => none
  | e :: es => (lastNamed d root name es).or
      (if keyName? root (follow d.source e.1) = some name then some e.2 else none)

/-- What a mapping merges, in the order in which it is looked for: a later merge key comes before an earlier one, and
of what a key lists, what is listed first. -/
def sources (src : Source) (own : List (Node × Node)) : List Node :=
  (own.filter (merges src)).reverse.flatMap fun e => listed src e.2

/-- The node that gives the value of a mapping at a name: it is written there, or else the first of the mappings that
are merged provides it, down to some depth. -/
def provided (d : Document) (root : Node) (name : Text) : Nat → List (Node × Node) → Option Node
  | 0, own => lastNamed d root name (explicit d.source own)
  | k + 1, own => (lastNamed d root name (explicit d.source own)).or
      ((sources d.source own).findSome? fun g => provided d root name k g.entries)

section Names

variable {src : Source} {d : Document} {root : Node} {s : Making} {own es es' : List (Node × Node)} {name : Text}
  {ns : List Node} {ps acc : List (Value × Value)}

lemma lastNamed_append : lastNamed d root name (es ++ es') = (lastNamed d root name es').or (lastNamed d root name es) := by
  induction es with
  | nil => simp [lastNamed]
  | cons e es ih => rw [List.cons_append, lastNamed, ih, lastNamed, Option.or_assoc]

lemma lastNamed_flatMap {f : Node → List (Node × Node)} :
    lastNamed d root name (ns.flatMap f) = ns.reverse.findSome? fun g => lastNamed d root name (f g) := by
  induction ns with
  | nil => rfl
  | cons n ns ih =>
    rw [List.flatMap_cons, lastNamed_append, ih, List.reverse_cons, List.findSome?_append, List.findSome?_singleton]

lemma brought_eq {f : Node → List (Node × Node)} : brought src f own = (sources src own).reverse.flatMap f := by
  rw [brought, sources, List.reverse_flatMap, List.reverse_reverse, List.flatMap_assoc]
  rfl

/-- Flat entries give a mapping what it is to have. -/
theorem lastNamed_flatEntries {k : Nat} : lastNamed d root name (flatEntries d.source k own) = provided d root name k own := by
  induction k generalizing own with
  | zero => rfl
  | succ k ih =>
    rw [flatEntries, lastNamed_append, brought_eq, lastNamed_flatMap, List.reverse_reverse, provided]
    simp only [ih]

lemma lastNamed_mem {n : Node} (h : lastNamed d root name es = some n) : ∃ e ∈ es, e.2 = n := by
  induction es with
  | nil => cases h
  | cons e es ih =>
    rw [lastNamed, Option.or_eq_some_iff] at h
    rcases h with h | ⟨-, h⟩
    · obtain ⟨x, hx, hn⟩ := ih h
      exact ⟨x, List.mem_cons_of_mem _ hx, hn⟩
    · split_ifs at h
      exact ⟨e, List.mem_cons_self, Option.some.inj h⟩

/-- What values made of entries are put into a mapping: at each name that of the last entry counts. -/
lemma entryAt_foldl (hps : List.Forall₂ (Named d root s) es ps) (hkeys : ∀ e ∈ es, keyName? root (follow d.source e.1) ≠ none)
    (hacc : Value.HasTexts acc) :
    Value.entryAt (ps.foldl (fun es p => Value.insertEntry es p.1 p.2) acc) name =
      ((lastNamed d root name es).bind fun n => s.done.lookup (follow d.source n).head.id).or (Value.entryAt acc name) := by
  induction hps generalizing acc with
  | nil => simp [lastNamed]
  | @cons e p es ps hp hps ih =>
    obtain ⟨k, v⟩ := p
    obtain ⟨t, rfl, ht⟩ := hp.name
    obtain ⟨own, hown⟩ := Option.ne_none_iff_exists'.mp (hkeys e List.mem_cons_self)
    obtain rfl := ht own hown
    rw [List.foldl_cons, ih (fun e he => hkeys e (List.mem_cons_of_mem _ he)) (Value.hasTexts_insertEntry hacc),
      Value.entryAt_insertEntry hacc, lastNamed, hown]
    cases hlast : lastNamed d root name es with
    | none =>
      by_cases hname : t = name
      · have hv : s.done.lookup (follow d.source e.2).head.id = some v := hp.value
        rw [if_pos hname, if_pos (congrArg some hname)]
        show _ = (s.done.lookup (follow d.source e.2).head.id).or _
        rw [hv]
        rfl
      · rw [if_neg hname, if_neg fun h => hname (Option.some.inj h)]
        rfl
    | some n =>
      obtain ⟨x, hx, rfl⟩ := lastNamed_mem hlast
      obtain ⟨q, hq⟩ := named_of_mem hps hx
      have hv : s.done.lookup (follow d.source x.2).head.id = some q.2 := hq.value
      show (s.done.lookup (follow d.source x.2).head.id).or _ = (s.done.lookup (follow d.source x.2).head.id).or _
      rw [hv]
      rfl

lemma Reached.provided {h : Head} {n : Node} (hd : Numbered d root) (hfair : Fair d root)
    (h' : Reached d root (.mapping h own)) (htag : h.tag = Tag.mapping)
    (hn : Make.provided d root name d.size own = some n) : Reached d root (follow d.source n) := by
  refine .within h' (by rw [show (Node.mapping h own).head.tag = Tag.mapping from htag]; decide) ?_
  rw [← lastNamed_flatEntries] at hn
  obtain ⟨e, he, rfl⟩ := lastNamed_mem hn
  rw [Make.within, certain, if_pos (hfair.grounded _ (h'.mem_parts hd))]
  exact mem_sides.mpr ⟨e, he, .inr rfl⟩

/-- The content of a mapping in a fair document. -/
theorem Finished.content {h : Head} (hd : Numbered d root) (hf : Finished d root s) (hfair : Fair d root)
    (h' : Reached d root (.mapping h own)) (htag : h.tag = Tag.mapping) :
    ∃ es, s.contents.lookup h.id = some (.map false es) ∧ ∀ name, Value.entryAt es name =
      (provided d root name d.size own).bind fun n => s.done.lookup (follow d.source n).head.id := by
  obtain ⟨es, ps, hm⟩ := hf.mapped hd h' htag
  have hpart := h'.mem_parts hd
  refine ⟨_, hm.content, fun name => ?_⟩
  obtain rfl := hm.flat (hfair.grounded _ hpart)
  rw [Value.entriesOf, entryAt_foldl hm.named (hfair.named_flat hd hpart htag) (by simp [Value.HasTexts]), flatOf,
    lastNamed_flatEntries]
  simp [Value.entryAt]

end Names

end Make

namespace Document

open Make

variable {d : Document} {root : Node} {v : Value}

/-- A document has the value `v` with the given values of its nodes and contents of its collections, where the value of
a mapping at a name is that of the node which provides it. -/
structure IsMade (d : Document) (root : Node) (values contents : List (Nat × Value)) (v : Value) : Prop where
  whole : ∃ w, values.lookup (follow d.source root).head.id = some w ∧ v = (w.unfold contents).pruned
  made : ∀ n, Reached d root n → values.lookup n.head.id ≠ none
  scalar : ∀ h t w, Reached d root (.scalar h t) → isCollectionTag h.tag = false → values.lookup h.id = some w →
    scalarOf (.scalar h t) (keyTag h) t = .ok w
  collection : ∀ n, Reached d root n → isCollectionTag n.head.tag = true →
    values.lookup n.head.id = some (.alias n.head.id)
  mapping : ∀ h own, Reached d root (.mapping h own) → h.tag = Tag.mapping →
    ∃ es, contents.lookup h.id = some (.map false es) ∧ ∀ name, Value.entryAt es name =
      (provided d root name d.size own).bind fun n => values.lookup (follow d.source n).head.id
  sequence : ∀ h ns, Reached d root (.sequence h ns) → h.tag = Tag.sequence → ∃ vs, contents.lookup h.id = some (.list vs) ∧
    List.Forall₂ (fun n v => values.lookup (follow d.source n).head.id = some v) ns vs
  reached : ∀ h own name n, Reached d root (.mapping h own) → h.tag = Tag.mapping →
    provided d root name d.size own = some n → Reached d root (follow d.source n)

lemma value_run (hroot : d.root = some root) : d.value .names = (Except.map (fun p => p.1.pruned) ((do
    let v ← Make.value d.source d.depth false root
    Make.fillPending d.source d.depth (d.size + 1)
    Make.current v : Make Value) ⟨[], [], [], [], [], [], d.size⟩)) := by
  rw [Document.value.eq_def, hroot]
  rfl

/-- A document that has a value is made completely. -/
theorem finished_of_value (hd : Numbered d root) (hroot : d.root = some root) (h : d.value .names = .ok v) :
    ∃ s w, Finished d root s ∧ Has d.source s root w ∧ v = (w.unfold s.contents).pruned := by
  rw [value_run hroot] at h
  obtain ⟨⟨u, s⟩, hrun, rfl⟩ := map_eq_ok h
  obtain ⟨hfinished, w, hw, rfl⟩ := (making_goes hd).of_ok hrun
  exact ⟨s, w, hfinished, hw, rfl⟩

theorem isMade_of_value (hd : Numbered d root) (hroot : d.root = some root) (hfair : Fair d root)
    (h : d.value .names = .ok v) : ∃ values contents, IsMade d root values contents v := by
  obtain ⟨s, w, hf, hw, rfl⟩ := finished_of_value hd hroot h
  exact ⟨s.done, s.contents, {
    whole := ⟨w, hw, rfl⟩
    made := fun n hn => hf.done hd hn
    scalar := fun h t w hn htag hlookup =>
      (hf.inv.done _ (hn.mem_parts hd) rfl w hlookup).1.scalar h t rfl htag
    collection := fun n hn htag => hf.link hd hn htag
    mapping := fun h own hn htag => hf.content hd hfair hn htag
    sequence := fun h ns hn htag => hf.items hd hn htag
    reached := fun h own name n hn htag hprovided => hn.provided hd hfair htag hprovided }⟩

end Document

lemma numbered_of_compose {t : Text} {d : Document} {root : Node} (h : compose t = .ok d) (hroot : d.root = some root) :
    Numbered d root := by
  rw [compose] at h
  split at h
  · cases h
  · exact Document.numbered_of_tokens h hroot

lemma length_parts_le_of_compose {t : Text} {d : Document} {root : Node} (h : compose t = .ok d)
    (hroot : d.root = some root) : root.parts.length ≤ d.size := by
  rw [compose] at h
  split at h
  · cases h
  · exact Document.length_parts_le h hroot

lemma closed_of_compose {t : Text} {d : Document} {root : Node} (h : compose t = .ok d) (hroot : d.root = some root) :
    Closed d root := by
  rw [compose] at h
  split at h
  · cases h
  · exact Document.closed_of_tokens h hroot

end DocPath.Yaml
