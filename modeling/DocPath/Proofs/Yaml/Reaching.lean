import DocPath.Proofs.Yaml.Enclosed
import DocPath.Proofs.Yaml.Making

/-! What is known of the nodes whose values are made, in any document: collections that wait to be filled, aliases,
nodes inside themselves and merged mappings included. -/

namespace DocPath.Yaml.Make

/-- Whether nodes with a tag are collections. -/
def isCollectionTag (tag : Text) : Bool := isFilledTag .names tag || tag == Tag.mapping

lemma isCollectionTag_nil : isCollectionTag [] = false := by decide

lemma isFilledTag_cases {rule : KeyRule} {tag : Text} (h : isFilledTag rule tag = true) : tag = Tag.sequence ∨
    tag = Tag.set ∨ (tag = Tag.orderedMap ∨ tag = Tag.pairs) ∨ tag = Tag.mapping ∧ rule = .values := by
  have hcases : tag = Tag.sequence ∨ tag = Tag.set ∨ tag = Tag.orderedMap ∨ tag = Tag.pairs ∨
      rule = .values ∧ tag = Tag.mapping := by
    simpa [isFilledTag, or_assoc] using h
  tauto

lemma isCollectionTag_filled {rule : KeyRule} {tag : Text} (h : isFilledTag rule tag = true) :
    isCollectionTag tag = true := by
  rcases isFilledTag_cases h with h | h | (h | h) | ⟨h, -⟩ <;> rw [h] <;> decide

lemma not_isScalarTag_filled {rule : KeyRule} {tag : Text} (h : isFilledTag rule tag = true) :
    ¬isScalarTag tag = true := by
  rcases isFilledTag_cases h with h | h | (h | h) | ⟨h, -⟩ <;> rw [h] <;> decide

lemma ne_mapping_of_filled {tag : Text} (h : isFilledTag .names tag = true) : tag ≠ Tag.mapping := by
  rintro rfl
  exact absurd h (by decide)

/-- The keys and values of entries. -/
def sides (es : List (Node × Node)) : List Node := es.flatMap fun e => [e.1, e.2]

/-- The entries that a mapping certainly comes to have. If it merges itself, what it merges may have been changed
before, and only what that has been written with is sure to come in. -/
def certain (d : Document) (h : Head) (own : List (Node × Node)) : List (Node × Node) :=
  if Grounded d (.mapping h own) then flatOf d own
  else brought d.source (fun g => explicit d.source g.entries) own ++ explicit d.source own

/-- The nodes whose values make up that of a collection. A mapping also has what it merges, and lists of pairs
are made of the entries of mappings. -/
def within (d : Document) : Node → List Node
  | .sequence h items =>
    if h.tag = Tag.sequence then items
    else if h.tag = Tag.orderedMap ∨ h.tag = Tag.pairs then
      items.flatMap fun n => sides (explicit d.source (follow d.source n).entries)
    else []
  | .mapping h own => sides (certain d h own)
  | _ => []

/-- The names that the explicit keys among entries have by themselves. -/
def names (d : Document) (root : Node) (es : List (Node × Node)) : List Text :=
  (explicit d.source es).filterMap fun e => keyName? root (follow d.source e.1)

/-- The value of a node is made. -/
def IsDone (src : Source) (s : Making) (n : Node) : Prop := s.done.lookup (follow src n).head.id ≠ none

/-- A value is the one that is made of a node. -/
def Has (src : Source) (s : Making) (n : Node) (v : Value) : Prop := s.done.lookup (follow src n).head.id = some v

/-- A pair of values made of an entry. -/
structure Named (d : Document) (root : Node) (s : Making) (e : Node × Node) (p : Value × Value) : Prop where
  name : ∃ name, p.1 = .text name ∧ ∀ own, keyName? root (follow d.source e.1) = some own → name = own
  key : IsDone d.source s e.1
  value : Has d.source s e.2 p.2

/-- The content of a mapping is made of the entries `es`, which come from its own. -/
structure Mapped (d : Document) (root : Node) (s : Making) (h : Head) (own es : List (Node × Node))
    (ps : List (Value × Value)) : Prop where
  covers : Covers d.source own es
  plain : Plain d.source es
  flat : Grounded d (.mapping h own) → es = flatOf d own
  named : List.Forall₂ (Named d root s) es ps
  content : s.contents.lookup h.id = some (.map false (Value.entriesOf ps))
  distinct : (names d root own).Nodup

/-- What makes up a node is made, and the content of a sequence is known. -/
structure Stocked (d : Document) (s : Making) (n : Node) : Prop where
  within : ∀ c ∈ within d n, IsDone d.source s c
  items : ∀ h ns, n = .sequence h ns → h.tag = Tag.sequence →
    ∃ vs, s.contents.lookup h.id = some (.list vs) ∧ List.Forall₂ (Has d.source s) ns vs

/-- A node whose value is made: what makes it up is made, too, or it waits or is about to be filled. -/
structure Ready (d : Document) (root : Node) (filling : List Node) (s : Making) (n : Node) : Prop where
  filled : isFilledTag .names n.head.tag = true → n ∈ s.pending ∨ n ∈ filling ∨ Stocked d s n
  mapped : ∀ h own, n = .mapping h own → h.tag = Tag.mapping → ∃ es ps, Mapped d root s h own es ps

/-- A value that a node can have. -/
structure Stands (n : Node) (v : Value) : Prop where
  name : HasName n v
  link : isCollectionTag n.head.tag = true → v = .alias n.head.id
  scalar : ∀ h t, n = .scalar h t → isCollectionTag h.tag = false → scalarOf n (keyTag h) t = .ok v

/-- A node that may wait to be filled. -/
def CanWait (root n : Node) : Prop := n ∈ root.parts ∧ n.isSolid = true ∧ isFilledTag .names n.head.tag = true

/-- What holds between any two steps. -/
structure Invariant (d : Document) (root : Node) (filling : List Node) (s : Making) : Prop where
  consistent : Consistent d root s
  sourced : Sourced d root s
  covers : ∀ h own, .mapping h own ∈ root.parts → Covers d.source own (entriesNow s h own)
  clean : ∀ n, Clean d root s n
  done : ∀ n ∈ root.parts, n.isSolid = true → ∀ v, s.done.lookup n.head.id = some v →
    Stands n v ∧ Ready d root filling s n
  active : ∀ id ∈ s.active, s.done.lookup id = none
  pending : ∀ n ∈ s.pending, CanWait root n ∧ ¬Enclosed root n
  filling : ∀ n ∈ filling, CanWait root n ∧ ¬Enclosed root n
  size : s.size = d.size

/-- A step to a state with the invariant. No more than `slack` nodes are left to be made or filled in addition. -/
structure Goes (d : Document) (root : Node) (filling : List Node) (slack : Nat) (s s' : Making) : Prop where
  inv : Invariant d root filling s'
  active : s'.active = s.active
  done : ∀ id v, s.done.lookup id = some v → s'.done.lookup id = some v
  bounded : left d.size s' ≤ left d.size s + slack

section Steps

variable {d : Document} {root n : Node} {filling : List Node} {slack : Nat} {s s' s'' : Making}
  {h : Head} {own es : List (Node × Node)} {src : Source} {v : Value}

lemma IsDone.mono (h : IsDone src s n) (hdone : ∀ id v, s.done.lookup id = some v → s'.done.lookup id = some v) :
    IsDone src s' n := by
  obtain ⟨v, hv⟩ := Option.ne_none_iff_exists'.mp h
  rw [IsDone, hdone _ v hv]
  exact Option.some_ne_none v

lemma Has.isDone (h : Has src s n v) : IsDone src s n := Option.ne_none_iff_exists'.mpr ⟨v, h⟩

lemma Named.mono {e : Node × Node} {p : Value × Value} (h : Named d root s e p)
    (hdone : ∀ id v, s.done.lookup id = some v → s'.done.lookup id = some v) : Named d root s' e p :=
  ⟨h.name, h.key.mono hdone, hdone _ _ h.value⟩

/-- The content of a node is there to stay. -/
def Rests (filling : List Node) (s : Making) (n : Node) : Prop :=
  n.head.tag = Tag.mapping ∨ n ∉ s.pending ∧ n ∉ filling

lemma Ready.mono (h : Ready d root filling s n)
    (hdone : ∀ id v, s.done.lookup id = some v → s'.done.lookup id = some v) (hpending : n ∈ s.pending → n ∈ s'.pending)
    (hcontent : Rests filling s n → s'.contents.lookup n.head.id = s.contents.lookup n.head.id) :
    Ready d root filling s' n := by
  refine ⟨fun htag => ?_, fun g own hn htag => ?_⟩
  · by_cases hrests : n ∈ s.pending ∨ n ∈ filling
    · exact hrests.imp hpending .inl
    · have hstocked := or_iff_not_imp_left.mp (or_assoc.mpr (h.filled htag)) hrests
      refine .inr (.inr ⟨fun c hc => (hstocked.within c hc).mono hdone, fun g ns hn htag => ?_⟩)
      obtain ⟨vs, hvs, hall⟩ := hstocked.items g ns hn htag
      subst hn
      exact ⟨vs, (hcontent (.inr (not_or.mp hrests))).trans hvs, hall.imp fun _ _ hhas => hdone _ _ hhas⟩
  · obtain ⟨es, ps, hm⟩ := h.mapped g own hn htag
    subst hn
    exact ⟨es, ps, hm.covers, hm.plain, hm.flat, hm.named.imp fun _ _ hnamed => hnamed.mono hdone,
      (hcontent (.inl htag)).trans hm.content, hm.distinct⟩

lemma Goes.refl (hinv : Invariant d root filling s) : Goes d root filling 0 s s :=
  ⟨hinv, rfl, fun _ _ h => h, Nat.le_refl _⟩

lemma Goes.trans (h : Goes d root filling 0 s s') (h' : Goes d root filling slack s' s'') :
    Goes d root filling slack s s'' where
  inv := h'.inv
  active := h'.active.trans h.active
  done id v hv := h'.done id v (h.done id v hv)
  bounded := h'.bounded.trans (Nat.add_le_add_right h.bounded slack)

/-- A change of the entries only. -/
lemma Goes.rewritten (hinv : Invariant d root filling s) (hr : Rewritten d root [.mapping h own] s s')
    (hc : Consistent d root s') (hs : Sourced d root s') : Goes d root filling 0 s s' := by
  have hdone : s'.done = s.done := by rw [hr.rest]
  have hpending : s'.pending = s.pending := by rw [hr.rest]
  have hcontents : s'.contents = s.contents := by rw [hr.rest]
  have hact : s'.active = s.active := by rw [hr.rest]
  have hsize : s'.size = s.size := by rw [hr.rest]
  refine ⟨⟨hc, hs, fun g other hg => (hinv.covers g other hg).trans (hr.covers g other hg),
    fun n => (hinv.clean n).rewritten hr, fun m hm hsolid v hv => ?_, ?_, ?_, hinv.filling, hsize.trans hinv.size⟩, hact,
    fun id v hv => hdone ▸ hv, ?_⟩
  · rw [hdone] at hv
    obtain ⟨hstands, hready⟩ := hinv.done m hm hsolid v hv
    exact ⟨hstands, hready.mono (fun id v hv => hdone ▸ hv) (fun hp => hpending ▸ hp) fun _ => by rw [hcontents]⟩
  · rw [hact, hdone]
    exact hinv.active
  · rw [hpending]
    exact hinv.pending
  · rw [left, left, unmade, unmade, hdone, hpending]
    exact Nat.le_refl _

/-- A change that makes no node and rewrites no mapping. -/
lemma Goes.of_same (ns : List Node) (hinv : Invariant d root filling s) (hentries : s'.entries = s.entries)
    (hdone : s'.done = s.done) (hactive : s'.active = s.active) (hsize : s'.size = s.size)
    (hpending : s'.pending = s.pending ++ ns) (hns : ∀ n ∈ ns, CanWait root n ∧ ¬Enclosed root n) (hslack : ns.length ≤ slack)
    (hcontents : ∀ m ∈ root.parts, m.isSolid = true → s.done.lookup m.head.id ≠ none → Rests filling s m →
      s'.contents.lookup m.head.id = s.contents.lookup m.head.id) : Goes d root filling slack s s' := by
  have hnow (g : Head) (other : List (Node × Node)) : entriesNow s' g other = entriesNow s g other := by
    rw [entriesNow, entriesNow, hentries]
  refine ⟨⟨⟨?_, ?_, ?_, ?_⟩, hinv.sourced.of_entries hentries, ?_, ?_, fun m hm hsolid v hv => ?_, ?_, ?_, hinv.filling,
    hsize.trans hinv.size⟩, hactive, fun id v hv => hdone ▸ hv, ?_⟩
  · simpa only [hnow] using hinv.consistent.known
  · simpa only [hnow] using hinv.consistent.explicit
  · simpa only [hnow] using hinv.consistent.merging
  · simpa only [hentries] using hinv.consistent.plain
  · simpa only [hnow] using hinv.covers
  · simpa only [Clean, Resolved, hnow] using hinv.clean
  · rw [hdone] at hv
    obtain ⟨hstands, hready⟩ := hinv.done m hm hsolid v hv
    exact ⟨hstands, hready.mono (fun id v hv => hdone ▸ hv) (fun hp => hpending ▸ List.mem_append_left _ hp)
      (hcontents m hm hsolid (by rw [hv]; simp))⟩
  · rw [hactive, hdone]
    exact hinv.active
  · rw [hpending]
    exact List.forall_mem_append.mpr ⟨hinv.pending, hns⟩
  · rw [left, left, unmade, unmade, hdone, hpending, List.length_append]
    omega

/-- A number whose node is being made or filled. -/
def Free (filling : List Node) (s : Making) (id : Nat) : Prop := id ∈ s.active ∨ ∃ n ∈ filling, n.head.id = id

lemma Free.goes {id : Nat} (h : Free filling s id) (hgoes : Goes d root filling slack s s') : Free filling s' id :=
  h.imp_left fun hin => hgoes.active ▸ hin

lemma Free.not_rests {id : Nat} (h : Free filling s id) (hd : Numbered d root) (hinv : Invariant d root filling s)
    {m : Node} (hm : m ∈ root.parts) (hsolid : m.isSolid = true) (hid : m.head.id = id) (hmade : s.done.lookup id ≠ none) :
    ¬Rests filling s m := by
  rcases h with hactive | ⟨n, hn, he⟩
  · exact absurd (hinv.active id hactive) hmade
  · obtain ⟨⟨hpart, hsolid', htag⟩, -⟩ := hinv.filling n hn
    obtain rfl := hd.unique m hm hsolid n hpart hsolid' (hid.trans he.symm)
    rintro (hmapping | ⟨-, hout⟩)
    · exact ne_mapping_of_filled htag hmapping
    · exact hout hn

/-- What a number stands for may be set while its node is being made or filled. -/
lemma Goes.setContent {id : Nat} (v : Value) (hd : Numbered d root) (hinv : Invariant d root filling s)
    (hfree : Free filling s id) : Goes d root filling 0 s { s with contents := (id, v) :: s.contents } := by
  refine .of_same [] hinv rfl rfl rfl rfl (List.append_nil _).symm (by simp) (Nat.le_refl _) ?_
  intro m hm hsolid hmade hrests
  refine lookup_cons_of_ne ?_
  rintro rfl
  exact hfree.not_rests hd hinv hm hsolid rfl hmade hrests

lemma Goes.wait (hinv : Invariant d root filling s) (hn : CanWait root n) (hno : ¬Enclosed root n) :
    Goes d root filling 1 s { s with pending := s.pending ++ [n] } :=
  .of_same [n] hinv rfl rfl rfl rfl rfl (List.forall_mem_singleton.mpr ⟨hn, hno⟩) (Nat.le_refl _)
    fun _ _ _ _ _ => rfl

lemma Goes.newPart (id place : Nat) (hd : Numbered d root) (hinv : Invariant d root filling s) :
    Gives (newPart id place v s) fun _ s' => Goes d root filling 0 s s' := by
  refine .of_eq rfl ?_
  refine .of_same [] hinv rfl rfl rfl rfl (List.append_nil _).symm (by simp) (Nat.le_refl _) ?_
  intro m hm hsolid _ _
  refine lookup_cons_of_ne (Nat.ne_of_lt ?_)
  rw [hinv.size]
  exact Nat.lt_of_lt_of_le (hd.bounded m hm hsolid) (size_le_partId _ _ _)

end Steps

end DocPath.Yaml.Make
