import DocPath.Proofs.Yaml.Complete

/-! Documents that contain themselves. What the content of a collection leads to is made of nodes that lie in the
collection. A mapping with names as keys is complete before anything leads to it, so a value that contains itself does so
through a sequence. -/

namespace DocPath.Yaml.Make

open Relation
open Value (Refers Leads)

/-- A node lies in another: it is an item of a sequence, a side of an entry in a list of pairs, or a value that comes to a
mapping. -/
inductive Inside (d : Document) : Node → Node → Prop
  | item {h : Head} {items : List Node} {n : Node} (tag : h.tag = Tag.sequence) (mem : n ∈ items) :
      Inside d (.sequence h items) (follow d.source n)
  | pair {h : Head} {items : List Node} {n m : Node} {e : Node × Node} (tag : h.tag = Tag.orderedMap ∨ h.tag = Tag.pairs)
      (mem : n ∈ items) (comes : Comes d (follow d.source n) e)
      (side : m = follow d.source e.1 ∨ m = follow d.source e.2) : Inside d (.sequence h items) m
  | entry {h : Head} {own : List (Node × Node)} {e : Node × Node} (tag : h.tag = Tag.mapping)
      (comes : Comes d (.mapping h own) e) : Inside d (.mapping h own) (follow d.source e.2)

/-- A collection that is made. -/
structure Present (root : Node) (s : Making) (n : Node) : Prop where
  mem : n ∈ root.parts
  solid : n.isSolid = true
  collection : isCollectionTag n.head.tag = true
  done : s.done.lookup n.head.id ≠ none

/-- The numbers that a collection owns: its own and, of a list of pairs, those of the pairs. -/
inductive Owns (d : Document) : Node → Nat → Prop
  | self {n : Node} : Owns d n n.head.id
  | part {h : Head} {items : List Node} {p : Node × Nat} (tag : h.tag = Tag.orderedMap ∨ h.tag = Tag.pairs)
      (mem : p ∈ items.zipIdx) : Owns d (.sequence h items) (partId d.size h.id p.2)

/-- The value of a node lies in that of another. That of a mapping leads there at once. -/
structure Contains (d : Document) (root : Node) (s : Making) (n m : Node) : Prop where
  inside : Inside d n m
  present : Present root s m
  direct : n.head.tag = Tag.mapping → Leads s.contents n.head.id m.head.id

section Leading

variable {d : Document} {root n m : Node} {rule : KeyRule} {s : Making} {l l' k : Nat} {v : Value} {h : Head} {items : List Node}

lemma Owns.mod (ho : Owns d n l) (hid : n.head.id < d.size) : l % d.size = n.head.id := by
  cases ho with
  | self => exact Nat.mod_eq_of_lt hid
  | part => exact partId_mod _ hid

lemma Owns.unique (hd : Numbered d root) (hn : Present root s n) (hm : Present root s m) (ho : Owns d n l)
    (ho' : Owns d m l) : n = m := by
  refine hd.unique n hn.mem hn.solid m hm.mem hm.solid ?_
  rw [← ho.mod (hd.bounded n hn.mem hn.solid), ho'.mod (hd.bounded m hm.mem hm.solid)]

lemma Filled.listed (hf : Filled d rule s (.sequence h items)) (htag : h.tag = Tag.orderedMap ∨ h.tag = Tag.pairs) :
    ∀ p ∈ items.zipIdx, Listed d s h.id p.2 p.1 := by
  cases hf with
  | sequence tag =>
    rw [tag] at htag
    exact absurd htag (by decide)
  | pairs _ made => exact made
  | blank _ tag =>
    rw [show h.tag = Tag.mapping from tag] at htag
    exact absurd htag (by decide)

variable (hd : Numbered d root) (hclosed : Closed d root) (hs : Complete d root rule s)

include hd hclosed hs

lemma Complete.present (hn : n ∈ root.parts) (hv : Has d.source s n v) (h : Refers l v) :
    Present root s (follow d.source n) ∧ l = (follow d.source n).head.id := by
  obtain ⟨htag, rfl⟩ := (hs.isValueOf hd hclosed hn hv).refers h
  exact ⟨⟨follow_mem hd hn, hclosed n hn, htag, hv.isDone⟩, rfl⟩

/-- The content of a collection leads to its pairs or to what lies in it. -/
lemma Complete.self_leads (hn : Present root s n) (h : Leads s.contents n.head.id l) :
    Owns d n l ∧ d.size ≤ l ∨ ∃ m, Inside d n m ∧ Present root s m ∧ l = m.head.id := by
  obtain ⟨c, hc, hrefers⟩ := h
  cases hs.filled hn.mem hn.solid hn.done hn.collection with
  | @sequence g items xs tag made content =>
    obtain rfl := Option.some.inj (hc.symm.trans content)
    obtain ⟨x, hx, hrefers⟩ := Value.refers_list.mp hrefers
    obtain ⟨item, hitem, hhas⟩ := exists_of_forall₂ made hx
    obtain ⟨hpresent, rfl⟩ := hs.present hd hclosed (Node.parts_trans root hn.mem hitem) hhas hrefers
    exact .inr ⟨_, .item tag hitem, hpresent, rfl⟩
  | @pairs g items tag made content =>
    obtain rfl := Option.some.inj (hc.symm.trans content)
    obtain ⟨x, hx, hrefers⟩ := Value.refers_list.mp hrefers
    obtain ⟨p, hp, rfl⟩ := List.mem_map.mp hx
    obtain rfl := Value.refers_link.mp hrefers
    exact .inl ⟨.part tag hp, size_le_partId _ _ _⟩
  | @set g own es ps tag gathered made content =>
    obtain rfl := Option.some.inj (hc.symm.trans content)
    obtain ⟨x, hx, hrefers⟩ := Value.refers_elementsOf hrefers
    obtain ⟨p, hp, rfl⟩ := List.mem_map.mp (List.mem_eraseDups.mp hx)
    obtain ⟨e, he, hvalue⟩ := exists_of_forall₂ made hp
    have hentry := gathered.isEntry hd hn.mem e he
    have hpaired : Paired d .values s e p := hvalue
    have hno := (hs.present hd hclosed hentry.parts.1 hvalue.key hrefers).1.collection
    rw [hvalue.scalar] at hno
    cases hno
  | @mapping g own es ps tag gathered made content =>
    obtain rfl := Option.some.inj (hc.symm.trans content)
    have hentries := gathered.isEntry hd hn.mem
    obtain ⟨e, he, htag, rfl, hdone⟩ := refers_paired hd hclosed hs.loading hentries made hrefers
    have hpart := (hentries e he).parts.2
    exact .inr ⟨_, .entry tag (gathered.comes e he), ⟨follow_mem hd hpart, hclosed _ hpart, htag, hdone⟩, rfl⟩
  | blank names tag empty content =>
    obtain rfl := Option.some.inj (hc.symm.trans content)
    simp at hrefers

/-- A pair leads to what lies in the list of pairs. -/
lemma Complete.part_leads {p : Node × Nat} (hn : Present root s (.sequence h items))
    (htag : h.tag = Tag.orderedMap ∨ h.tag = Tag.pairs) (hp : p ∈ items.zipIdx)
    (hl : Leads s.contents (partId d.size h.id p.2) l) :
    ∃ m, Inside d (.sequence h items) m ∧ Present root s m ∧ l = m.head.id := by
  have hlisted := (hs.filled hn.mem hn.solid hn.done hn.collection).listed htag p hp
  obtain ⟨g, own, e, x, y, hfollow, hgathered, hx, hy, hpart⟩ := hlisted.made
  obtain ⟨c, hc, hrefers⟩ := hl
  obtain rfl := Option.some.inj (hc.symm.trans hpart)
  have hitem : p.1 ∈ items := List.fst_mem_of_mem_zipIdx hp
  have hmapping : .mapping g own ∈ root.parts := hfollow ▸ follow_mem hd (Node.parts_trans root hn.mem hitem)
  have hentry := hgathered.isEntry hd hmapping e (List.mem_singleton_self e)
  have hcomes : Comes d (follow d.source p.1) e := hfollow ▸ hgathered.comes e (List.mem_singleton_self e)
  simp only [Value.refers_tuple, List.mem_cons, List.not_mem_nil, or_false, exists_eq_or_imp, exists_eq_left] at hrefers
  rcases hrefers with hrefers | hrefers
  · obtain ⟨hpresent, rfl⟩ := hs.present hd hclosed hentry.parts.1 hx hrefers
    exact ⟨_, .pair htag hitem hcomes (.inl rfl), hpresent, rfl⟩
  · obtain ⟨hpresent, rfl⟩ := hs.present hd hclosed hentry.parts.2 hy hrefers
    exact ⟨_, .pair htag hitem hcomes (.inr rfl), hpresent, rfl⟩

lemma Complete.leads (hn : Present root s n) (ho : Owns d n l) (hl : Leads s.contents l l') :
    Owns d n l' ∧ l = n.head.id ∧ d.size ≤ l' ∨ ∃ m, Contains d root s n m ∧ l' = m.head.id := by
  cases ho with
  | self =>
    refine (hs.self_leads hd hclosed hn hl).imp (fun ⟨ho, hsize⟩ => ⟨ho, rfl, hsize⟩) ?_
    rintro ⟨m, hinside, hpresent, rfl⟩
    exact ⟨m, ⟨hinside, hpresent, fun _ => hl⟩, rfl⟩
  | @part g items p tag mem =>
    obtain ⟨m, hinside, hpresent, rfl⟩ := hs.part_leads hd hclosed hn tag mem hl
    refine .inr ⟨m, ⟨hinside, hpresent, fun htag => ?_⟩, rfl⟩
    rw [show g.tag = Tag.mapping from htag] at tag
    exact absurd tag (by decide)

/-- Several steps lead along what contains what. -/
lemma Complete.path (hn : Present root s n) (ho : Owns d n l) (hl : TransGen (Leads s.contents) l l') :
    (∃ m, TransGen (Contains d root s) n m ∧ Present root s m ∧ Owns d m l') ∨
      Owns d n l' ∧ l = n.head.id ∧ d.size ≤ l' := by
  induction hl with
  | single hl =>
    rcases hs.leads hd hclosed hn ho hl with hown | ⟨m, hm, rfl⟩
    · exact .inr hown
    · exact .inl ⟨m, .single hm, hm.present, .self⟩
  | tail _ hl ih =>
    rcases ih with ⟨m, hpath, hm, ho'⟩ | ⟨ho', -, hsize⟩
    · rcases hs.leads hd hclosed hm ho' hl with ⟨hown, -⟩ | ⟨g, hg, rfl⟩
      · exact .inl ⟨m, hpath, hm, hown⟩
      · exact .inl ⟨g, hpath.tail hg, hg.present, .self⟩
    · rcases hs.leads hd hclosed hn ho' hl with ⟨-, rfl, -⟩ | ⟨g, hg, rfl⟩
      · exact absurd (hd.bounded n hn.mem hn.solid) (Nat.not_lt.mpr hsize)
      · exact .inl ⟨g, .single hg, hg.present, .self⟩

lemma Complete.cycle (hn : Present root s n) (ho : Owns d n l) (hl : TransGen (Leads s.contents) l l) :
    TransGen (Contains d root s) n n := by
  rcases hs.path hd hclosed hn ho hl with ⟨m, hpath, hm, ho'⟩ | ⟨-, rfl, hsize⟩
  · obtain rfl := ho.unique hd hn hm ho'
    exact hpath
  · exact absurd (hd.bounded n hn.mem hn.solid) (Nat.not_lt.mpr hsize)

lemma Complete.owned (hn : Present root s n) (ho : Owns d n k) (hl : ReflTransGen (Leads s.contents) k l) :
    ∃ m, Present root s m ∧ Owns d m l := by
  rcases reflTransGen_iff_eq_or_transGen.mp hl with rfl | hl
  · exact ⟨n, hn, ho⟩
  · rcases hs.path hd hclosed hn ho hl with ⟨m, -, hm⟩ | ⟨ho', -⟩
    · exact ⟨m, hm⟩
    · exact ⟨n, hn, ho'⟩

omit hd hclosed in
lemma Complete.known (hn : Present root s n) (ho : Owns d n l) : s.contents.lookup l ≠ none := by
  have hf := hs.filled hn.mem hn.solid hn.done hn.collection
  cases ho with
  | self =>
    obtain ⟨c, hc⟩ := hf.content
    rw [hc]
    simp
  | part tag mem =>
    obtain ⟨g, own, e, x, y, -, -, -, -, hpart⟩ := (hf.listed tag _ mem).made
    rw [hpart]
    simp

lemma Complete.knows {w : Value} (hw : Has d.source s root w) (hk : Refers k w) (hl : ReflTransGen (Leads s.contents) k l) :
    s.contents.lookup l ≠ none := by
  obtain ⟨hpresent, rfl⟩ := hs.present hd hclosed (Node.mem_parts_self root) hw hk
  obtain ⟨m, hm, ho⟩ := hs.owned hd hclosed hpresent .self hl
  exact hs.known hm ho

lemma Complete.contains_of_cyclic {w : Value} (hw : Has d.source s root w)
    (hcyclic : (w.unfold s.contents).isCyclic = true) : ∃ n, Present root s n ∧ TransGen (Contains d root s) n n := by
  obtain ⟨k, l, hk, hl, hcycle⟩ := (Value.isCyclic_unfold fun _ _ => hs.knows hd hclosed hw).mp hcyclic
  obtain ⟨hpresent, rfl⟩ := hs.present hd hclosed (Node.mem_parts_self root) hw hk
  obtain ⟨m, hm, ho⟩ := hs.owned hd hclosed hpresent .self hl
  exact ⟨m, hm, hs.cycle hd hclosed hm ho hcycle⟩

end Leading

/-- Among what contains itself there is a sequence, since mappings are complete before anything leads to them. -/
lemma Founded.sequence_of_cycle {d : Document} {root n : Node} {s : Making} (hf : Founded root s n) (hn : n ∈ root.parts)
    (hcycle : TransGen (Contains d root s) n n) :
    ∃ m ∈ root.parts, m.kind = .sequence ∧ TransGen (Inside d) m m := by
  induction hf with
  | @intro n _ _ ih =>
    obtain ⟨m, hm, hback⟩ := TransGen.head'_iff.mp hcycle
    cases hkind : n.kind with
    | sequence => exact ⟨n, hn, hkind, hcycle.lift id fun _ _ h => h.inside⟩
    | _ =>
      have htag : n.head.tag = Tag.mapping := by
        cases hm.inside with
        | item => cases hkind
        | pair => cases hkind
        | entry tag => exact tag
      obtain ⟨c, hc, hrefers⟩ := hm.direct htag
      exact ih htag c hc m hm.present.mem hm.present.solid hrefers hm.present.mem (.tail' hback hm)

/-- If keys are names, a document whose value contains itself has a sequence that lies in itself. -/
theorem Complete.sequence_of_cyclic {d : Document} {root : Node} {s : Making} {w : Value} (hd : Numbered d root)
    (hclosed : Closed d root) (hs : Complete d root .names s) (hw : Has d.source s root w)
    (hcyclic : (w.unfold s.contents).isCyclic = true) :
    ∃ n ∈ root.parts, n.kind = .sequence ∧ TransGen (Inside d) n n := by
  obtain ⟨n, hn, hcycle⟩ := hs.contains_of_cyclic hd hclosed hw hcyclic
  obtain ⟨v, hv⟩ := Option.ne_none_iff_exists'.mp hn.done
  exact ((hs.loading.done n hn.mem hn.solid v hv).founded rfl).sequence_of_cycle hn.mem hcycle

end DocPath.Yaml.Make
