import DocPath.Proofs.Value.Unfold
import DocPath.Proofs.Yaml.Cycles

/-! The two rules for keys compared, for documents without merge keys. What is made of a node does not depend on the rule
as far as keys are texts, so a document that has a value with texts as keys by the one rule has the same value by the
other. -/

namespace DocPath.Yaml

open Relation

namespace Make

open Value (Refers Leads Carries Bears)

section Everything

variable {d : Document} {root n c : Node} {rule : KeyRule} {s : Making} {h : Head} {items : List Node}
  {own : List (Node × Node)} {e : Node × Node} {p : Value × Value} {v w : Value}

lemma Paired.has_key (hp : Paired d rule s e p) : ∃ k, Has d.source s e.1 k := by
  cases rule with
  | names =>
    obtain ⟨⟨k, -, hk, -⟩, -⟩ := hp
    exact ⟨k, hk⟩
  | values => exact ⟨p.1, hp.key⟩

lemma Filled.sequence_items (hf : Filled d rule s (.sequence h items)) (htag : h.tag = Tag.sequence) :
    ∃ xs, List.Forall₂ (Has d.source s) items xs ∧ s.contents.lookup h.id = some (.list xs) := by
  cases hf with
  | sequence _ made content => exact ⟨_, made, content⟩
  | pairs tag =>
    rw [htag] at tag
    exact absurd tag (by decide)
  | blank _ tag =>
    have tag : h.tag = Tag.mapping := tag
    rw [htag] at tag
    exact absurd tag (by decide)

lemma Filled.list_pairs (hf : Filled d rule s (.sequence h items)) (htag : h.tag = Tag.orderedMap ∨ h.tag = Tag.pairs) :
    s.contents.lookup h.id = some (pairList d.size h.id items) := by
  cases hf with
  | sequence tag =>
    rw [tag] at htag
    exact absurd htag (by decide)
  | pairs _ _ content => exact content
  | blank _ tag =>
    have tag : h.tag = Tag.mapping := tag
    rw [tag] at htag
    exact absurd htag (by decide)

lemma Filled.set_elements (hf : Filled d rule s (.mapping h own)) (htag : h.tag = Tag.set) (hplain : Plain d.source own) :
    ∃ ps, List.Forall₂ (ByValue d s) own ps ∧
      s.contents.lookup h.id = some (.set false (Value.elementsOf (ps.map (·.1)).eraseDups)) := by
  cases hf with
  | set _ gathered made content =>
    obtain rfl := gathered.own hplain
    exact ⟨_, made, content⟩
  | mapping tag =>
    rw [htag] at tag
    exact absurd tag (by decide)
  | blank _ _ empty => cases empty

lemma Filled.mapping_entries (hf : Filled d rule s (.mapping h own)) (htag : h.tag = Tag.mapping)
    (hplain : Plain d.source own) : ∃ ps, List.Forall₂ (Paired d rule s) own ps ∧
      s.contents.lookup h.id = some (.map false (Value.entriesOf ps)) := by
  cases hf with
  | set tag =>
    rw [htag] at tag
    exact absurd tag (by decide)
  | mapping _ gathered made content =>
    obtain rfl := gathered.own hplain
    exact ⟨_, made, content⟩
  | blank _ _ empty => cases empty

lemma Listed.single {id place : Nat} (hl : Listed d s id place n) (hclear : Clear d root)
    (hn : follow d.source n ∈ root.parts) : ∃ g e k x, follow d.source n = .mapping g [e] ∧ Has d.source s e.1 k ∧
      Has d.source s e.2 x ∧ s.contents.lookup (partId d.size id place) = some (.tuple [k, x]) := by
  obtain ⟨g, own, e, k, x, hfollow, hgathered, hk, hx, hpart⟩ := hl.made
  rw [hfollow] at hn
  have hown : [e] = own := hgathered.own (hclear.unmerged _ hn)
  exact ⟨g, e, k, x, hown ▸ hfollow, hk, hx, hpart⟩

lemma exists_place {m : Node} (hm : m ∈ items) : ∃ place, (m, place) ∈ items.zipIdx := by
  obtain ⟨place, hplace⟩ := List.mem_iff_getElem?.mp hm
  exact ⟨place, List.mk_mem_zipIdx_iff_getElem?.mpr hplace⟩

/-- What lies within a list of pairs is in one of its parts. -/
lemma pair_of_within (hd : Numbered d root) (hclear : Clear d root) (hn : .sequence h items ∈ root.parts)
    (htag : h.tag = Tag.orderedMap ∨ h.tag = Tag.pairs) (made : ∀ p ∈ items.zipIdx, Listed d s h.id p.2 p.1)
    (hc : c ∈ within d (.sequence h items)) : ∃ place xs v, place ∈ items.zipIdx ∧ Has d.source s c v ∧ v ∈ xs ∧
      s.contents.lookup (partId d.size h.id place.2) = some (.tuple xs) := by
  have hno : h.tag ≠ Tag.sequence := by
    rcases htag with htag | htag <;> rw [htag] <;> decide
  rw [Make.within, if_neg hno, if_pos htag] at hc
  obtain ⟨m, hm, hc⟩ := List.mem_flatMap.mp hc
  obtain ⟨place, hplace⟩ := exists_place hm
  have hpart := follow_mem hd (Node.parts_trans root hn hm)
  obtain ⟨g, e, k, x, hfollow, hk, hx, content⟩ := (made _ hplace).single hclear hpart
  rw [hfollow] at hpart hc
  have hplain : Plain d.source [e] := hclear.unmerged _ hpart
  have hside : c ∈ sides (explicit d.source [e]) := hc
  rw [hplain.explicit] at hside
  obtain ⟨e', he', heq⟩ := mem_sides.mp hside
  obtain rfl := List.mem_singleton.mp he'
  rcases heq with rfl | rfl
  · exact ⟨_, _, k, hplace, hk, List.mem_cons_self, content⟩
  · exact ⟨_, _, x, hplace, hx, List.mem_cons_of_mem _ List.mem_cons_self, content⟩

lemma entry_of_within {R : Node × Node → Value × Value → Prop} {es : List (Node × Node)} {ps : List (Value × Value)}
    (hclear : Clear d root) (hn : .mapping h own ∈ root.parts) (gathered : Gathered d (.mapping h own) es)
    (made : List.Forall₂ R es ps) (hc : c ∈ within d (.mapping h own)) :
    ∃ e ∈ own, (c = e.1 ∨ c = e.2) ∧ ∃ p, R e p := by
  have hplain : Plain d.source own := hclear.unmerged _ hn
  obtain rfl : es = own := gathered.own hplain
  rw [Make.within, certain_plain hplain] at hc
  obtain ⟨e, he, hc⟩ := mem_sides.mp hc
  obtain ⟨p, -, hp⟩ := exists_of_forall₂ made.flip he
  exact ⟨e, he, hc, p, hp⟩

lemma Filled.within_done (hd : Numbered d root) (hclear : Clear d root) (hn : n ∈ root.parts) (hf : Filled d rule s n)
    (hc : c ∈ within d n) : IsDone d.source s c := by
  cases hf with
  | sequence tag made =>
    rw [Make.within, if_pos tag] at hc
    obtain ⟨x, -, hx⟩ := exists_of_forall₂ made.flip hc
    exact Has.isDone hx
  | pairs tag made =>
    obtain ⟨-, -, v, -, hv, -⟩ := pair_of_within hd hclear hn tag made hc
    exact hv.isDone
  | set _ gathered made =>
    obtain ⟨e, -, rfl | rfl, p, hp⟩ := entry_of_within hclear hn gathered made hc
    · exact hp.key.isDone
    · exact hp.value.isDone
  | mapping _ gathered made =>
    obtain ⟨e, -, rfl | rfl, p, hp⟩ := entry_of_within hclear hn gathered made hc
    · obtain ⟨k, hk⟩ := hp.has_key
      exact hk.isDone
    · exact hp.has_value.isDone
  | blank _ tag empty =>
    cases n with
    | sequence h items =>
      cases items with
      | nil =>
        rw [Make.within] at hc
        split_ifs at hc <;> simp at hc
      | cons => cases empty
    | mapping => cases empty
    | _ => exact absurd hc List.not_mem_nil

variable (hd : Numbered d root) (hclosed : Closed d root) (hclear : Clear d root) (hs : Complete d root rule s)

include hd hclear hs

/-- In the end all nodes that are reached are made. -/
theorem Complete.made (hn : Reached d root n) : s.done.lookup n.head.id ≠ none := by
  induction hn with
  | root => exact hs.root
  | within hn htag hc ih =>
    have hmem := hn.mem_parts hd
    exact (hs.filled hmem (isSolid_of_collection htag) ih htag).within_done hd hclear hmem hc

lemma Complete.filled_of_reached (hn : Reached d root n) (htag : isCollectionTag n.head.tag = true) : Filled d rule s n :=
  hs.filled (hn.mem_parts hd) (isSolid_of_collection htag) (hs.made hd hclear hn) htag

include hclosed

omit hclear hs in
lemma Reached.isSolid (hn : Reached d root n) : n.isSolid = true := by
  cases hn with
  | root => exact hclosed root (Node.mem_parts_self root)
  | within hn _ hc => exact hclosed _ (within_mem hd (hn.mem_parts hd) hc)

/-- Everything that is reached can be made by either rule, except what counts as a mapping only if keys are names. -/
theorem Complete.fit (hn : Reached d root n) :
    Fit d n ∨ rule = .names ∧ n.head.tag = Tag.mapping ∧ n.isBlank = true := by
  cases htag : isCollectionTag n.head.tag with
  | false =>
    obtain ⟨v, hv⟩ := Option.ne_none_iff_exists'.mp (hs.made hd hclear hn)
    have hvalue := (hs.loading.done n (hn.mem_parts hd) (hn.isSolid hd hclosed) v hv).value
    obtain ⟨tag, means⟩ := hvalue.means hclear htag
    exact .inl (.scalar tag means)
  | true =>
    cases hs.filled_of_reached hd hclear hn htag with
    | sequence tag => exact .inl (.sequence tag)
    | @pairs h items tag made =>
      refine .inl (.pairs tag fun m hm => ?_)
      obtain ⟨place, hplace⟩ := exists_place hm
      obtain ⟨g, e, -, -, hfollow, -⟩ :=
        (made _ hplace).single hclear (follow_mem hd (Node.parts_trans root (hn.mem_parts hd) hm))
      exact ⟨g, e, hfollow⟩
    | set tag => exact .inl (.mapping (.inr tag))
    | mapping tag => exact .inl (.mapping (.inl tag))
    | blank names tag empty => exact .inr ⟨names, tag, empty⟩

end Everything

lemma isCollectionTag_mapping : isCollectionTag Tag.mapping = true := by decide

section Agreement

variable {d : Document} {root n c : Node} {rule rule' : KeyRule} {s s' : Making} {own : List (Node × Node)} {l m : Nat}
  {v w : Value}

lemma IsValueOf.unique (hclear : Clear d root) (hv : IsValueOf d root n v) (hw : IsValueOf d root n w) : v = w := by
  cases htag : isCollectionTag n.head.tag with
  | true => rw [hv.link htag, hw.link htag]
  | false => exact (hv.means hclear htag).2.unique (hw.means hclear htag).2

/-- What lies in a node that is reached is reached. -/
lemma Inside.reached (hd : Numbered d root) (hclear : Clear d root) (hn : Reached d root n) (h : Inside d n c) :
    Reached d root c := by
  cases h with
  | item tag mem => exact hn.item tag mem
  | @pair g items m c e tag mem comes side =>
    have hpart := follow_mem hd (Node.parts_trans root (hn.mem_parts hd) mem)
    have he : e ∈ (follow d.source m).entries := comes.of_plain (hclear.unmerged _ hpart)
    cases hfollow : follow d.source m with
    | mapping f own =>
      rw [hfollow] at he
      have hsides := Reached.pair hclear hd hn tag mem hfollow he
      rcases side with rfl | rfl
      · exact hsides.1
      · exact hsides.2
    | _ =>
      rw [hfollow] at he
      exact absurd he List.not_mem_nil
  | @entry g own e tag comes =>
    have he : e ∈ own := comes.of_plain (hclear.unmerged _ (hn.mem_parts hd))
    exact (Reached.side hclear hd hn (by rw [tag]; decide) he).2

/-- The keys of a mapping are texts. -/
def TextKeys (d : Document) (n : Node) : Prop := ∀ e ∈ n.entries, ∃ t, Means d (follow d.source e.1) (.text t)

variable (hd : Numbered d root) (hclosed : Closed d root) (hclear : Clear d root)

include hd hclosed hclear

lemma Complete.has_eq (hs : Complete d root rule s) (hs' : Complete d root rule' s') (hc : c ∈ root.parts)
    (hv : Has d.source s c v) (hw : Has d.source s' c w) : v = w :=
  (hs.isValueOf hd hclosed hc hv).unique hclear (hs'.isValueOf hd hclosed hc hw)

lemma Complete.pair_eq {e : Node × Node} {p q : Value × Value} (hs : Complete d root .values s)
    (hs' : Complete d root .names s') (he : IsEntry root e) (hkey : ∃ t, Means d (follow d.source e.1) (.text t))
    (hp : ByValue d s e p) (hq : ByName d s' e q) : p = q := by
  obtain ⟨⟨k, name, hk, hname, htext⟩, hvalue⟩ := hq
  obtain ⟨t, ht⟩ := hkey
  have hkey : p.1 = .text t := ((hs.isValueOf hd hclosed he.parts.1 hp.key).means hclear hp.scalar).2.unique ht
  have hk : p.1 = k := hs.has_eq hd hclosed hclear hs' he.parts.1 hp.key hk
  refine Prod.ext ?_ (hs.has_eq hd hclosed hclear hs' he.parts.2 hp.value hvalue)
  rw [hname, hkey, htext t (hk ▸ hkey)]

/-- What collections and their pairs are made of does not depend on the rule. -/
lemma Complete.same (hs : Complete d root .values s) (hs' : Complete d root .names s')
    (hkeys : ∀ n, Reached d root n → n.head.tag = Tag.mapping → TextKeys d n) (hn : Reached d root n)
    (htag : isCollectionTag n.head.tag = true) (ho : Owns d n l) : s.contents.lookup l = s'.contents.lookup l := by
  have hf := hs.filled_of_reached hd hclear hn htag
  have hf' := hs'.filled_of_reached hd hclear hn htag
  have hmem := hn.mem_parts hd
  have hsame {c : Node} {v w : Value} (hc : c ∈ root.parts) (hv : Has d.source s c v) (hw : Has d.source s' c w) : v = w :=
    hs.has_eq hd hclosed hclear hs' hc hv hw
  cases ho with
  | self =>
    cases hf with
    | @sequence h items xs tag made content =>
      obtain ⟨ys, made', content'⟩ := hf'.sequence_items tag
      have hitems : xs = ys := eq_of_forall₂ made made' fun c hc v w => hsame (Node.parts_trans root hmem hc)
      exact content.trans (hitems ▸ content'.symm)
    | pairs tag made content => exact content.trans (hf'.list_pairs tag).symm
    | @set h own es ps tag gathered made content =>
      obtain rfl : es = own := gathered.own (hclear.unmerged _ hmem)
      obtain ⟨qs, made', content'⟩ := hf'.set_elements tag (hclear.unmerged _ hmem)
      have hentries : ps = qs := eq_of_forall₂ made made' fun e he p q hp hq =>
        Prod.ext (hsame (isEntry_of_mem hmem he).parts.1 hp.key hq.key) (hsame (isEntry_of_mem hmem he).parts.2 hp.value hq.value)
      exact content.trans (hentries ▸ content'.symm)
    | @mapping h own es ps tag gathered made content =>
      obtain rfl : es = own := gathered.own (hclear.unmerged _ hmem)
      obtain ⟨qs, made', content'⟩ := hf'.mapping_entries tag (hclear.unmerged _ hmem)
      have hentries : ps = qs := eq_of_forall₂ made made' fun e he _ _ =>
        hs.pair_eq hd hclosed hclear hs' (isEntry_of_mem hmem he) (hkeys _ hn tag e he)
      exact content.trans (hentries ▸ content'.symm)
    | blank names => cases names
  | @part h items p tag mem =>
    have hitem := follow_mem hd (Node.parts_trans root hmem (List.fst_mem_of_mem_zipIdx mem))
    obtain ⟨g, e, x, y, hfollow, hx, hy, hpart⟩ := (hf.listed tag p mem).single hclear hitem
    obtain ⟨g', e', x', y', hfollow', hx', hy', hpart'⟩ := (hf'.listed tag p mem).single hclear hitem
    obtain ⟨rfl, hone⟩ := Node.mapping.inj (hfollow.symm.trans hfollow')
    obtain rfl : e = e' := List.singleton_inj.mp hone
    have hparts := (isEntry_of_mem (n := .mapping g [e]) (hfollow ▸ hitem) (List.mem_singleton_self e)).parts
    obtain rfl := hsame hparts.1 hx hx'
    obtain rfl := hsame hparts.2 hy hy'
    exact hpart.trans hpart'.symm

/-- The value of the root does not depend on the rule. -/
theorem Complete.agree (hs : Complete d root .values s) (hs' : Complete d root .names s')
    (hkeys : ∀ n, Reached d root n → n.head.tag = Tag.mapping → TextKeys d n) (hv : Has d.source s root v)
    (hw : Has d.source s' root w) : v.unfold s.contents = w.unfold s'.contents := by
  have hroot := Node.mem_parts_self root
  obtain rfl := hs.has_eq hd hclosed hclear hs' hroot hv hw
  refine Value.unfold_congr (p := fun l => ∃ n, Reached d root n ∧ Present root s n ∧ Owns d n l) ?_ ?_ ?_
  · rintro l ⟨n, hn, hpresent, ho⟩
    exact hs.same hd hclosed hclear hs' hkeys hn hpresent.collection ho
  · rintro l m ⟨n, hn, hpresent, ho⟩ hleads
    rcases hs.leads hd hclosed hpresent ho hleads with ⟨hown, -⟩ | ⟨g, hg, rfl⟩
    · exact ⟨n, hn, hpresent, hown⟩
    · exact ⟨g, hg.inside.reached hd hclear hn, hg.present, .self⟩
  · intro l hl
    obtain ⟨hpresent, rfl⟩ := hs.present hd hclosed hroot hv hl
    exact ⟨_, .root, hpresent, .self⟩

end Agreement

/-- No mapping that is reached has a key twice. -/
def Unrepeated (d : Document) (root : Node) : Prop := ∀ n, Reached d root n → n.head.tag = Tag.mapping →
  n.entries.Pairwise fun e e' => ∀ k, Means d (follow d.source e.1) k → ¬Means d (follow d.source e'.1) k

/-- Sets have nothing but scalars beside their elements. -/
def BareSets (d : Document) (root : Node) : Prop := ∀ n, Reached d root n → n.head.tag = Tag.set →
  ∀ e ∈ n.entries, isCollectionTag (follow d.source e.2).head.tag = false

/-- A document that is loaded with values as keys, without merge keys in it. The keys that show in its value are texts, no
mapping has a key twice, and nothing but elements of sets is left out of the value. -/
structure Textual (d : Document) (root : Node) (s : Making) (w : Value) : Prop where
  numbered : Numbered d root
  closed : Closed d root
  clear : Clear d root
  complete : Complete d root .values s
  has : Has d.source s root w
  keyed : (w.unfold s.contents).pruned.TextKeyed
  unrepeated : Unrepeated d root
  bare : BareSets d root

section Bearing

variable {d : Document} {root n c : Node} {s : Making} {g : Head} {own : List (Node × Node)} {ps : List (Value × Value)}
  {e : Node × Node} {id : Nat} {tag t : Text} {k w : Value}

lemma IsScalar.eq_text {shared : List Nat} {f : Nat → Value} (h : IsScalar id tag k)
    (ht : Value.prune shared (Value.substitute f k) = .text t) : k = .text t := by
  cases h with
  | date =>
    rw [Value.substitute, Value.prune] at ht
    split_ifs at ht <;> cases ht
  | dateTime =>
    rw [Value.substitute, Value.prune] at ht
    split_ifs at ht <;> cases ht
  | _ => exact ht

lemma IsScalar.eq_text_of_sameKey (h : IsScalar id tag k) (ht : Value.sameKey (.text t) k = true) : k = .text t := by
  cases h with
  | null => cases ht
  | date => cases ht
  | dateTime => cases ht
  | _ => exact congrArg Value.scalar (Value.eq_text_of_sameKey ht)

lemma Reached.root_collection (hn : Reached d root n) (htag : isCollectionTag n.head.tag = true) :
    isCollectionTag (follow d.source root).head.tag = true := by
  induction hn with
  | root => exact htag
  | within _ htag' _ ih => exact ih htag'

namespace Textual

variable (ht : Textual d root s w)

include ht

lemma filled (hn : Reached d root n) (htag : isCollectionTag n.head.tag = true) : Filled d .values s n :=
  ht.complete.filled_of_reached ht.numbered ht.clear hn htag

lemma isValueOf {v : Value} (hc : c ∈ root.parts) (hv : Has d.source s c v) : IsValueOf d root (follow d.source c) v :=
  ht.complete.isValueOf ht.numbered ht.closed hc hv

lemma link (hn : Reached d root n) (htag : isCollectionTag n.head.tag = true) : w = .alias (follow d.source root).head.id :=
  (ht.isValueOf (Node.mem_parts_self root) ht.has).link (hn.root_collection htag)

/-- The keys of a mapping that shows in the value are texts. -/
lemma texts (hn : Reached d root (.mapping g own)) (htag : g.tag = Tag.mapping)
    (hborne : ReflTransGen (Bears s.contents) (follow d.source root).head.id g.id)
    (made : List.Forall₂ (ByValue d s) own ps)
    (content : s.contents.lookup g.id = some (.map false (Value.entriesOf ps))) : ∀ p ∈ ps, ∃ t, p.1 = .text t := by
  have hlink := ht.link hn (htag ▸ isCollectionTag_mapping)
  obtain ⟨shared, f, hshown⟩ := Value.textKeyed_of_unfold ht.keyed (hlink ▸ .link) hborne content
  rw [(Value.descends_substitute f).map, (Value.descends_prune shared).map, Value.textKeyed_map] at hshown
  have hscalar : ∀ p ∈ ps, ∃ id tag, IsScalar id tag p.1 := by
    intro p hp
    obtain ⟨e, he, hpair⟩ := exists_of_forall₂ made hp
    have hpart := (isEntry_of_mem (hn.mem_parts ht.numbered) he).parts.1
    obtain ⟨tag, -, -, h⟩ := (ht.isValueOf hpart hpair.key).scalar hpair.scalar
    exact ⟨_, tag, h⟩
  -- a key that is not shown counts as the same as one that is
  intro p hp
  obtain ⟨e, he, hsame⟩ := Value.exists_key_entriesOf hp
  obtain ⟨t, ht⟩ := hshown.1 _ (List.mem_map_of_mem (List.mem_map_of_mem he))
  obtain ⟨q, hq, hkey⟩ := Value.key_of_entriesOf he
  obtain ⟨id, tag, hqscalar⟩ := hscalar q hq
  obtain ⟨id', tag', hpscalar⟩ := hscalar p hp
  have htext : e.1 = .text t := (hkey ▸ hqscalar).eq_text ht
  rw [htext] at hsame
  exact ⟨t, hsame.elim Eq.symm hpscalar.eq_text_of_sameKey⟩

lemma entries_kept (hn : Reached d root (.mapping g own)) (htag : g.tag = Tag.mapping)
    (hborne : ReflTransGen (Bears s.contents) (follow d.source root).head.id g.id)
    (made : List.Forall₂ (ByValue d s) own ps)
    (content : s.contents.lookup g.id = some (.map false (Value.entriesOf ps))) : Value.entriesOf ps = ps := by
  refine Value.entriesOf_eq (ht.texts hn htag hborne made content) ?_
  refine List.pairwise_map.mpr (pairwise_of_forall₂ made (ht.unrepeated _ hn htag) fun e he e' he' p p' hp hp' hno heq => ?_)
  have hmeans {e : Node × Node} {p : Value × Value} (he : e ∈ own) (hp : ByValue d s e p) :
      Means d (follow d.source e.1) p.1 :=
    ((ht.isValueOf (isEntry_of_mem (hn.mem_parts ht.numbered) he).parts.1 hp.key).means ht.clear hp.scalar).2
  exact hno _ (hmeans he hp) (heq ▸ hmeans he' hp')

/-- A mapping that shows in the value bears the collections among its values. -/
lemma bears_value (hn : Reached d root (.mapping g own)) (htag : g.tag = Tag.mapping)
    (hborne : ReflTransGen (Bears s.contents) (follow d.source root).head.id g.id) (he : e ∈ own)
    (hc : isCollectionTag (follow d.source e.2).head.tag = true) : Bears s.contents g.id (follow d.source e.2).head.id := by
  have hmem := hn.mem_parts ht.numbered
  obtain ⟨ps, made, content⟩ :=
    (ht.filled hn (htag ▸ isCollectionTag_mapping)).mapping_entries htag (ht.clear.unmerged _ hmem)
  have hkept := ht.entries_kept hn htag hborne made content
  obtain ⟨p, hp, hpair⟩ := exists_of_forall₂ made.flip he
  have hpair : ByValue d s e p := hpair
  have hlink := (ht.isValueOf (isEntry_of_mem hmem he).parts.2 hpair.value).link hc
  refine ⟨_, content, ?_⟩
  rw [hkept]
  exact .entry hp (hlink ▸ .link)

/-- Every collection that is reached shows in the value. -/
theorem borne (hn : Reached d root n) (htag : isCollectionTag n.head.tag = true) :
    ReflTransGen (Bears s.contents) (follow d.source root).head.id n.head.id := by
  induction hn with
  | root => exact .refl
  | @within n c hn htag' hc ih =>
    have hborne := ih htag'
    have hmem := hn.mem_parts ht.numbered
    have hlink {v : Value} (hpart : c ∈ root.parts) (hv : Has d.source s c v) : v = .alias (follow d.source c).head.id :=
      (ht.isValueOf hpart hv).link htag
    cases ht.filled hn htag' with
    | @sequence h items xs tag made content =>
      rw [Make.within, if_pos tag] at hc
      obtain ⟨x, hx, hhas⟩ := exists_of_forall₂ made.flip hc
      exact hborne.tail ⟨_, content, .list hx (hlink (Node.parts_trans root hmem hc) hhas ▸ .link)⟩
    | @pairs h items tag made content =>
      obtain ⟨p, xs, v, hp, hhas, hv, hpart⟩ := pair_of_within ht.numbered ht.clear hmem tag made hc
      have hstep : Bears s.contents h.id (partId d.size h.id p.2) := ⟨_, content, .list (List.mem_map_of_mem hp) .link⟩
      exact (hborne.tail hstep).tail ⟨_, hpart, .tuple hv (hlink (within_mem ht.numbered hmem hc) hhas ▸ .link)⟩
    | set tag gathered made =>
      obtain ⟨e, he, rfl | rfl, p, hp⟩ := entry_of_within ht.clear hmem gathered made hc
      · rw [hp.scalar] at htag
        cases htag
      · rw [ht.bare _ hn tag e he] at htag
        cases htag
    | mapping tag gathered made =>
      obtain ⟨e, he, rfl | rfl, p, hp⟩ := entry_of_within ht.clear hmem gathered made hc
      · have hp : ByValue d s e p := hp
        rw [hp.scalar] at htag
        cases htag
      · exact hborne.tail (ht.bears_value hn tag hborne he htag)
    | blank names => cases names

/-- The keys of a mapping that is reached are scalars that mean texts. -/
lemma keys (hn : Reached d root (.mapping g own)) (htag : g.tag = Tag.mapping) (he : e ∈ own) :
    isScalarTag (follow d.source e.1).head.tag = true ∧ ∃ t, Means d (follow d.source e.1) (.text t) := by
  have hcollection : isCollectionTag g.tag = true := htag ▸ isCollectionTag_mapping
  have hmem := hn.mem_parts ht.numbered
  obtain ⟨ps, made, content⟩ := (ht.filled hn hcollection).mapping_entries htag (ht.clear.unmerged _ hmem)
  obtain ⟨p, hp, hpair⟩ := exists_of_forall₂ made.flip he
  have hpair : ByValue d s e p := hpair
  obtain ⟨t, htext⟩ := ht.texts hn htag (ht.borne hn hcollection) made content p hp
  obtain ⟨htag', hmeans⟩ := (ht.isValueOf (isEntry_of_mem hmem he).parts.1 hpair.key).means ht.clear hpair.scalar
  exact ⟨htag', t, htext ▸ hmeans⟩

/-- Where a mapping holds another node, its content leads to that of the other. -/
lemma leads_of_holds (hn : Reached d root n) (h : Holds d n c) :
    Reached d root c ∧ (isCollectionTag c.head.tag = true → Leads s.contents n.head.id c.head.id) := by
  obtain ⟨htag, e, he, hc⟩ := h
  cases n with
  | mapping g own =>
    have htag : g.tag = Tag.mapping := htag
    have hcollection : isCollectionTag g.tag = true := htag ▸ isCollectionTag_mapping
    have hsides := Reached.side ht.clear ht.numbered hn hcollection he
    rcases hc with rfl | rfl
    · refine ⟨hsides.1, fun htag' => ?_⟩
      rw [not_isCollectionTag (ht.keys hn htag he).1 (.inl rfl)] at htag'
      cases htag'
    · exact ⟨hsides.2, fun htag' => (ht.bears_value hn htag (ht.borne hn hcollection) he htag').leads⟩
  | _ => exact absurd he List.not_mem_nil

/-- If the value does not contain itself, no mapping lies in itself. -/
lemma grounded (hfinite : (w.unfold s.contents).isCyclic = false) (hn : Reached d root n) : ¬TransGen (Holds d) n n := by
  intro hcycle
  have hpath {m : Node} (h : TransGen (Holds d) n m) :
      Reached d root m ∧ (isCollectionTag m.head.tag = true → TransGen (Leads s.contents) n.head.id m.head.id) := by
    induction h with
    | single h =>
      obtain ⟨hm, hleads⟩ := ht.leads_of_holds hn h
      exact ⟨hm, fun htag => .single (hleads htag)⟩
    | tail _ h ih =>
      obtain ⟨hb, hpath⟩ := ih
      obtain ⟨hm, hleads⟩ := ht.leads_of_holds hb h
      exact ⟨hm, fun htag => (hpath (h.1 ▸ isCollectionTag_mapping)).tail (hleads htag)⟩
  obtain ⟨m, hm, -⟩ := TransGen.head'_iff.mp hcycle
  have htag : isCollectionTag n.head.tag = true := hm.1 ▸ isCollectionTag_mapping
  have hreach : ReflTransGen (Leads s.contents) (follow d.source root).head.id n.head.id :=
    (ht.borne hn htag).lift id fun _ _ h => h.leads
  have hknown {k l : Nat} (hk : Refers k w) (hl : ReflTransGen (Leads s.contents) k l) : s.contents.lookup l ≠ none :=
    ht.complete.knows ht.numbered ht.closed ht.has hk hl
  have hcyclic := (Value.isCyclic_unfold fun _ _ => hknown).mpr
    ⟨_, _, ht.link hn htag ▸ .link, hreach, (hpath hcycle).2 htag⟩
  rw [hcyclic] at hfinite
  cases hfinite

lemma eq_mapping (hn : Reached d root n) (htag : n.head.tag = Tag.mapping ∨ n.head.tag = Tag.set) :
    ∃ g own, n = .mapping g own := by
  have hfit := (ht.complete.fit ht.numbered ht.closed ht.clear hn).resolve_right fun h => by cases h.1
  have hkind := hfit.isMapping htag
  cases n with
  | mapping g own => exact ⟨g, own, rfl⟩
  | _ => cases hkind

/-- If no mapping lies in itself, the document can be loaded with names as keys. -/
theorem loadable (hgrounded : ∀ n, Reached d root n → ¬TransGen (Holds d) n n) : Loadable d root .names where
  clear := ht.clear
  fit n hn := (ht.complete.fit ht.numbered ht.closed ht.clear hn).resolve_right fun h => by cases h.1
  named _ :=
    { named := fun n hn htag e he => by
        obtain ⟨g, own, rfl⟩ := ht.eq_mapping hn (.inl htag)
        obtain ⟨htag', t, hmeans⟩ := ht.keys hn htag he
        exact ⟨t, htag', _, hmeans, rfl⟩
      apart := fun n hn htag => by
        obtain ⟨g, own, rfl⟩ := ht.eq_mapping hn (.inl htag)
        refine (ht.unrepeated _ hn htag).imp_of_mem fun {e e'} he he' hno name hname hname' => ?_
        have hmeans {e : Node × Node} (he : e ∈ own) (hname : IsNamed d (follow d.source e.1) name) :
            Means d (follow d.source e.1) (.text name) := by
          obtain ⟨-, t, ht⟩ := ht.keys hn htag he
          obtain ⟨-, v, hv, hvname⟩ := hname
          obtain rfl := hv.unique ht
          obtain rfl := Except.ok.inj hvname
          exact ht
        exact hno _ (hmeans he hname) (hmeans he' hname')
      hashable := fun n hn htag e he => by
        obtain ⟨g, own, rfl⟩ := ht.eq_mapping hn (.inr htag)
        have htag : g.tag = Tag.set := htag
        have hplain := ht.clear.unmerged _ (hn.mem_parts ht.numbered)
        obtain ⟨ps, made, -⟩ := (ht.filled hn (htag ▸ (by decide : isCollectionTag Tag.set = true))).set_elements htag hplain
        obtain ⟨p, -, hp⟩ := exists_of_forall₂ made.flip he
        exact ByValue.scalar hp
      grounded := hgrounded }

end Textual

end Bearing

end Make

namespace Document

open Make

variable {d : Document} {root : Node} {v : Value} {fault : Fault}

/-- A document without merge keys that has a value with texts as keys, if these are values, has the same value if they are
names. -/
theorem value_names_of_values (hd : Numbered d root) (hclosed : Closed d root) (hclear : Clear d root)
    (hroot : d.root = some root) (h : d.value .values = .ok v) (hkeyed : v.TextKeyed) (hunrepeated : Unrepeated d root)
    (hbare : BareSets d root) (hgrounded : v.isCyclic = true → ∀ n, Reached d root n → ¬TransGen (Holds d) n n) :
    d.value .names = .ok v := by
  obtain ⟨s, w, hs, hw, rfl⟩ := complete_of_value hd hclosed hroot h
  have htextual : Textual d root s w := ⟨hd, hclosed, hclear, hs, hw, hkeyed, hunrepeated, hbare⟩
  have hground : ∀ n, Reached d root n → ¬TransGen (Holds d) n n := by
    rw [Value.isCyclic_pruned] at hgrounded
    cases hcyclic : (w.unfold s.contents).isCyclic with
    | true => exact hgrounded hcyclic
    | false => exact fun n hn => htextual.grounded hcyclic hn
  have hload := htextual.loadable hground
  cases hv : d.value .names with
  | error fault =>
    have hrule := (refused_of_value hd hclosed hroot hv hload).1
    cases hrule
  | ok v =>
    obtain ⟨s', w', hs', hw', rfl⟩ := complete_of_value hd hclosed hroot hv
    have hkeys : ∀ n, Reached d root n → n.head.tag = Tag.mapping → TextKeys d n := by
      intro n hn htag e he
      obtain ⟨g, own, rfl⟩ := htextual.eq_mapping hn (.inl htag)
      exact (htextual.keys hn htag he).2
    rw [hs.agree hd hclosed hclear hs' hkeys hw hw']

/-- If a document without merge keys has no value when keys are values, and not because of a key that cannot be one, it
has none when keys are names, unless something else stands for an empty mapping. -/
theorem not_value_names_of_values (hd : Numbered d root) (hclosed : Closed d root) (hclear : Clear d root)
    (hroot : d.root = some root) (h : d.value .values = .error fault) (hhashable : fault.isUnhashable = false)
    (hblank : ∀ n, Reached d root n → n.head.tag = Tag.mapping → n.isBlank = false) : d.value .names ≠ .ok v := by
  intro hv
  obtain ⟨s, w, hs, -⟩ := complete_of_value hd hclosed hroot hv
  have hload : Loadable d root .values := by
    refine ⟨hclear, fun n hn => (hs.fit hd hclosed hclear hn).resolve_right ?_, nofun⟩
    rintro ⟨-, htag, hempty⟩
    rw [hblank n hn htag] at hempty
    cases hempty
  have hkey := (refused_of_value hd hclosed hroot h hload).2
  rw [hhashable] at hkey
  cases hkey

end Document

end DocPath.Yaml
