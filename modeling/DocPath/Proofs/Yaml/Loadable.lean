import DocPath.Proofs.Yaml.Objects
import DocPath.Proofs.Yaml.Spelled

/-! Documents whose values can be made: what every node that is reached has to be like, and what else is needed if the
keys of mappings are names. -/

namespace DocPath.Yaml

/-- A fault about a key that cannot be one. -/
def Fault.isUnhashable : Fault → Bool
  | .marked _ _ .unhashableKey _ => true
  | _ => false

namespace Make

open Relation

/-- A node whose value can be made if the values of the nodes in it can. -/
inductive Fit (d : Document) : Node → Prop
  | scalar {n : Node} {v : Value} (tag : isScalarTag n.head.tag = true) (means : Means d n v) : Fit d n
  | sequence {h : Head} {items : List Node} (tag : h.tag = Tag.sequence) : Fit d (.sequence h items)
  | pairs {h : Head} {items : List Node} (tag : h.tag = Tag.orderedMap ∨ h.tag = Tag.pairs)
      (single : ∀ n ∈ items, ∃ g e, follow d.source n = .mapping g [e]) : Fit d (.sequence h items)
  | mapping {h : Head} {own : List (Node × Node)} (tag : h.tag = Tag.mapping ∨ h.tag = Tag.set) :
      Fit d (.mapping h own)

/-- A node is a scalar with a name. -/
def IsNamed (d : Document) (n : Node) (name : Text) : Prop :=
  isScalarTag n.head.tag = true ∧ ∃ v, Means d n v ∧ v.asName = .ok name

/-- A mapping has a node as a key or value. -/
def Holds (d : Document) (n m : Node) : Prop :=
  n.head.tag = Tag.mapping ∧ ∃ e ∈ n.entries, m = follow d.source e.1 ∨ m = follow d.source e.2

/-- The keys of two entries do not have the same name. -/
def Apart (d : Document) (e e' : Node × Node) : Prop :=
  ∀ name, IsNamed d (follow d.source e.1) name → ¬IsNamed d (follow d.source e'.1) name

/-- A document in which keys have names, each once in a mapping, and no mapping lies in itself with nothing but mappings
in between. -/
structure Namable (d : Document) (root : Node) : Prop where
  named : ∀ n, Reached d root n → n.head.tag = Tag.mapping → ∀ e ∈ n.entries, ∃ name, IsNamed d (follow d.source e.1) name
  apart : ∀ n, Reached d root n → n.head.tag = Tag.mapping → n.entries.Pairwise (Apart d)
  hashable : ∀ n, Reached d root n → n.head.tag = Tag.set →
    ∀ e ∈ n.entries, isCollectionTag (follow d.source e.1).head.tag = false
  grounded : ∀ n, Reached d root n → ¬TransGen (Holds d) n n

/-- A document whose values can be made by a rule, if what cannot be a key is left out of account where keys are
values. -/
structure Loadable (d : Document) (root : Node) (rule : KeyRule) : Prop where
  clear : Clear d root
  fit : ∀ n, Reached d root n → Fit d n
  named : rule = .names → Namable d root

/-- The only fault in such a document is that of a key. -/
def Refused (d : Document) (root : Node) (rule : KeyRule) (fault : Fault) : Prop :=
  Loadable d root rule → rule = .values ∧ fault.isUnhashable = true

/-- What makes a node easy while the `active` ones are being made: they are mappings around it, what is made at once is
no collection, and there is fuel for all nodes that are left. -/
structure Eased (d : Document) (root : Node) (rule : KeyRule) (fuel : Nat) (deep : Bool) (active : List Nat) (n : Node) :
    Prop where
  reached : Reached d root (follow d.source n)
  deep : deep = true → isCollectionTag (follow d.source n).head.tag = false
  around : ∀ id ∈ active, rule = .names ∧ ∃ m ∈ root.parts, m.isSolid = true ∧ m.head.id = id ∧
    TransGen (Holds d) m (follow d.source n)
  room : 3 * d.size + 8 ≤ fuel + 2 * active.length

section Documents

variable {d : Document} {root n m : Node} {rule : KeyRule} {h g : Head} {items : List Node} {own es : List (Node × Node)}
  {e : Node × Node} {t : Text} {v : Value}

lemma Means.unique {w : Value} (h : Means d n v) (h' : Means d n w) : v = w := by
  obtain ⟨t, ht, hv⟩ := h
  obtain ⟨u, hu, hw⟩ := h'
  obtain rfl := ht.unique hu
  exact Except.ok.inj (hv.symm.trans hw)

lemma IsNamed.unique {name name' : Text} (h : IsNamed d n name) (h' : IsNamed d n name') : name = name' := by
  obtain ⟨-, v, hv, hname⟩ := h
  obtain ⟨-, w, hw, hname'⟩ := h'
  obtain rfl := hv.unique hw
  exact Except.ok.inj (hname.symm.trans hname')

lemma IsNamed.not_collection {name : Text} (h : IsNamed d n name) : isCollectionTag n.head.tag = false :=
  not_isCollectionTag h.1 (.inl rfl)

lemma Fit.isSequence (hn : Fit d n) (htag : n.head.tag = Tag.sequence ∨ n.head.tag = Tag.orderedMap ∨ n.head.tag = Tag.pairs) :
    n.kind = .sequence := by
  cases hn with
  | scalar tag =>
    rcases htag with htag | htag | htag <;> rw [htag] at tag <;> exact absurd tag (by decide)
  | sequence => rfl
  | pairs => rfl
  | @mapping h own tag =>
    have htag : h.tag = Tag.sequence ∨ h.tag = Tag.orderedMap ∨ h.tag = Tag.pairs := htag
    rcases tag with tag | tag <;> rw [tag] at htag <;> exact absurd htag (by decide)

lemma Fit.isMapping (hn : Fit d n) (htag : n.head.tag = Tag.mapping ∨ n.head.tag = Tag.set) : n.kind = .mapping := by
  cases hn with
  | scalar tag =>
    rcases htag with htag | htag <;> rw [htag] at tag <;> exact absurd tag (by decide)
  | @sequence h items tag =>
    have htag : h.tag = Tag.mapping ∨ h.tag = Tag.set := htag
    rw [tag] at htag
    exact absurd htag (by decide)
  | @pairs h items tag =>
    have htag : h.tag = Tag.mapping ∨ h.tag = Tag.set := htag
    rcases tag with tag | tag <;> rw [tag] at htag <;> exact absurd htag (by decide)
  | mapping => rfl

lemma Fit.single (hn : Fit d (.sequence h items)) (htag : h.tag = Tag.orderedMap ∨ h.tag = Tag.pairs) :
    ∀ m ∈ items, ∃ g e, follow d.source m = .mapping g [e] := by
  cases hn with
  | scalar tag =>
    have tag : isScalarTag h.tag = true := tag
    rcases htag with htag | htag <;> rw [htag] at tag <;> exact absurd tag (by decide)
  | sequence tag =>
    rw [tag] at htag
    exact absurd htag (by decide)
  | pairs _ single => exact single

lemma certain_plain (hplain : Plain d.source own) : certain d h own = own := by
  rw [certain]
  split_ifs
  · exact hplain.flatEntries
  · rw [hplain.brought, hplain.explicit, List.nil_append]

lemma Reached.item (hn : Reached d root (.sequence h items)) (htag : h.tag = Tag.sequence) (hm : m ∈ items) :
    Reached d root (follow d.source m) := by
  refine hn.within (by rw [show (Node.sequence h items).head.tag = h.tag from rfl, htag]; decide) ?_
  rw [Make.within, if_pos htag]
  exact hm

lemma Reached.side (hclear : Clear d root) (hd : Numbered d root) (hn : Reached d root (.mapping h own))
    (htag : isCollectionTag h.tag = true) (he : e ∈ own) :
    Reached d root (follow d.source e.1) ∧ Reached d root (follow d.source e.2) := by
  have hplain : Plain d.source own := hclear.unmerged _ (hn.mem_parts hd)
  have hwithin : ∀ c ∈ sides own, Reached d root (follow d.source c) := by
    intro c hc
    refine hn.within htag ?_
    rwa [Make.within, certain_plain hplain]
  exact ⟨hwithin _ (mem_sides.mpr ⟨e, he, .inl rfl⟩), hwithin _ (mem_sides.mpr ⟨e, he, .inr rfl⟩)⟩

lemma Reached.pair (hclear : Clear d root) (hd : Numbered d root) (hn : Reached d root (.sequence h items))
    (htag : h.tag = Tag.orderedMap ∨ h.tag = Tag.pairs) (hm : m ∈ items) (hfollow : follow d.source m = .mapping g own)
    (he : e ∈ own) : Reached d root (follow d.source e.1) ∧ Reached d root (follow d.source e.2) := by
  have hplain : Plain d.source own := by
    have hpart := follow_mem hd (Node.parts_trans root (hn.mem_parts hd) hm)
    rw [hfollow] at hpart
    exact hclear.unmerged _ hpart
  have hcollection : isCollectionTag h.tag = true := by
    rcases htag with htag | htag <;> rw [htag] <;> decide
  have hno : h.tag ≠ Tag.sequence := by
    rcases htag with htag | htag <;> rw [htag] <;> decide
  have hwithin : ∀ c ∈ sides own, Reached d root (follow d.source c) := by
    intro c hc
    refine hn.within hcollection ?_
    rw [Make.within, if_neg hno, if_pos htag]
    refine List.mem_flatMap.mpr ⟨m, hm, ?_⟩
    rw [hfollow]
    show c ∈ sides (explicit d.source own)
    rwa [hplain.explicit]
  exact ⟨hwithin _ (mem_sides.mpr ⟨e, he, .inl rfl⟩), hwithin _ (mem_sides.mpr ⟨e, he, .inr rfl⟩)⟩

end Documents

end Make

end DocPath.Yaml
