import DocPath.Proofs.Yaml.Coming
import Mathlib.Data.List.Pairwise

/-! Where the parts of a document lie: each of them but aliases lies in one place only. So the parts of keys that no alias
leads to or from are met nowhere but in their keys. -/

namespace DocPath.Yaml

section Places

variable {root n m q k c x : Node} {ns : List Node} {es : List (Node × Node)} {e e' : Node × Node} {h : Head}

lemma partsAll_eq : Node.partsAll ns = ns.flatMap Node.parts := by
  induction ns with
  | nil => rfl
  | cons n ns ih => rw [Node.partsAll, ih, List.flatMap_cons]

lemma partsEntries_eq : Node.partsEntries es = (es.flatMap fun e => [e.1, e.2]).flatMap Node.parts := by
  induction es with
  | nil => rfl
  | cons e es ih =>
    obtain ⟨k, v⟩ := e
    rw [Node.partsEntries, ih, List.flatMap_cons]
    rfl

/-- A node comes before what is in it. -/
lemma parts_eq (n : Node) : n.parts = n :: n.children.flatMap Node.parts := by
  cases n with
  | sequence h ns => rw [Node.parts, partsAll_eq, Node.children]
  | mapping h es => rw [Node.parts, partsEntries_eq, Node.children]
  | _ => rfl

lemma numbers_append {ms : List Node} : numbers (ns ++ ms) = numbers ns ++ numbers ms := by
  rw [numbers, List.filter_append, List.map_append]
  rfl

lemma numbers_flatMap {f : Node → List Node} : numbers (ns.flatMap f) = ns.flatMap fun n => numbers (f n) := by
  induction ns with
  | nil => rfl
  | cons n ns ih => rw [List.flatMap_cons, numbers_append, ih, List.flatMap_cons]

lemma sizeOf_child (hc : c ∈ n.children) : sizeOf c < sizeOf n := by
  cases n with
  | sequence h ns =>
    have hlt := List.sizeOf_lt_of_mem (show c ∈ ns from hc)
    rw [Node.sequence.sizeOf_spec]
    omega
  | mapping h es =>
    obtain ⟨⟨k, v⟩, he, hc⟩ := List.mem_flatMap.mp hc
    have hlt := List.sizeOf_lt_of_mem he
    rw [Prod.mk.sizeOf_spec] at hlt
    rw [Node.mapping.sizeOf_spec]
    rcases List.mem_pair.mp hc with rfl | rfl <;> omega
  | _ => exact absurd hc List.not_mem_nil

/-- What holds of a node if it holds of its children holds of all nodes. -/
theorem Node.ofChildren {p : Node → Prop} (h : ∀ n, (∀ c ∈ n.children, p c) → p n) (n : Node) : p n := by
  induction hsize : sizeOf n using Nat.strong_induction_on generalizing n with
  | _ size ih => exact h n fun c hc => ih _ (hsize ▸ sizeOf_child hc) c rfl

lemma parts_subset (hm : m ∈ n.parts) : m.parts ⊆ n.parts := by
  induction n using Node.ofChildren with
  | _ n ih =>
    rcases Node.mem_parts.mp hm with rfl | ⟨c, hc, hm⟩
    · exact List.Subset.refl _
    · exact fun x hx => Node.mem_parts.mpr (.inr ⟨c, hc, ih c hc hm hx⟩)

lemma eq_or_sizeOf_lt (hm : m ∈ n.parts) : m = n ∨ sizeOf m < sizeOf n := by
  induction n using Node.ofChildren with
  | _ n ih =>
    rcases Node.mem_parts.mp hm with rfl | ⟨c, hc, hm⟩
    · exact .inl rfl
    · refine .inr ?_
      have hlt := sizeOf_child hc
      rcases ih c hc hm with rfl | hm
      · exact hlt
      · exact hm.trans hlt

lemma parts_antisymm (hm : m ∈ n.parts) (hn : n ∈ m.parts) : m = n := by
  rcases eq_or_sizeOf_lt hm with heq | hlt
  · exact heq
  · rcases eq_or_sizeOf_lt hn with rfl | hgt
    · rfl
    · exact absurd hgt hlt.asymm

lemma not_mem_parts_child (hc : c ∈ n.children) : n ∉ c.parts := by
  intro hn
  have hlt := sizeOf_child hc
  rcases eq_or_sizeOf_lt hn with rfl | hgt
  · exact lt_irrefl _ hlt
  · exact hlt.asymm hgt

/-- Nodes with no number in common. -/
def Node.Apart (n m : Node) : Prop := (numbers n.parts).Disjoint (numbers m.parts)

instance : Std.Symm Node.Apart := ⟨fun _ _ h => h.symm⟩

lemma Node.Apart.not_mem (h : n.Apart m) (hsolid : x.isSolid = true) (hn : x ∈ n.parts) : x ∉ m.parts :=
  fun hm => h (head_mem_numbers hn hsolid) (head_mem_numbers hm hsolid)

lemma children_apart (hn : (numbers n.parts).Nodup) :
    (∀ c ∈ n.children, (numbers c.parts).Nodup) ∧ n.children.Pairwise Node.Apart := by
  have htail : (numbers (n.children.flatMap Node.parts)).Nodup := by
    rw [parts_eq, ← List.singleton_append, numbers_append] at hn
    exact (List.nodup_append.mp hn).2.1
  rwa [numbers_flatMap, List.nodup_flatMap] at htail

lemma nodup_of_mem_parts (hroot : (numbers root.parts).Nodup) (hn : n ∈ root.parts) : (numbers n.parts).Nodup := by
  induction root using Node.ofChildren with
  | _ root ih =>
    rcases Node.mem_parts.mp hn with rfl | ⟨c, hc, hn⟩
    · exact hroot
    · exact ih c hc ((children_apart hroot).1 c hc) hn

/-- A node that is no alias lies in one child only. -/
lemma child_unique (hn : (numbers n.parts).Nodup) (hc : c ∈ n.children) (hm : m ∈ n.children) (hsolid : x.isSolid = true)
    (hxc : x ∈ c.parts) (hxm : x ∈ m.parts) : c = m := by
  by_contra hne
  exact ((children_apart hn).2.forall hc hm hne).not_mem hsolid hxc hxm

/-- What a node lies in, apart from itself, its parent lies in, too. -/
theorem parent_mem_parts (hroot : (numbers root.parts).Nodup) (hq : q ∈ root.parts) (hc : c ∈ q.children)
    (hsolid : c.isSolid = true) (hk : k ∈ root.parts) (hck : c ∈ k.parts) : c = k ∨ q ∈ k.parts := by
  induction root using Node.ofChildren with
  | _ root ih =>
    rcases Node.mem_parts.mp hk with rfl | ⟨b, hb, hkb⟩
    · exact .inr hq
    have hcb : c ∈ b.parts := parts_subset hkb hck
    rcases Node.mem_parts.mp hq with rfl | ⟨a, ha, hqa⟩
    · obtain rfl := child_unique hroot hc hb hsolid (Node.mem_parts_self c) hcb
      exact .inl (parts_antisymm hck hkb)
    · obtain rfl := child_unique hroot ha hb hsolid (Node.parts_trans a hqa hc) hcb
      exact ih a ha ((children_apart hroot).1 a ha) hqa hkb

/-- A node that is no alias has one parent. -/
theorem parent_unique (hroot : (numbers root.parts).Nodup) (hq : q ∈ root.parts) (hm : m ∈ root.parts)
    (hsolid : c.isSolid = true) (hcq : c ∈ q.children) (hcm : c ∈ m.children) : q = m := by
  have hin {a b : Node} (ha : a ∈ root.parts) (hb : b ∈ root.parts) (hca : c ∈ a.children) (hcb : c ∈ b.children) :
      a ∈ b.parts := by
    refine (parent_mem_parts hroot ha hca hsolid hb (Node.mem_parts.mpr (.inr ⟨c, hcb, Node.mem_parts_self c⟩))).resolve_left ?_
    rintro rfl
    exact lt_irrefl _ (sizeOf_child hcb)
  exact parts_antisymm (hin hq hm hcq hcm) (hin hm hq hcm hcq)

/-- A key is no value, not even in another entry. -/
theorem key_ne_value (hn : (numbers (Node.mapping h es).parts).Nodup) (he : e ∈ es) (he' : e' ∈ es)
    (hsolid : e.1.isSolid = true) : e.1 ≠ e'.2 := by
  intro heq
  have hin : e.1 ∈ e'.2.parts := heq ▸ Node.mem_parts_self e.1
  obtain ⟨hpairs, hacross⟩ := List.pairwise_flatMap.mp (children_apart hn).2
  by_cases hsame : e = e'
  · subst hsame
    exact (List.rel_of_pairwise_cons (hpairs e he) (List.mem_singleton_self _)).not_mem hsolid (Node.mem_parts_self _) hin
  · have : Std.Symm fun a b : Node × Node => ∀ x ∈ [a.1, a.2], ∀ y ∈ [b.1, b.2], x.Apart y :=
      ⟨fun _ _ h x hx y hy => (h y hy x hx).symm⟩
    exact (hacross.forall he he' hsame e.1 (by simp) e'.2 (by simp)).not_mem hsolid (Node.mem_parts_self _) hin

end Places

/-- The numbers of the nodes that aliases stand for. -/
def aliased (root : Node) : List Nat := (root.parts.filter (!·.isSolid)).map (·.head.id)

namespace Make

/-- A key that stands by itself: the document is without sets and lists of pairs, which take keys as values, and no part
of the key is an alias or has one. -/
structure Separate (root k : Node) : Prop where
  keyed : ∀ n ∈ root.parts, n.head.tag ∉ [Tag.set, Tag.orderedMap, Tag.pairs]
  unaliased : ∀ p ∈ k.parts, p.head.id ∉ aliased root

instance (root k : Node) : Decidable (Separate root k) :=
  decidable_of_iff ((∀ n ∈ root.parts, n.head.tag ∉ [Tag.set, Tag.orderedMap, Tag.pairs]) ∧
    ∀ p ∈ k.parts, p.head.id ∉ aliased root) ⟨fun h => ⟨h.1, h.2⟩, fun h => ⟨h.keyed, h.unaliased⟩⟩

mutual

/-- The value that a node has by itself. A collection has one if there are no aliases and no merge keys in it. -/
def ownValue? : Node → Option Value
  | .scalar h t => if isScalarTag (keyTag h) then (scalarOf (.scalar h t) (keyTag h) t).toOption else none
  | .sequence h ns => if h.tag = Tag.sequence then (ownValues? ns).map fun vs => .anchor h.id (.list vs) else none
  | .mapping h es => if h.tag = Tag.mapping then (ownEntries? es).map fun ps => .anchor h.id (.map false ps) else none
  | .alias _ => none

def ownValues? : List Node → Option (List Value)
  | [] => some []
  | n :: ns => do
    let v ← ownValue? n
    pure (v :: (← ownValues? ns))

def ownEntries? : List (Node × Node) → Option (List (Value × Value))
  | [] => some []
  | (k, v) :: es => do
    let name ← (ownValue? k).bind fun key => key.asName.toOption
    let x ← ownValue? v
    pure ((.text name, x) :: (← ownEntries? es))

end

/-- The name that a key has by itself. -/
def keyName? (root : Node) : Node → Option Text
  | .scalar h t => nameOf? (.scalar h t)
  | n => if Separate root n then (ownValue? n).bind fun v => v.asName.toOption else none

/-- A node lies in a key that stands by itself. -/
def Enclosed (root n : Node) : Prop := ∃ e, IsEntry root e ∧ Separate root e.1 ∧ n ∈ e.1.parts

section Enclosed

variable {d : Document} {root n m c k q : Node} {ns : List Node} {own : List (Node × Node)} {e : Node × Node} {h : Head}

lemma mem_aliased (hn : n ∈ root.parts) (hsolid : n.isSolid = false) : n.head.id ∈ aliased root :=
  List.mem_map_of_mem (List.mem_filter.mpr ⟨hn, by rw [hsolid]; rfl⟩)

lemma Separate.isSolid (h : Separate root k) (hk : k ∈ root.parts) (hn : n ∈ k.parts) : n.isSolid = true :=
  Bool.not_eq_false _ ▸ fun hsolid => h.unaliased n hn (mem_aliased (parts_subset hk hn) hsolid)

lemma Enclosed.mem (h : Enclosed root n) : n ∈ root.parts := by
  obtain ⟨e, he, -, hn⟩ := h
  exact parts_subset he.parts.1 hn

lemma Enclosed.isSolid (h : Enclosed root n) : n.isSolid = true := by
  obtain ⟨e, he, hseparate, hn⟩ := h
  exact hseparate.isSolid he.parts.1 hn

lemma Enclosed.follow (h : Enclosed root n) : Make.follow d.source n = n := follow_of_solid _ h.isSolid

lemma Enclosed.child (h : Enclosed root n) (hc : c ∈ n.children) : Enclosed root c := by
  obtain ⟨e, he, hseparate, hn⟩ := h
  exact ⟨e, he, hseparate, Node.parts_trans e.1 hn hc⟩

lemma Separate.enclosed (h : Separate root e.1) (he : IsEntry root e) : Enclosed root e.1 := ⟨e, he, h, Node.mem_parts_self _⟩

lemma Separate.of_mem (h : Separate root k) (hn : n ∈ k.parts) : Separate root n :=
  ⟨h.keyed, fun p hp => h.unaliased p (parts_subset hn hp)⟩

lemma Enclosed.separate (h : Enclosed root n) : Separate root n := by
  obtain ⟨e, -, hseparate, hn⟩ := h
  exact hseparate.of_mem hn

/-- What is enclosed is a key, or its parent is enclosed. -/
lemma Enclosed.parent (hd : Numbered d root) (hq : q ∈ root.parts) (hc : c ∈ q.children) (h : Enclosed root c) :
    Enclosed root q ∨ ∃ e ∈ q.entries, e.1 = c := by
  obtain ⟨e, he, hseparate, hin⟩ := h
  have hsolid := hseparate.isSolid he.parts.1 hin
  rcases parent_mem_parts hd.distinct hq hc hsolid he.parts.1 hin with rfl | hq'
  · obtain ⟨h, own, hm, he⟩ := he
    obtain rfl := parent_unique hd.distinct hq hm hsolid hc (List.mem_flatMap.mpr ⟨e, he, by simp⟩)
    exact .inr ⟨e, he, rfl⟩
  · exact .inl ⟨e, he, hseparate, hq'⟩

lemma not_enclosed_item (hd : Numbered d root) (hq : .sequence h ns ∈ root.parts) (hno : ¬Enclosed root (.sequence h ns))
    (hn : n ∈ ns) : ¬Enclosed root n := by
  intro hin
  obtain ⟨e, he, -⟩ := (hin.parent hd hq hn).resolve_left hno
  exact absurd he List.not_mem_nil

lemma not_enclosed_value (hd : Numbered d root) (hn : .mapping h own ∈ root.parts) (hno : ¬Enclosed root (.mapping h own))
    (he : e ∈ own) : ¬Enclosed root e.2 := by
  intro hin
  obtain ⟨e', he', heq⟩ := (hin.parent hd hn (List.mem_flatMap.mpr ⟨e, he, by simp⟩)).resolve_left hno
  exact key_ne_value (nodup_of_mem_parts hd.distinct hn) he' he (heq ▸ hin.isSolid) heq

lemma not_enclosed_root : ¬Enclosed root root := by
  rintro ⟨e, ⟨h, own, hm, he⟩, -, hroot⟩
  have hchild : e.1 ∈ (Node.mapping h own).children := List.mem_flatMap.mpr ⟨e, he, by simp⟩
  exact not_mem_parts_child hchild (parts_subset hroot hm)

/-- An alias has the number of the node that it stands for. -/
lemma id_follow (hd : Numbered d root) : (follow d.source n).head.id = n.head.id := by
  cases n with
  | «alias» id =>
    rw [follow]
    cases hl : d.source.anchored.lookup id with
    | none => rfl
    | some m => exact (hd.anchored _ (mem_of_lookup hl)).2.2.symm
  | _ => rfl

/-- Nothing that stands by itself is met by way of an alias. -/
lemma Separate.isSolid_of_follow (hd : Numbered d root) (hn : n ∈ root.parts) (h : Separate root (follow d.source n)) :
    n.isSolid = true := by
  cases hsolid : n.isSolid with
  | true => rfl
  | false =>
    refine absurd ?_ (h.unaliased _ (Node.mem_parts_self _))
    rw [id_follow hd]
    exact mem_aliased hn hsolid

lemma not_enclosed_follow (hd : Numbered d root) (hn : n ∈ root.parts) (hno : ¬Enclosed root n) :
    ¬Enclosed root (follow d.source n) := by
  intro hin
  rw [follow_of_solid _ (hin.separate.isSolid_of_follow hd hn)] at hin
  exact hno hin

lemma not_enclosed_listed (hd : Numbered d root) (hn : n ∈ root.parts) (hno : ¬Enclosed root n) :
    ∀ g ∈ listed d.source n, ¬Enclosed root g := by
  have hfollow := not_enclosed_follow hd hn hno
  have hmem := follow_mem hd hn
  rw [listed]
  split
  · next h own heq => exact List.forall_mem_singleton.mpr (heq ▸ hfollow)
  · next h items heq =>
    rw [heq] at hfollow hmem
    exact List.forall_mem_map.mpr fun m hm =>
      not_enclosed_follow hd (Node.parts_trans root hmem hm) (not_enclosed_item hd hmem hfollow hm)
  · simp

/-- What is not enclosed absorbs nothing that is. -/
lemma not_enclosed_absorbs (hd : Numbered d root) (hn : n ∈ root.parts) (hno : ¬Enclosed root n)
    (h : Absorbs d.source n m) : ¬Enclosed root m := by
  induction h with
  | refl => exact hno
  | @merge n g m e he hm hg _ ih =>
    have hentry := isEntry_of_mem hn he
    have hvalue : ¬Enclosed root e.2 := by
      cases n with
      | mapping h own => exact not_enclosed_value hd hn hno he
      | _ => exact absurd he List.not_mem_nil
    exact ih (listed_mem hd hentry.parts.2 g hg) (not_enclosed_listed hd hentry.parts.2 hvalue g hg)

lemma Comes.not_enclosed (hd : Numbered d root) (hn : n ∈ root.parts) (hno : ¬Enclosed root n) (h : Comes d n e) :
    ¬Enclosed root (follow d.source e.2) := by
  obtain ⟨m, habsorbs, he⟩ := h
  have hm := (habsorbs.mem hd hn).1
  have hm' := not_enclosed_absorbs hd hn hno habsorbs
  cases m with
  | mapping h own => exact not_enclosed_follow hd (isEntry_of_mem hm he).parts.2 (not_enclosed_value hd hm hm' he)
  | _ => exact absurd he List.not_mem_nil

end Enclosed

end Make

end DocPath.Yaml
