import DocPath.Proofs.Value.Links
import DocPath.Proofs.Yaml.Loadable

/-! What is known while the values of a document are made by either rule for keys. A collection owns its own number
and those of its parts that are no nodes, and only filling it changes what they stand for. -/

namespace DocPath.Yaml

/-- An empty scalar or sequence. -/
def Node.isBlank : Node → Bool
  | .scalar _ [] | .sequence _ [] => true
  | _ => false

namespace Make

open Value (Refers)

/-- A value that a node can have. -/
structure IsValueOf (d : Document) (root n : Node) (v : Value) : Prop where
  link : isCollectionTag n.head.tag = true → v = .alias n.head.id
  scalar : isCollectionTag n.head.tag = false →
    ∃ tag, IsTagOf n tag ∧ isScalarTag tag = true ∧ IsScalar n.head.id tag v
  means : Clear d root → isCollectionTag n.head.tag = false → isScalarTag n.head.tag = true ∧ Means d n v

/-- A pair of values made of an entry whose key counts as it is. -/
structure ByValue (d : Document) (s : Making) (e : Node × Node) (p : Value × Value) : Prop where
  key : Has d.source s e.1 p.1
  value : Has d.source s e.2 p.2
  scalar : isCollectionTag (follow d.source e.1).head.tag = false

/-- A pair of values made of an entry whose key counts by its name. -/
structure ByName (d : Document) (s : Making) (e : Node × Node) (p : Value × Value) : Prop where
  key : ∃ k name, Has d.source s e.1 k ∧ p.1 = .text name ∧ ∀ t, k = .text t → name = t
  value : Has d.source s e.2 p.2

/-- A pair of values made of an entry of a mapping. -/
def Paired (d : Document) : KeyRule → Making → Node × Node → Value × Value → Prop
  | .names => ByName d
  | .values => ByValue d

/-- The part at a place of a list of pairs is made of a mapping with one entry. -/
structure Listed (d : Document) (s : Making) (id place : Nat) (item : Node) : Prop where
  made : ∃ g own e k x, follow d.source item = .mapping g own ∧ Gathered d (.mapping g own) [e] ∧
    Has d.source s e.1 k ∧ Has d.source s e.2 x ∧ s.contents.lookup (partId d.size id place) = some (.tuple [k, x])

/-- The content of a list of pairs. -/
def pairList (size id : Nat) (items : List Node) : Value :=
  .list (items.zipIdx.map fun p => .alias (partId size id p.2))

/-- The content of a collection is made of the values of its nodes. If keys are names, a blank node counts as a mapping. -/
inductive Filled (d : Document) (rule : KeyRule) (s : Making) : Node → Prop
  | sequence {h : Head} {items : List Node} {xs : List Value} (tag : h.tag = Tag.sequence)
      (made : List.Forall₂ (Has d.source s) items xs) (content : s.contents.lookup h.id = some (.list xs)) :
      Filled d rule s (.sequence h items)
  | pairs {h : Head} {items : List Node} (tag : h.tag = Tag.orderedMap ∨ h.tag = Tag.pairs)
      (made : ∀ p ∈ items.zipIdx, Listed d s h.id p.2 p.1)
      (content : s.contents.lookup h.id = some (pairList d.size h.id items)) : Filled d rule s (.sequence h items)
  | set {h : Head} {own es : List (Node × Node)} {ps : List (Value × Value)} (tag : h.tag = Tag.set)
      (gathered : Gathered d (.mapping h own) es) (made : List.Forall₂ (ByValue d s) es ps)
      (content : s.contents.lookup h.id = some (.set false (Value.elementsOf (ps.map (·.1)).eraseDups))) :
      Filled d rule s (.mapping h own)
  | mapping {h : Head} {own es : List (Node × Node)} {ps : List (Value × Value)} (tag : h.tag = Tag.mapping)
      (gathered : Gathered d (.mapping h own) es) (made : List.Forall₂ (Paired d rule s) es ps)
      (content : s.contents.lookup h.id = some (.map false (Value.entriesOf ps))) : Filled d rule s (.mapping h own)
  | blank {n : Node} (names : rule = .names) (tag : n.head.tag = Tag.mapping) (empty : n.isBlank = true)
      (content : s.contents.lookup n.head.id = some (.map false [])) : Filled d rule s n

/-- A collection that is made waits with nothing in it, is being filled or has its content. -/
inductive Provided (d : Document) (rule : KeyRule) (filling : List Node) (s : Making) (n : Node) : Prop
  | waiting (pending : n ∈ s.pending) (content : s.contents.lookup n.head.id = some (emptyContent n.head.tag))
  | filling (mem : n ∈ filling)
  | filled (filled : Filled d rule s n)

/-- A mapping that is made leads to other mappings only as far as these are made before. -/
inductive Founded (root : Node) (s : Making) : Node → Prop
  | intro {n : Node} (done : s.done.lookup n.head.id ≠ none)
      (below : n.head.tag = Tag.mapping → ∀ c, s.contents.lookup n.head.id = some c →
        ∀ m ∈ root.parts, m.isSolid = true → Refers m.head.id c → Founded root s m) : Founded root s n

/-- A node that may wait to be filled. -/
def CanFill (rule : KeyRule) (root n : Node) : Prop :=
  n ∈ root.parts ∧ n.isSolid = true ∧ isFilledTag rule n.head.tag = true

/-- What is known of a node that is made. -/
structure Accounted (d : Document) (root : Node) (rule : KeyRule) (filling : List Node) (s : Making) (n : Node)
    (v : Value) : Prop where
  value : IsValueOf d root n v
  provided : isCollectionTag n.head.tag = true → Provided d rule filling s n
  founded : rule = .names → Founded root s n

/-- What is known of a node that waits to be filled. -/
structure Waits (d : Document) (root : Node) (rule : KeyRule) (s : Making) (n : Node) : Prop where
  can : CanFill rule root n
  begun : s.done.lookup n.head.id ≠ none ∨ n.head.id ∈ s.active
  reached : Loadable d root rule → Reached d root n

/-- What holds between any two steps. -/
structure Loading (d : Document) (root : Node) (rule : KeyRule) (filling : List Node) (s : Making) : Prop where
  sourced : Sourced d root s
  texts : Clear d root → s.texts = []
  done : ∀ n ∈ root.parts, n.isSolid = true → ∀ v, s.done.lookup n.head.id = some v →
    Accounted d root rule filling s n v
  active : ∀ id ∈ s.active, s.done.lookup id = none ∧ id < d.size
  nodup : s.active.Nodup
  pending : ∀ n ∈ s.pending, Waits d root rule s n
  filling : ∀ n ∈ filling, CanFill rule root n
  size : s.size = d.size

/-- A step to a state of which as much is known. What is owned by nodes that are made or begun stays, unless these are
among the touched ones. -/
structure Proceeds (d : Document) (root : Node) (rule : KeyRule) (filling : List Node) (touched : List Nat) (slack : Nat)
    (s s' : Making) : Prop where
  loading : Loading d root rule filling s'
  active : s'.active = s.active
  done : ∀ id v, s.done.lookup id = some v → s'.done.lookup id = some v
  kept : ∀ l, l % d.size ∉ touched → s.done.lookup (l % d.size) ≠ none ∨ l % d.size ∈ s.active →
    s'.contents.lookup l = s.contents.lookup l
  bounded : left d.size s' ≤ left d.size s + slack

/-- A node with a number that is not made yet or is being filled. -/
def Open (root : Node) (filling : List Node) (s : Making) (id : Nat) : Prop :=
  ∀ n ∈ root.parts, n.isSolid = true → n.head.id = id → s.done.lookup id ≠ none → n ∈ filling

/-- A node is being made or filled. -/
def Busy (filling : List Node) (s : Making) (id : Nat) : Prop :=
  id ∈ s.active ∨ s.done.lookup id ≠ none ∧ ∃ n ∈ filling, n.head.id = id

section Growth

variable {d : Document} {root n : Node} {rule : KeyRule} {filling : List Node} {s s' : Making} {e : Node × Node}
  {p : Value × Value} {id place size : Nat} {item : Node} {v : Value}

lemma partId_mod (place : Nat) (h : id < size) : partId size id place % size = id := by
  rw [partId, Nat.mul_add_mod, Nat.mod_eq_of_lt h]

lemma IsScalar.unfold {tag : Text} {contents : List (Nat × Value)} (h : IsScalar id tag v) : v.unfold contents = v := by
  cases h <;> rfl

lemma IsValueOf.refers {l : Nat} (hv : IsValueOf d root n v) (h : Refers l v) :
    isCollectionTag n.head.tag = true ∧ l = n.head.id := by
  cases htag : isCollectionTag n.head.tag with
  | true =>
    rw [hv.link htag, Value.refers_link] at h
    exact ⟨rfl, h.symm⟩
  | false =>
    obtain ⟨tag, -, -, hscalar⟩ := hv.scalar htag
    cases hscalar <;> simp at h

lemma partId_inj {place' : Nat} (hsize : 0 < size) (h : partId size id place = partId size id place') : place = place' :=
  Nat.succ.inj (Nat.eq_of_mul_eq_mul_left hsize (Nat.add_right_cancel h))

lemma ByValue.mono (h : ByValue d s e p) (hdone : ∀ id v, s.done.lookup id = some v → s'.done.lookup id = some v) :
    ByValue d s' e p :=
  ⟨hdone _ _ h.key, hdone _ _ h.value, h.scalar⟩

lemma ByName.mono (h : ByName d s e p) (hdone : ∀ id v, s.done.lookup id = some v → s'.done.lookup id = some v) :
    ByName d s' e p := by
  obtain ⟨⟨k, name, hk, hname⟩, hvalue⟩ := h
  exact ⟨⟨k, name, hdone _ _ hk, hname⟩, hdone _ _ hvalue⟩

lemma Paired.mono (h : Paired d rule s e p) (hdone : ∀ id v, s.done.lookup id = some v → s'.done.lookup id = some v) :
    Paired d rule s' e p := by
  cases rule with
  | names => exact ByName.mono h hdone
  | values => exact ByValue.mono h hdone

lemma Listed.mono (h : Listed d s id place item)
    (hdone : ∀ id v, s.done.lookup id = some v → s'.done.lookup id = some v)
    (hkept : s'.contents.lookup (partId d.size id place) = s.contents.lookup (partId d.size id place)) :
    Listed d s' id place item := by
  obtain ⟨g, own, e, k, x, hitem, hgathered, hk, hx, hpart⟩ := h.made
  exact ⟨g, own, e, k, x, hitem, hgathered, hdone _ _ hk, hdone _ _ hx, hkept.trans hpart⟩

lemma Filled.mono (h : Filled d rule s n) (hid : n.head.id < d.size)
    (hdone : ∀ id v, s.done.lookup id = some v → s'.done.lookup id = some v)
    (hkept : ∀ l, l % d.size = n.head.id → s'.contents.lookup l = s.contents.lookup l) : Filled d rule s' n := by
  have hown := hkept n.head.id (Nat.mod_eq_of_lt hid)
  cases h with
  | sequence tag made content => exact .sequence tag (made.imp fun _ _ h => hdone _ _ h) (hown.trans content)
  | pairs tag made content =>
    exact .pairs tag (fun p hp => (made p hp).mono hdone (hkept _ (partId_mod _ hid))) (hown.trans content)
  | set tag gathered made content => exact .set tag gathered (made.imp fun _ _ h => h.mono hdone) (hown.trans content)
  | mapping tag gathered made content =>
    exact .mapping tag gathered (made.imp fun _ _ h => h.mono hdone) (hown.trans content)
  | blank names tag empty content => exact .blank names tag empty (hown.trans content)

lemma Filled.content (h : Filled d rule s n) : ∃ c, s.contents.lookup n.head.id = some c := by
  cases h with
  | sequence _ _ content => exact ⟨_, content⟩
  | pairs _ _ content => exact ⟨_, content⟩
  | set _ _ _ content => exact ⟨_, content⟩
  | mapping _ _ _ content => exact ⟨_, content⟩
  | blank _ _ _ content => exact ⟨_, content⟩

lemma Provided.mono (h : Provided d rule filling s n) (hid : n.head.id < d.size)
    (hdone : ∀ id v, s.done.lookup id = some v → s'.done.lookup id = some v) (hpending : s.pending ⊆ s'.pending)
    (hkept : ∀ l, l % d.size = n.head.id → s'.contents.lookup l = s.contents.lookup l) :
    Provided d rule filling s' n := by
  cases h with
  | waiting pending content =>
    exact .waiting (hpending pending) ((hkept _ (Nat.mod_eq_of_lt hid)).trans content)
  | filling mem => exact .filling mem
  | filled filled => exact .filled (filled.mono hid hdone hkept)

lemma Founded.mono (h : Founded root s n) (hn : n ∈ root.parts) (hsolid : n.isSolid = true)
    (hdone : ∀ id v, s.done.lookup id = some v → s'.done.lookup id = some v)
    (hkept : ∀ m ∈ root.parts, m.isSolid = true → m.head.tag = Tag.mapping → s.done.lookup m.head.id ≠ none →
      s'.contents.lookup m.head.id = s.contents.lookup m.head.id) : Founded root s' n := by
  induction h with
  | @intro n done _ ih =>
    obtain ⟨v, hv⟩ := Option.ne_none_iff_exists'.mp done
    refine .intro (by rw [hdone _ v hv]; simp) fun htag c hc m hm hsolid' hrefers => ?_
    exact ih htag c ((hkept n hn hsolid htag done).symm.trans hc) m hm hsolid' hrefers hm hsolid'

end Growth

section Steps

variable {d : Document} {root n : Node} {rule : KeyRule} {filling : List Node} {touched touched' : List Nat}
  {slack slack' id place : Nat} {active : List Nat} {s s' s'' : Making} {h : Head} {own es : List (Node × Node)} {v : Value}

lemma Proceeds.refl (hl : Loading d root rule filling s) : Proceeds d root rule filling touched slack s s :=
  ⟨hl, rfl, fun _ _ h => h, fun _ _ _ => rfl, Nat.le_add_right _ _⟩

lemma Proceeds.trans (h : Proceeds d root rule filling touched slack s s')
    (h' : Proceeds d root rule filling touched slack' s' s'') :
    Proceeds d root rule filling touched (slack + slack') s s'' where
  loading := h'.loading
  active := h'.active.trans h.active
  done id v hv := h'.done id v (h.done id v hv)
  kept l hl howner := by
    refine (h'.kept l hl (howner.imp (fun hdone => ?_) fun hin => h.active ▸ hin)).trans (h.kept l hl howner)
    obtain ⟨v, hv⟩ := Option.ne_none_iff_exists'.mp hdone
    rw [h.done _ v hv]
    simp
  bounded := by
    have hfirst := h.bounded
    have hsecond := h'.bounded
    omega

lemma Proceeds.widen (h : Proceeds d root rule filling touched slack s s') (ht : touched ⊆ touched')
    (hslack : slack ≤ slack') : Proceeds d root rule filling touched' slack' s s' :=
  ⟨h.loading, h.active, h.done, fun l hl => h.kept l fun hin => hl (ht hin), h.bounded.trans (Nat.add_le_add_left hslack _)⟩

/-- A change that makes no node. Only what open nodes own is changed. -/
lemma Proceeds.of_same (ns : List Node) (hl : Loading d root rule filling s) (hsourced : Sourced d root s')
    (htexts : Clear d root → s'.texts = []) (hdone : s'.done = s.done) (hactive : s'.active = s.active)
    (hsize : s'.size = s.size) (hpending : s'.pending = s.pending ++ ns)
    (hns : ∀ n ∈ ns, Waits d root rule s n) (hslack : ns.length ≤ slack) (hkept : ∀ l, l % d.size ∉ touched → s'.contents.lookup l = s.contents.lookup l)
    (hd : Numbered d root) (hopen : ∀ id ∈ touched, Open root filling s id) :
    Proceeds d root rule filling touched slack s s' := by
  have hgrown (id : Nat) (v : Value) (hv : s.done.lookup id = some v) : s'.done.lookup id = some v := hdone ▸ hv
  have howner {m : Node} (hm : m ∈ root.parts) (hsolid : m.isSolid = true) : m.head.id % d.size = m.head.id :=
    Nat.mod_eq_of_lt (hd.bounded m hm hsolid)
  refine ⟨⟨hsourced, htexts, fun m hm hsolid v hv => ?_, ?_, ?_, ?_, hl.filling, hsize.trans hl.size⟩, hactive, hgrown,
    fun l hl _ => hkept l hl, ?_⟩
  · rw [hdone] at hv
    have hm' := hl.done m hm hsolid v hv
    refine ⟨hm'.value, fun htag => ?_, fun hrule => (hm'.founded hrule).mono hm hsolid hgrown ?_⟩
    · by_cases hin : m.head.id ∈ touched
      · exact .filling (hopen _ hin m hm hsolid rfl (by rw [hv]; simp))
      · exact (hm'.provided htag).mono (hd.bounded m hm hsolid) hgrown (hpending ▸ List.subset_append_left _ _)
          fun l hl => hkept l (hl ▸ hin)
    · subst hrule
      intro g hg hsolid' htag hmade
      refine hkept _ ?_
      rw [howner hg hsolid']
      exact fun hin => ne_mapping_of_filled (hl.filling g (hopen _ hin g hg hsolid' rfl hmade)).2.2 htag
  · rw [hactive, hdone]
    exact hl.active
  · rw [hactive]
    exact hl.nodup
  · intro m hm
    have hwaits : Waits d root rule s m := by
      rw [hpending] at hm
      exact (List.mem_append.mp hm).elim (hl.pending m) (hns m)
    exact ⟨hwaits.can, by rw [hdone, hactive]; exact hwaits.begun, hwaits.reached⟩
  · rw [left, left, unmade, unmade, hdone, hpending, List.length_append]
    omega

lemma Proceeds.rewrites (hl : Loading d root rule filling s) (hd : Numbered d root) (hr : Rewrites s s')
    (hs : Sourced d root s') (hclear : Clear d root → s' = s) : Proceeds d root rule filling touched slack s s' := by
  have hdone : s'.done = s.done := by rw [hr]
  have hactive : s'.active = s.active := by rw [hr]
  have hsize : s'.size = s.size := by rw [hr]
  have hpending : s'.pending = s.pending := by rw [hr]
  have hcontents : s'.contents = s.contents := by rw [hr]
  have hnone : Proceeds d root rule filling [] slack s s' := by
    refine .of_same [] hl hs (fun h => (hclear h).symm ▸ hl.texts h) hdone hactive hsize
      (hpending.trans (List.append_nil _).symm) (by simp) (Nat.zero_le _) (fun l _ => by rw [hcontents]) hd (by simp)
  exact hnone.widen (List.nil_subset _) le_rfl

lemma Proceeds.sets {l : Nat} (hl : Loading d root rule filling s) (hd : Numbered d root) (hid : l % d.size = id)
    (hopen : Open root filling s id) :
    Proceeds d root rule filling [id] 0 s { s with contents := (l, v) :: s.contents } := by
  refine .of_same [] hl (hl.sourced.of_entries rfl) hl.texts rfl rfl rfl (List.append_nil _).symm (by simp)
    (Nat.le_refl _) (fun m hm => ?_) hd (List.forall_mem_singleton.mpr hopen)
  refine lookup_cons_of_ne ?_
  rintro rfl
  exact hm (List.mem_singleton.mpr hid)

lemma Proceeds.waits (hl : Loading d root rule filling s) (hd : Numbered d root) 
    (hn : Waits d root rule s n) :
    Proceeds d root rule filling touched 1 s { s with pending := s.pending ++ [n] } := by
  have hnone : Proceeds d root rule filling [] 1 s { s with pending := s.pending ++ [n] } :=
    .of_same [n] hl (hl.sourced.of_entries rfl) hl.texts rfl rfl rfl rfl  (List.forall_mem_singleton.mpr hn) le_rfl
      (fun _ _ => rfl) hd (by simp)
  exact hnone.widen (List.nil_subset _) le_rfl

lemma Busy.open (h : Busy filling s id) (hl : Loading d root rule filling s) (hd : Numbered d root) :
    Open root filling s id := by
  intro m hm hsolid he hmade
  rcases h with hin | ⟨-, n, hn, rfl⟩
  · exact absurd (hl.active id hin).1 hmade
  · obtain ⟨hpart, hsolid', -⟩ := hl.filling n hn
    rwa [hd.unique m hm hsolid n hpart hsolid' he]

lemma Busy.begun (h : Busy filling s id) : s.done.lookup id ≠ none ∨ id ∈ s.active :=
  h.elim .inr fun h => .inl h.1

lemma Busy.mono (h : Busy filling s id) (hp : Proceeds d root rule filling touched slack s s') : Busy filling s' id := by
  refine h.imp (fun hin => hp.active ▸ hin) fun ⟨hmade, hn⟩ => ⟨?_, hn⟩
  obtain ⟨v, hv⟩ := Option.ne_none_iff_exists'.mp hmade
  rw [hp.done _ v hv]
  simp

/-- A node begins to be made. -/
lemma Loading.activate (hl : Loading d root rule filling s) (hd : Numbered d root) (hn : n ∈ root.parts)
    (hsolid : n.isSolid = true) (hidle : s.done.lookup n.head.id = none) (hnew : n.head.id ∉ s.active) :
    Loading d root rule filling { s with active := n.head.id :: s.active } where
  sourced := hl.sourced.of_entries rfl
  texts := hl.texts
  done m hm hsolid v hv := by
    have hm' := hl.done m hm hsolid v hv
    exact ⟨hm'.value, fun htag => (hm'.provided htag).mono (hd.bounded m hm hsolid) (fun _ _ h => h)
      (List.Subset.refl _) fun _ _ => rfl, fun hrule => (hm'.founded hrule).mono hm hsolid (fun _ _ h => h)
      fun _ _ _ _ _ => rfl⟩
  active := List.forall_mem_cons.mpr ⟨⟨hidle, hd.bounded n hn hsolid⟩, hl.active⟩
  nodup := List.nodup_cons.mpr ⟨hnew, hl.nodup⟩
  pending m hm := by
    have hm' := hl.pending m hm
    exact ⟨hm'.can, hm'.begun.imp_right (List.mem_cons_of_mem _), hm'.reached⟩
  filling := hl.filling
  size := hl.size

/-- A node is made: from now on its value is known. -/
lemma Loading.finish (hl : Loading d root rule filling s') (hd : Numbered d root) (hn : n ∈ root.parts)
    (hsolid : n.isSolid = true) (hactive : s'.active = n.head.id :: active) (hvalue : IsValueOf d root n v)
    (hprovided : isCollectionTag n.head.tag = true → Provided d rule filling s' n)
    (hbelow : rule = .names → n.head.tag = Tag.mapping → ∀ c, s'.contents.lookup n.head.id = some c →
      ∀ m ∈ root.parts, m.isSolid = true → Refers m.head.id c → s'.done.lookup m.head.id ≠ none)
    (hgrown : ∀ id w, s'.done.lookup id = some w → ((n.head.id, v) :: s'.done).lookup id = some w) :
    Loading d root rule filling { s' with done := (n.head.id, v) :: s'.done, active := active } where
  sourced := hl.sourced.of_entries rfl
  texts := hl.texts
  done m hm hsolid' w hw := by
    have hkept (hp : Provided d rule filling s' m) :
        Provided d rule filling { s' with done := (n.head.id, v) :: s'.done, active := active } m :=
      hp.mono (hd.bounded m hm hsolid') hgrown (List.Subset.refl _) fun _ _ => rfl
    have hfounded {g : Node} (hg : g ∈ root.parts) (hs : g.isSolid = true) (hf : Founded root s' g) :
        Founded root { s' with done := (n.head.id, v) :: s'.done, active := active } g :=
      hf.mono hg hs hgrown fun _ _ _ _ _ => rfl
    by_cases he : m.head.id = n.head.id
    · obtain rfl := hd.unique m hm hsolid' n hn hsolid he
      obtain rfl := Option.some.inj (lookup_cons_self.symm.trans hw)
      refine ⟨hvalue, fun htag => hkept (hprovided htag), fun hrule => ?_⟩
      refine .intro (by rw [hw]; simp) fun htag c hc g hg hsolid'' hrefers => hfounded hg hsolid'' ?_
      obtain ⟨u, hu⟩ := Option.ne_none_iff_exists'.mp (hbelow hrule htag c hc g hg hsolid'' hrefers)
      exact (hl.done g hg hsolid'' u hu).founded hrule
    · have hs := hl.done m hm hsolid' w ((lookup_cons_of_ne he).symm.trans hw)
      exact ⟨hs.value, fun htag => hkept (hs.provided htag), fun hrule => hfounded hm hsolid' (hs.founded hrule)⟩
  active id hid := by
    obtain ⟨hnone, hlt⟩ := hl.active id (hactive ▸ List.mem_cons_of_mem _ hid)
    have hnodup := hl.nodup
    rw [hactive] at hnodup
    have hne : id ≠ n.head.id := fun he => (List.nodup_cons.mp hnodup).1 (he ▸ hid)
    exact ⟨(lookup_cons_of_ne hne).trans hnone, hlt⟩
  nodup := (List.nodup_cons.mp (hactive ▸ hl.nodup)).2
  pending m hm := by
    have hm' := hl.pending m hm
    refine ⟨hm'.can, ?_, hm'.reached⟩
    by_cases he : m.head.id = n.head.id
    · exact .inl (by rw [he, lookup_cons_self]; simp)
    · refine hm'.begun.imp (fun hmade => ?_) fun hin => ?_
      · rwa [lookup_cons_of_ne he]
      · exact (List.mem_cons.mp (hactive ▸ hin)).resolve_left he
  filling := hl.filling
  size := hl.size

/-- What has been done since a node was begun, once it is made. -/
lemma Proceeds.finish (hd : Numbered d root) (hn : n ∈ root.parts) (hsolid : n.isSolid = true)
    (hidle : s.done.lookup n.head.id = none) (hnew : n.head.id ∉ s.active)
    (h : Proceeds d root rule filling [n.head.id] 1 { s with active := n.head.id :: s.active } s')
    (hvalue : IsValueOf d root n v)
    (hprovided : isCollectionTag n.head.tag = true → Provided d rule filling s' n)
    (hbelow : rule = .names → n.head.tag = Tag.mapping → ∀ c, s'.contents.lookup n.head.id = some c →
      ∀ m ∈ root.parts, m.isSolid = true → Refers m.head.id c → s'.done.lookup m.head.id ≠ none) :
    Proceeds d root rule filling [] 0 s
      { s' with done := (n.head.id, v) :: s'.done, active := s'.active.filter (· != n.head.id) } := by
  have hactive : s'.active = n.head.id :: s.active := h.active
  have hidle' : s'.done.lookup n.head.id = none := (h.loading.active _ (hactive ▸ List.mem_cons_self)).1
  rw [show s'.active.filter (· != n.head.id) = s.active by rw [hactive, filter_active hnew]]
  have hgrown (id : Nat) (w : Value) (hw : s'.done.lookup id = some w) :
      ((n.head.id, v) :: s'.done).lookup id = some w := by
    rwa [lookup_cons_of_ne]
    rintro rfl
    rw [hidle'] at hw
    cases hw
  refine ⟨h.loading.finish hd hn hsolid hactive hvalue hprovided hbelow hgrown, rfl,
    fun id w hw => hgrown id w (h.done id w hw), fun l hl howner => ?_, ?_⟩
  · refine h.kept l (fun hin => ?_) (howner.imp_right fun hin => List.mem_cons_of_mem _ hin)
    -- the node itself was neither made nor begun before
    rw [List.mem_singleton.mp hin] at howner
    exact howner.elim (fun hmade => hmade hidle) hnew
  · have hlt : (unmade d.size { s' with done := (n.head.id, v) :: s'.done, active := s.active }).card <
        (unmade d.size s').card := card_unmade_lt (hd.bounded n hn hsolid) hidle'
    have hle : s'.pending.length + (unmade d.size s').card ≤ left d.size s + 1 := h.bounded
    show s'.pending.length + (unmade d.size { s' with done := (n.head.id, v) :: s'.done, active := s.active }).card ≤
      left d.size s + 0
    omega

/-- The first node that waits begins to be filled. -/
lemma Loading.begin {rest : List Node} (hl : Loading d root rule [] s) (hd : Numbered d root)
    (hs : s.pending = n :: rest) : Loading d root rule [n] { s with pending := rest } where
  sourced := hl.sourced.of_entries rfl
  texts := hl.texts
  done m hm hsolid v hv := by
    have hm' := hl.done m hm hsolid v hv
    refine ⟨hm'.value, fun htag => ?_, fun hrule => (hm'.founded hrule).mono hm hsolid (fun _ _ h => h)
      fun _ _ _ _ _ => rfl⟩
    cases hm'.provided htag with
    | waiting pending content =>
      rw [hs] at pending
      rcases List.mem_cons.mp pending with rfl | hin
      · exact .filling (List.mem_singleton_self _)
      · exact .waiting hin content
    | filling mem => exact absurd mem List.not_mem_nil
    | filled filled => exact .filled (filled.mono (hd.bounded m hm hsolid) (fun _ _ h => h) fun _ _ => rfl)
  active := hl.active
  nodup := hl.nodup
  pending m hm := by
    have hm' := hl.pending m (hs ▸ List.mem_cons_of_mem _ hm)
    exact ⟨hm'.can, hm'.begun, hm'.reached⟩
  filling := List.forall_mem_singleton.mpr (hl.pending n (hs ▸ List.mem_cons_self)).can
  size := hl.size

/-- The node that has been filled is like any other. -/
lemma Loading.filled (hl : Loading d root rule [n] s) (hfilled : Filled d rule s n) : Loading d root rule [] s where
  sourced := hl.sourced
  texts := hl.texts
  done m hm hsolid v hv := by
    have hm' := hl.done m hm hsolid v hv
    refine ⟨hm'.value, fun htag => ?_, hm'.founded⟩
    cases hm'.provided htag with
    | waiting pending content => exact .waiting pending content
    | filling mem => exact .filled (List.mem_singleton.mp mem ▸ hfilled)
    | filled filled => exact .filled filled
  active := hl.active
  nodup := hl.nodup
  pending m hm := by
    have hm' := hl.pending m hm
    exact ⟨hm'.can, hm'.begun, hm'.reached⟩
  filling _ hm := absurd hm List.not_mem_nil
  size := hl.size

end Steps

end Make

end DocPath.Yaml
