import DocPath.Proofs.Yaml.Filling

/-! The value of a document with the form of a tree. Its collections are unfolded one inside the other, so no
label comes up twice on the way down and all labels are dropped in the end. -/

namespace DocPath.Yaml

open Value

namespace Tree

/-- The name of a key that is a scalar. -/
def keyName : Tree → Text
  | .scalar tag t => scalarName tag t
  | _ => []

mutual

/-- What a tree of readable scalars means. -/
def meaning : Tree → Value
  | .scalar tag t => (plainScalar tag t).toOption.getD .null
  | .sequence ts => .list (meanings ts)
  | .mapping _ es => .map false (meaningEntries es)
  | _ => .null

def meanings : List Tree → List Value
  | [] => []
  | t :: ts => meaning t :: meanings ts

def meaningEntries : List (Tree × Tree) → List (Value × Value)
  | [] => []
  | (k, v) :: es => (.text (keyName k), meaning v) :: meaningEntries es

end

mutual

/-- No two keys of a mapping have one name. -/
def Distinct : Tree → Prop
  | .sequence ts => DistinctAll ts
  | .mapping _ es => (es.map (keyName ·.1)).Nodup ∧ DistinctEntries es
  | _ => True

def DistinctAll : List Tree → Prop
  | [] => True
  | t :: ts => Distinct t ∧ DistinctAll ts

def DistinctEntries : List (Tree × Tree) → Prop
  | [] => True
  | (_, v) :: es => Distinct v ∧ DistinctEntries es

end

end Tree

open Yaml.Tree Make

lemma length_meaningEntries (es : List (Tree × Tree)) : (meaningEntries es).length = es.length := by
  induction es with
  | nil => rfl
  | cons e es ih => rw [meaningEntries, List.length_cons, List.length_cons, ih]

mutual

/-- The keys of a tree have different names if those of its meaning are different texts. -/
theorem distinct_iff_textKeyed : (t : Tree) → Readable t → (t.Distinct ↔ t.meaning.TextKeyed)
  | .scalar tag t, ⟨_, v, hv⟩ => by
    rw [Tree.meaning, hv]
    refine iff_of_true trivial ?_
    rcases eq_of_plainScalar hv with rfl | ⟨s, rfl⟩ <;> trivial
  | .sequence ts, hr => distinctAll_iff_textKeyedAll ts hr
  | .mapping tag es, hr => by
    have hkeys : (meaningEntries es).map (·.1) = (es.map (keyName ·.1)).map Value.text := by
      induction es with
      | nil => rfl
      | cons e es ih => rw [meaningEntries, List.map_cons, ih ⟨hr.1, hr.2.2.2⟩, List.map_cons, List.map_cons]
    have htexts : ∀ e ∈ meaningEntries es, ∃ t, e.1 = .text t := fun e he => by
      have hmem := List.mem_map_of_mem (f := (·.1)) he
      rw [hkeys] at hmem
      obtain ⟨t, -, ht⟩ := List.mem_map.mp hmem
      exact ⟨t, ht.symm⟩
    have hnodup : ((es.map (keyName ·.1)).map Value.text).Nodup ↔ (es.map (keyName ·.1)).Nodup :=
      List.nodup_map_iff fun _ _ h => by simpa using h
    rw [Distinct, Tree.meaning, TextKeyed, hkeys, hnodup, distinctEntries_iff_textKeyedEntries es hr.2]
    exact (and_iff_right htexts).symm
  | .literal .., hr | .shared .., hr => absurd hr id

theorem distinctAll_iff_textKeyedAll : (ts : List Tree) → ReadableAll ts →
    (DistinctAll ts ↔ TextKeyedAll (meanings ts))
  | [], _ => Iff.rfl
  | t :: ts, hr => and_congr (distinct_iff_textKeyed t hr.1) (distinctAll_iff_textKeyedAll ts hr.2)

theorem distinctEntries_iff_textKeyedEntries : (es : List (Tree × Tree)) → ReadableEntries es →
    (DistinctEntries es ↔ TextKeyedEntries (meaningEntries es))
  | [], _ => Iff.rfl
  | (_, v) :: es, hr => and_congr (distinct_iff_textKeyed v hr.2.1) (distinctEntries_iff_textKeyedEntries es hr.2.2)

end

/-- There is fuel for the collections that are not being unfolded. -/
structure Room (contents : List (Nat × Value)) (fuel : Nat) (above : List Nat) (lo : Nat) : Prop where
  nodup : above.Nodup
  known : above ⊆ contents.map (·.1)
  lower : ∀ l ∈ above, l < lo
  fuel : fuel + above.length = contents.length + 1

section Unfold

variable {contents : List (Nat × Value)} {fuel lo lo' : Nat} {above : List Nat} {v : Value}

lemma Room.mono (h : Room contents fuel above lo) (hle : lo ≤ lo') : Room contents fuel above lo' :=
  ⟨h.nodup, h.known, fun l hl => Nat.lt_of_lt_of_le (h.lower l hl) hle, h.fuel⟩

/-- A collection is unfolded with a new label around it. -/
lemma Room.unfoldLabel (h : Room contents fuel above lo) (hv : contents.lookup lo = some v) :
    ∃ f, Room contents f (lo :: above) (lo + 1) ∧
      unfoldLabel contents fuel above lo = .anchor lo (substitute (unfoldLabel contents f (lo :: above)) v) := by
  have hnew : lo ∉ above := fun hmem => Nat.lt_irrefl _ (h.lower lo hmem)
  have hnodup : (lo :: above).Nodup := List.nodup_cons.mpr ⟨hnew, h.nodup⟩
  have hknown : lo :: above ⊆ contents.map (·.1) := List.cons_subset.mpr ⟨List.mem_map_of_mem (mem_of_lookup hv), h.known⟩
  have hlen := (List.subperm_of_subset hnodup hknown).length_le
  rw [List.length_cons, List.length_map] at hlen
  have hfuel := h.fuel
  obtain ⟨f, rfl⟩ : ∃ f, fuel = f + 1 := ⟨fuel - 1, by omega⟩
  refine ⟨f, ⟨hnodup, hknown, fun l hl => ?_, by rw [List.length_cons]; omega⟩, ?_⟩
  · rcases List.mem_cons.mp hl with rfl | hl
    · exact Nat.lt_succ_self l
    · exact Nat.lt_succ_of_lt (h.lower l hl)
  · rw [Value.unfoldLabel, if_neg (by simpa using hnew), hv]

/-- The contents of the collections in a node are known. -/
def Known (contents : List (Nat × Value)) (ns : List Node) : Prop :=
  ∀ m ∈ ns, IsCollection m → contents.lookup m.head.id = some (content m)

lemma Known.sub {ns ms : List Node} (h : Known contents ns) (hs : ms ⊆ ns) : Known contents ms :=
  fun m hm => h m (hs hm)

/-- A value in which nothing is labelled once the labels that tell nothing are dropped. -/
def Settles (v w : Value) : Prop := (∀ shared, prune shared v = w) ∧ loose v = []

lemma settles_scalar {tag t : Text} (ht : IsReadable tag t) (f : Nat → Value) :
    Settles (substitute f ((plainScalar tag t).toOption.getD .null)) ((plainScalar tag t).toOption.getD .null) := by
  obtain ⟨-, v, hv⟩ := ht
  rw [hv]
  rcases eq_of_plainScalar hv with rfl | ⟨s, rfl⟩
  · exact ⟨fun _ => rfl, rfl⟩
  · exact ⟨fun _ => rfl, rfl⟩

lemma settles_anchor {l : Nat} {v w : Value} (h : Settles v w) (hv : v.hasIdentity = false) :
    Settles (.anchor l v) w := by
  refine ⟨fun shared => ?_, by rw [loose, h.2]; rfl⟩
  rw [prune, hv, h.2, h.1 shared]
  rfl

end Unfold

mutual

/-- A node with the form of a tree unfolds to what the tree means. -/
theorem Shape.settles (t : Tree) (ht : Readable t) {lo hi : Nat} {n : Node} (h : Shape lo n t hi)
    {contents : List (Nat × Value)} {fuel : Nat} {above : List Nat} (hk : Known contents n.parts)
    (hr : Room contents fuel above lo) : Settles (substitute (unfoldLabel contents fuel above) (ref n)) t.meaning := by
  cases t with
  | scalar tag t =>
    obtain ⟨m, rfl, rfl⟩ := h
    exact settles_scalar ht _
  | sequence ts =>
    obtain ⟨m, ns, rfl, hs⟩ := h
    obtain ⟨f, hroom, hunfold⟩ := hr.unfoldLabel (hk _ List.mem_cons_self trivial)
    obtain ⟨hprune, hloose⟩ := ShapeAll.settles ts ht hs (hk.sub (List.subset_cons_self _ _)) hroom
    show Settles (Value.unfoldLabel contents fuel above lo) _
    rw [hunfold]
    exact settles_anchor ⟨fun shared => by rw [content, substitute, prune, hprune, meaning], hloose⟩ rfl
  | mapping tag es =>
    obtain ⟨m, ns, rfl, hs⟩ := h
    obtain ⟨f, hroom, hunfold⟩ := hr.unfoldLabel (hk _ List.mem_cons_self trivial)
    obtain ⟨hprune, hloose⟩ := ShapeEntries.settles es ht.2 hs (hk.sub (List.subset_cons_self _ _)) hroom
    show Settles (Value.unfoldLabel contents fuel above lo) _
    rw [hunfold]
    exact settles_anchor ⟨fun shared => by rw [content, substitute, prune, hprune, meaning], hloose⟩ rfl
  | literal tag lines => exact absurd h id
  | shared l t => exact absurd h id

theorem ShapeAll.settles (ts : List Tree) (ht : ReadableAll ts) {lo hi : Nat} {ns : List Node}
    (h : ShapeAll lo ns ts hi) {contents : List (Nat × Value)} {fuel : Nat} {above : List Nat}
    (hk : Known contents (Node.partsAll ns)) (hr : Room contents fuel above lo) :
    (∀ shared, pruneAll shared (substituteAll (unfoldLabel contents fuel above) (ns.map ref)) = meanings ts) ∧
      looseAll (substituteAll (unfoldLabel contents fuel above) (ns.map ref)) = [] := by
  cases ts with
  | nil =>
    obtain ⟨rfl, rfl⟩ := h
    exact ⟨fun _ => rfl, rfl⟩
  | cons t ts =>
    obtain ⟨n, ms, mid, rfl, hn, hms⟩ := h
    obtain ⟨hprune, hloose⟩ := Shape.settles t ht.1 hn (hk.sub (List.subset_append_left _ _)) hr
    obtain ⟨hprune', hloose'⟩ := ShapeAll.settles ts ht.2 hms (hk.sub (List.subset_append_right _ _))
      (hr.mono (Nat.le_of_lt (Shape.ids t hn).2))
    refine ⟨fun shared => ?_, ?_⟩
    · rw [List.map_cons, substituteAll, pruneAll, hprune, hprune', meanings]
    · rw [List.map_cons, substituteAll, looseAll, hloose, hloose']
      rfl

theorem ShapeEntries.settles (es : List (Tree × Tree)) (ht : ReadableEntries es) {lo hi : Nat}
    {ns : List (Node × Node)} (h : ShapeEntries lo ns es hi) {contents : List (Nat × Value)} {fuel : Nat}
    {above : List Nat} (hk : Known contents (Node.partsEntries ns)) (hr : Room contents fuel above lo) :
    (∀ shared, pruneEntries shared (substituteEntries (unfoldLabel contents fuel above)
      (ns.map fun e => (.text (keyText e.1), ref e.2))) = meaningEntries es) ∧
      looseEntries (substituteEntries (unfoldLabel contents fuel above)
        (ns.map fun e => (.text (keyText e.1), ref e.2))) = [] := by
  match es, ht, h with
  | [], _, h =>
    obtain ⟨rfl, rfl⟩ := h
    exact ⟨fun _ => rfl, rfl⟩
  | (k, v) :: es, ht, h =>
    obtain ⟨⟨tag, t, rfl, -⟩, hv, hes⟩ := ht
    obtain ⟨n, m, ms, a, b, rfl, ⟨start, rfl, rfl⟩, hm, hms⟩ := h
    have hparts : m.parts ⊆ Node.partsEntries ((.scalar ⟨lo, tag, start⟩ t, m) :: ms) :=
      List.Subset.trans (List.subset_append_left _ _) (List.subset_append_right _ _)
    have hrest : Node.partsEntries ms ⊆ Node.partsEntries ((.scalar ⟨lo, tag, start⟩ t, m) :: ms) :=
      List.Subset.trans (List.subset_append_right _ _) (List.subset_append_right _ _)
    have hroom := hr.mono (Nat.le_succ lo)
    obtain ⟨hprune, hloose⟩ := Shape.settles v hv hm (hk.sub hparts) hroom
    obtain ⟨hprune', hloose'⟩ := ShapeEntries.settles es hes hms (hk.sub hrest)
      (hroom.mono (Nat.le_of_lt (Shape.ids v hm).2))
    refine ⟨fun shared => ?_, ?_⟩
    · rw [List.map_cons, substituteEntries, pruneEntries, hprune, hprune', meaningEntries]
      rfl
    · rw [List.map_cons, substituteEntries, looseEntries, hloose, hloose']
      rfl

end

mutual

/-- The mappings of a document have no equal keys if those of its tree have none. -/
theorem Shape.distinct (t : Tree) (ht : Readable t) (hd : t.Distinct) {lo hi : Nat} {n : Node} (h : Shape lo n t hi) :
    ∀ m ∈ n.parts, DistinctKeys m := by
  cases t with
  | scalar tag t =>
    obtain ⟨m, rfl, rfl⟩ := h
    intro m hm
    obtain rfl := List.mem_singleton.mp hm
    trivial
  | sequence ts =>
    obtain ⟨m, ns, rfl, hs⟩ := h
    intro m hm
    rcases List.mem_cons.mp hm with rfl | hm
    · trivial
    · exact ShapeAll.distinct ts ht hd hs m hm
  | mapping tag es =>
    obtain ⟨m, ns, rfl, hs⟩ := h
    obtain ⟨hkeys, hrest⟩ := ShapeEntries.distinct es ht.2 hd.2 hs
    intro m hm
    rcases List.mem_cons.mp hm with rfl | hm
    · rw [DistinctKeys, ← hkeys]
      exact hd.1
    · exact hrest m hm
  | literal tag lines => exact absurd h id
  | shared l t => exact absurd h id

theorem ShapeAll.distinct (ts : List Tree) (ht : ReadableAll ts) (hd : DistinctAll ts) {lo hi : Nat}
    {ns : List Node} (h : ShapeAll lo ns ts hi) : ∀ m ∈ Node.partsAll ns, DistinctKeys m := by
  cases ts with
  | nil =>
    obtain ⟨rfl, rfl⟩ := h
    exact fun m hm => absurd hm List.not_mem_nil
  | cons t ts =>
    obtain ⟨n, ms, mid, rfl, hn, hms⟩ := h
    intro m hm
    rcases List.mem_append.mp hm with hm | hm
    · exact Shape.distinct t ht.1 hd.1 hn m hm
    · exact ShapeAll.distinct ts ht.2 hd.2 hms m hm

theorem ShapeEntries.distinct (es : List (Tree × Tree)) (ht : ReadableEntries es) (hd : DistinctEntries es)
    {lo hi : Nat} {ns : List (Node × Node)} (h : ShapeEntries lo ns es hi) :
    es.map (keyName ·.1) = ns.map (fun e => keyText e.1) ∧
      ∀ m ∈ Node.partsEntries ns, DistinctKeys m := by
  match es, ht, hd, h with
  | [], _, _, h =>
    obtain ⟨rfl, rfl⟩ := h
    exact ⟨rfl, fun m hm => absurd hm List.not_mem_nil⟩
  | (k, v) :: es, ht, hd, h =>
    obtain ⟨⟨tag, t, rfl, -⟩, hv, hes⟩ := ht
    obtain ⟨n, m, ms, a, b, rfl, ⟨start, rfl, rfl⟩, hm, hms⟩ := h
    obtain ⟨hkeys, hrest⟩ := ShapeEntries.distinct es hes hd.2 hms
    refine ⟨by rw [List.map_cons, List.map_cons, hkeys]; rfl, fun c hc => ?_⟩
    rcases List.mem_append.mp hc with hc | hc
    · obtain rfl := List.mem_singleton.mp hc
      trivial
    · rcases List.mem_append.mp hc with hc | hc
      · exact Shape.distinct v hv hd.1 hm c hc
      · exact hrest c hc

end

/-- A document has a value if its mappings have no equal keys, and only the value that its tree means. -/
theorem Document.value_of_shape {t : Tree} {n : Node} {hi : Nat} (ht : Readable t) (h : Shape 0 n t hi) :
    (∀ v, Document.value .names ⟨some n, [], hi⟩ = .ok v → v = t.meaning) ∧
      (t.Distinct → Document.value .names ⟨some n, [], hi⟩ = .ok t.meaning) := by
  have hmake := @make_spec n hi ⟨.names, []⟩ (8 * hi + 16) (Shape.whole ht h) rfl (by omega)
  let made := Make.value ⟨.names, []⟩ (8 * hi + 16) false n >>= fun v =>
    Make.fillPending ⟨.names, []⟩ (8 * hi + 16) (hi + 1) >>= fun _ => pure v
  have hvalue : Document.value .names ⟨some n, [], hi⟩ =
      ((made >>= Make.current) ⟨[], [], [], [], [], [], hi⟩).map fun p => p.1.pruned := by
    simp only [made, bind_assoc, pure_bind]
    rfl
  cases hrun : made ⟨[], [], [], [], [], [], hi⟩ with
  | error fault =>
    have hrefused : Document.value .names ⟨some n, [], hi⟩ = .error fault := by
      rw [hvalue]
      show (Except.bind (made _) _).map _ = _
      rw [hrun]
      rfl
    refine ⟨fun v hv => ?_, fun hd => ?_⟩
    · rw [hrefused] at hv
      cases hv
    · have : ¬∀ m ∈ n.parts, DistinctKeys m := by
        have hyields : Yields (Clash n) (made _) _ := hmake
        rwa [hrun] at hyields
      exact absurd (Shape.distinct t ht hd h) this
  | ok p =>
    obtain ⟨v, s⟩ := p
    have hyields : Yields (Clash n) (made _) _ := hmake
    rw [hrun] at hyields
    obtain ⟨rfl, hknown, -⟩ := hyields
    have hsettles := Shape.settles t ht h hknown
      (show Room s.contents (s.contents.length + 1) [] 0 from ⟨List.nodup_nil, List.nil_subset _, by simp, rfl⟩)
    have hmeaning : Document.value .names ⟨some n, [], hi⟩ = .ok t.meaning := by
      rw [hvalue]
      show (Except.bind (made _) _).map _ = _
      rw [hrun]
      exact congrArg Except.ok (hsettles.1 _)
    refine ⟨fun v hv => ?_, fun _ => hmeaning⟩
    rw [hmeaning] at hv
    exact (Except.ok.inj hv).symm

end DocPath.Yaml
