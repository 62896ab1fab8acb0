import DocPath.Proofs.Yaml.Tour

/-! What is known at the places of a tour while values are made, and how the parts of a collection are made past the nodes
ahead. -/

namespace DocPath.Yaml.Make

/-- What is known when a place is come to: which collections outside of keys are made or being made, which wait, and which
mappings have come to have other entries. -/
structure Tracks (d : Document) (root : Node) (t : Tour) (s : Making) : Prop where
  visited : ∀ n ∈ root.parts, ¬Enclosed root n → isCollectionTag n.head.tag = true →
    (n.head.id ∈ t.visited ↔ s.done.lookup n.head.id ≠ none ∨ n.head.id ∈ s.active)
  waiting : s.pending = t.waiting
  kept : ∀ h own, .mapping h own ∈ root.parts → ¬t.Absorbed d (.mapping h own) → entriesNow s h own = own
  resolved : ∀ x ∈ t.opened, Resolved d root s x
  merge : ∀ n ∈ root.parts, n.head.tag = Tag.merge → s.done.lookup n.head.id = none

/-- A place with certain nodes ahead has been come to past good ones. -/
def Tours (d : Document) (root : Node) (ahead : List Node) (s : Making) : Prop :=
  ∃ t, Passed d root t ∧ t.ahead = ahead ∧ Tracks d root t s

section Places

variable {d : Document} {root n c : Node} {t : Tour} {ahead waiting : List Node}

/-- Nothing is new about a node that is no collection or has been met before. -/
lemma Passed.skip (h : Passed d root t) (hahead : t.ahead = c :: ahead)
    (hold : isCollectionTag (follow d.source c).head.tag = true → (follow d.source c).head.id ∈ t.visited) :
    Passed d root { t with ahead := ahead } := by
  refine h.tail ⟨?_, Tour.good_of_cons hahead fun hnew htag => absurd (hold (by rw [htag]; decide)) hnew⟩
  rw [Tour.next?_cons hahead, Tour.visit, if_neg fun hno => hno.2 (hold hno.1)]

lemma Passed.wait (h : Passed d root t) (hahead : t.ahead = c :: ahead) (hn : follow d.source c = n)
    (htag : isFilledTag .names n.head.tag = true) (hnew : n.head.id ∉ t.visited) :
    Passed d root ⟨ahead, t.waiting ++ [n], n.head.id :: t.visited, t.opened⟩ := by
  subst hn
  have hmapping := ne_mapping_of_filled htag
  refine h.tail ⟨?_, Tour.good_of_cons hahead fun _ htag => absurd htag hmapping⟩
  rw [Tour.next?_cons hahead, Tour.visit, if_pos ⟨isCollectionTag_filled htag, hnew⟩, if_neg hmapping]

lemma Passed.meet (h : Passed d root t) (hahead : t.ahead = c :: ahead) (hn : follow d.source c = n)
    (htag : n.head.tag = Tag.mapping) (hnew : n.head.id ∉ t.visited)
    (hgood : t.Absorbed d n → (names d root (flatOf d n.entries)).Nodup) :
    Passed d root ⟨inside d n ++ ahead, t.waiting, n.head.id :: t.visited, n :: t.opened⟩ := by
  subst hn
  refine h.tail ⟨?_, Tour.good_of_cons hahead fun _ _ => hgood⟩
  rw [Tour.next?_cons hahead, Tour.visit, if_pos ⟨by rw [htag]; decide, hnew⟩, if_pos htag]

lemma Passed.fill (h : Passed d root t) (hahead : t.ahead = []) (hwaiting : t.waiting = n :: waiting) :
    Passed d root ⟨inside d n, waiting, t.visited, n :: t.opened⟩ :=
  h.tail ⟨Tour.next?_nil hahead hwaiting, Tour.good_of_nil hahead⟩

end Places

section Tracks

variable {d : Document} {root n : Node} {filling : List Node} {t : Tour} {s s' : Making} {h : Head}
  {own es : List (Node × Node)} {v : Value} {fair : Prop} {fuel : Nat} {tag : Text} {deep : Bool} {ahead : List Node}

lemma Tracks.entriesNow_flat (ht : Tracks d root t s) (hinv : Invariant d root filling s)
    (hn : .mapping h own ∈ root.parts) (hgrounded : Grounded d (.mapping h own)) (habsorbed : t.Absorbed d (.mapping h own)) :
    entriesNow s h own = flatOf d own := by
  obtain ⟨x, hx, habsorbs⟩ := habsorbed
  have hplain := ht.resolved x hx h own hn habsorbs
  rcases hinv.clean _ h own hn (.refl _) hgrounded with heq | ⟨heq, -⟩
  · rw [heq] at hplain ⊢
    exact hplain.flatEntries.symm
  · exact heq

lemma Tracks.at (ht : Tracks d root t s) (ahead : List Node) : Tracks d root { t with ahead := ahead } s :=
  ⟨ht.visited, ht.waiting, ht.kept, ht.resolved, ht.merge⟩

lemma Tracks.setContent {id : Nat} (ht : Tracks d root t s) :
    Tracks d root t { s with contents := (id, v) :: s.contents } :=
  ⟨ht.visited, ht.waiting, ht.kept, ht.resolved, ht.merge⟩

/-- What is no mapping absorbs none. -/
lemma Tracks.open (ht : Tracks d root t s) (hn : ∀ g other, n ≠ .mapping g other) :
    Tracks d root { t with ahead := ahead, opened := n :: t.opened } s where
  visited := ht.visited
  waiting := ht.waiting
  kept h own hpart hno := ht.kept h own hpart fun ⟨x, hx, habsorbs⟩ => hno ⟨x, List.mem_cons_of_mem _ hx, habsorbs⟩
  resolved := by
    refine List.forall_mem_cons.mpr ⟨fun h own _ habsorbs => ?_, ht.resolved⟩
    cases habsorbs with
    | refl => exact absurd rfl (hn h own)
    | merge he _ _ _ =>
      cases n with
      | mapping g other => exact absurd rfl (hn g other)
      | _ => exact absurd he List.not_mem_nil
  merge := ht.merge

lemma Tracks.activate (ht : Tracks d root t s) :
    Tracks d root { t with visited := n.head.id :: t.visited } { s with active := n.head.id :: s.active } where
  visited m hm hno htag := by
    rw [List.mem_cons, ht.visited m hm hno htag, List.mem_cons]
    tauto
  waiting := ht.waiting
  kept := ht.kept
  resolved := ht.resolved
  merge := ht.merge

/-- Nothing that the tour could meet is made with a scalar or what lies in a key. -/
lemma Tracks.activate_aside (hd : Numbered d root) (ht : Tracks d root t s) (hn : n ∈ root.parts) (hsolid : n.isSolid = true)
    (haside : isCollectionTag n.head.tag = true → Enclosed root n) :
    Tracks d root t { s with active := n.head.id :: s.active } where
  visited m hm hno htag := by
    have hne : m.head.id ≠ n.head.id := by
      intro he
      obtain rfl := hd.unique m hm (isSolid_of_collection htag) n hn hsolid he
      exact hno (haside htag)
    rw [ht.visited m hm hno htag, List.mem_cons, or_iff_right hne]
  waiting := ht.waiting
  kept := ht.kept
  resolved := ht.resolved
  merge := ht.merge

lemma isSolid_of_merge (h : n.head.tag = Tag.merge) : n.isSolid = true := by
  cases n with
  | «alias» id => exact absurd h (show ([] : Text) ≠ Tag.merge by decide)
  | _ => rfl

lemma Tracks.finish (hd : Numbered d root) (ht : Tracks d root t s) (hn : n ∈ root.parts) (hsolid : n.isSolid = true)
    (htag : n.head.tag ≠ Tag.merge) (hactive : n.head.id ∈ s.active) :
    Tracks d root t { s with done := (n.head.id, v) :: s.done, active := s.active.filter (· != n.head.id) } where
  visited m hm hno hcollection := by
    rw [ht.visited m hm hno hcollection]
    by_cases he : m.head.id = n.head.id
    · rw [he]
      simp [hactive]
    · simp [lookup_cons_of_ne he, he]
  waiting := ht.waiting
  kept := ht.kept
  resolved := ht.resolved
  merge m hm hmerge := by
    refine (lookup_cons_of_ne fun he => htag ?_).trans (ht.merge m hm hmerge)
    obtain rfl := hd.unique m hm (isSolid_of_merge hmerge) n hn hsolid he
    exact hmerge

/-- A mapping that is looked through takes up what it merges. -/
lemma Tracks.flatten (ahead : List Node) (hd : Numbered d root) (ht : Tracks d root t s)
    (hinv : Invariant d root filling s) (hn : .mapping h own ∈ root.parts) (hgrounded : Grounded d (.mapping h own)) :
    Yields (Refuses fair) (Make.flatten d.source fuel h own s) fun es s' =>
      es = flatOf d own ∧ Tracks d root { t with ahead := ahead, opened := .mapping h own :: t.opened } s' := by
  refine (flatten_spec hd hn hinv.consistent (hinv.clean _)).mono ?_
  rintro es s' ⟨hm, -⟩
  have hrest := hm.rewritten.rest
  have hdone : s'.done = s.done := by rw [hrest]
  have hactive : s'.active = s.active := by rw [hrest]
  have hpending : s'.pending = s.pending := by rw [hrest]
  refine ⟨?_, ?_, hpending.trans ht.waiting, fun g other hg hno => ?_, ?_, ?_⟩
  · rw [hm.flat (List.forall_mem_singleton.mpr hgrounded)]
    exact List.append_nil _
  · rw [hdone, hactive]
    exact ht.visited
  · rcases hm.rewritten.touched g other hg with heq | hr
    · rw [entriesNow_congr heq]
      exact ht.kept g other hg fun ⟨x, hx, habsorbs⟩ => hno ⟨x, List.mem_cons_of_mem _ hx, habsorbs⟩
    · obtain ⟨x, hx, habsorbs⟩ := hr.absorbed
      obtain rfl := List.mem_singleton.mp hx
      exact absurd ⟨_, List.mem_cons_self, habsorbs⟩ hno
  · exact List.forall_mem_cons.mpr ⟨hm.resolved _ (List.mem_singleton_self _) hgrounded,
      fun x hx => (ht.resolved x hx).rewritten hm.rewritten⟩
  · rw [hdone]
    exact ht.merge

/-- Only what has a tag of scalars has a value if it is no collection. -/
lemma make_leaf (hleaf : isCollectionTag n.head.tag = false) (hof : IsTagOf n tag) :
    Yields (Refuses fair) (make d.source fuel deep n tag s) fun _ s' => s' = s ∧ isScalarTag tag = true := by
  cases fuel with
  | zero => exact yields_throw rfl
  | succ fuel =>
    by_cases hscalar : isScalarTag tag = true
    · rw [make, if_pos hscalar]
      refine textOf_goes.bind ?_
      rintro t s₁ ⟨rfl, -⟩
      cases hv : scalarOf n tag t with
      | error fault => exact yields_throw ((settles_scalarOf n tag t).of_error hv).isRepetition
      | ok v => exact .of_eq rfl ⟨rfl, hscalar⟩
    · obtain rfl := hof.eq_of_not_scalar hscalar
      rw [isCollectionTag, Bool.or_eq_false_iff] at hleaf
      have hfilled : ¬isFilledTag d.source.rule n.head.tag = true := Bool.eq_false_iff.mp hleaf.1
      rw [make, if_neg hscalar, if_neg hfilled, if_neg (beq_eq_false_iff_ne.mp hleaf.2)]
      exact yields_failAt

lemma isSolid_of_scalarTag (h : isScalarTag tag = true) (hof : IsTagOf n tag) : n.isSolid = true := by
  cases n with
  | «alias» id =>
    have hvalue : ([] : Text) ≠ Tag.value := by decide
    obtain rfl : tag = [] := hof.resolve_right fun h => hvalue h.1
    exact absurd h (by decide)
  | _ => rfl

lemma ne_merge_of_scalarTag (h : isScalarTag tag = true) (hof : IsTagOf n tag) : n.head.tag ≠ Tag.merge := by
  intro hmerge
  obtain rfl := (hof.eq_iff (by decide) (by decide)).mpr hmerge
  exact absurd h (by decide)

/-- The value of a node that is no collection is made on the spot, and there is none for merge keys. -/
lemma value_leaf (hd : Numbered d root) (hn : n ∈ root.parts)
    (hleaf : isCollectionTag (follow d.source n).head.tag = false) (ht : Tracks d root t s) :
    Yields (Refuses fair) (value d.source fuel deep n s) fun _ s' =>
      (follow d.source n).head.tag ≠ Tag.merge ∧ Tracks d root t s' := by
  cases fuel with
  | zero => exact yields_throw rfl
  | succ fuel =>
    have hm := follow_mem hd hn
    refine yields_value rfl (fun v hdone => ⟨fun hmerge => ?_, ht⟩) fun tag hdone hactive hof => ?_
    · rw [ht.merge _ hm hmerge] at hdone
      cases hdone
    · refine (make_leaf hleaf hof).mono ?_
      rintro v s₁ ⟨rfl, hscalar⟩
      have hsolid := isSolid_of_scalarTag hscalar hof
      have hmerge := ne_merge_of_scalarTag hscalar hof
      have haside (htag : isCollectionTag (follow d.source n).head.tag = true) : Enclosed root (follow d.source n) := by
        rw [hleaf] at htag
        cases htag
      exact ⟨hmerge, (ht.activate_aside hd hm hsolid haside).finish hd hm hsolid hmerge List.mem_cons_self⟩

end Tracks

/-- Something goes the way past some nodes. It is refused for a name that is there twice only where the way is not good. -/
def Follows (d : Document) (root : Node) (filling ns : List Node) {α : Type} (x : Make α) : Prop :=
  ∀ rest s, Invariant d root filling s → Tours d root (ns ++ rest) s →
    Yields (Refuses (¬Collides d root)) (x s) fun _ s' => Goes d root filling 0 s s' ∧ Tours d root rest s'

namespace Follows

variable {d : Document} {root : Node} {filling ns ms : List Node} {α β : Type}

lemma pure {a : α} : Follows d root filling [] (Pure.pure a) := fun _ _ hinv ht => .of_eq rfl ⟨.refl hinv, ht⟩

lemma bind {x : Make α} {f : α → Make β} (hx : Follows d root filling ns x) (hf : ∀ a, Follows d root filling ms (f a)) :
    Follows d root filling (ns ++ ms) (x >>= f) := by
  intro rest s hinv ht
  rw [List.append_assoc] at ht
  refine (hx _ s hinv ht).bind ?_
  rintro a s₁ ⟨hgoes₁, ht₁⟩
  exact (hf a rest s₁ hgoes₁.inv ht₁).mono fun b s₂ h => ⟨hgoes₁.trans h.1, h.2⟩

lemma map {x : Make α} {f : α → β} (hx : Follows d root filling ns x) :
    Follows d root filling ns (x >>= fun a => Pure.pure (f a)) :=
  List.append_nil ns ▸ hx.bind fun _ => .pure

lemma fail {fault : Fault} (h : fault.isRepetition = false) : Follows d root filling ns (throw fault : Make α) :=
  fun _ _ _ _ => yields_throw h

lemma mapM {f : Node → Make α} (hf : ∀ n ∈ ns, Follows d root filling [n] (f n)) :
    Follows d root filling ns (ns.mapM f) := by
  induction ns with
  | nil =>
    rw [List.mapM_nil]
    exact pure
  | cons n ns ih =>
    obtain ⟨hn, hns⟩ := List.forall_mem_cons.mp hf
    rw [List.mapM_cons]
    exact hn.bind fun v => (ih hns).map

end Follows

section Collections

variable {d : Document} {root n : Node} {filling ns : List Node} {t : Tour} {s : Making} {h : Head}
  {own es : List (Node × Node)} {v : Value} {fuel : Nat} {deep : Bool} {key value : Node → Make Value}

lemma Tours.setContent {id : Nat} (ht : Tours d root ns s) :
    Tours d root ns { s with contents := (id, v) :: s.contents } := by
  obtain ⟨t, hpassed, hahead, ht⟩ := ht
  exact ⟨t, hpassed, hahead, ht.setContent⟩

lemma Follows.nameOf : Follows d root filling [] (Make.nameOf v) := by
  intro rest s hinv ht
  rw [Make.nameOf]
  refine .step (a := v.unfold s.contents) (t := s) rfl ?_
  cases (v.unfold s.contents).asName with
  | error fault => exact yields_throw rfl
  | ok name => exact .of_eq rfl ⟨.refl hinv, ht⟩

lemma Follows.canBeKey : Follows d root filling [] (Make.canBeKey v) := by
  intro rest s hinv ht
  rw [Make.canBeKey.eq_def]
  split <;> exact .of_eq rfl ⟨.refl hinv, ht⟩

lemma Follows.setContent (hd : Numbered d root) (hn : n ∈ filling) :
    Follows d root filling [] (Make.setContent n.head.id v) :=
  fun _ _ hinv ht => .of_eq rfl ⟨.setContent v hd hinv (.inr ⟨n, hn, rfl⟩), ht.setContent⟩

/-- Keys are made beside the way. -/
lemma follows_namedEntries (hkey : ∀ e ∈ es, Follows d root filling [] (key e.1))
    (hvalue : ∀ e ∈ es, Follows d root filling [e.2] (value e.2)) :
    Follows d root filling (es.map (·.2)) (namedEntries key value es) := by
  induction es with
  | nil => exact .pure
  | cons e es ih =>
    obtain ⟨k, v⟩ := e
    obtain ⟨hk, hkey⟩ := List.forall_mem_cons.mp hkey
    obtain ⟨hv, hvalue⟩ := List.forall_mem_cons.mp hvalue
    rw [namedEntries]
    exact hk.bind fun w => Follows.nameOf.bind fun name => hv.bind fun x => (ih hkey hvalue).map

lemma follows_keyedEntries (hvalue : ∀ n ∈ sides es, Follows d root filling [n] (value n)) :
    Follows d root filling (sides es) (keyedEntries d.source value h es) := by
  induction es with
  | nil => exact .pure
  | cons e es ih =>
    obtain ⟨k, v⟩ := e
    obtain ⟨hk, hvalue⟩ := List.forall_mem_cons.mp hvalue
    obtain ⟨hv, hvalue⟩ := List.forall_mem_cons.mp hvalue
    rw [keyedEntries]
    refine hk.bind fun w => Follows.canBeKey.bind fun b => ?_
    cases b with
    | false => exact .fail rfl
    | true => exact hv.bind fun x => (ih hvalue).map

lemma Follows.newPart {id place : Nat} (hd : Numbered d root) : Follows d root filling [] (Make.newPart id place v) :=
  fun _ _ hinv ht => .of_eq rfl ⟨(Goes.newPart id place hd hinv).of_ok rfl, ht.setContent⟩

/-- Lists of pairs are made of what mappings have come to have. -/
lemma follows_fillPairs {context : Context} {before : List Value} {items : List Node} (hd : Numbered d root)
    (hfair : Fair d root) (hvalue : ∀ m ∈ root.parts, Follows d root filling [m] (Make.value d.source fuel deep m))
    (hitems : ∀ m ∈ items, m ∈ root.parts) (hn : n ∈ filling) :
    Follows d root filling (items.flatMap fun m => sides (flatOf d (follow d.source m).entries))
      (fillPairs d.source (Make.value d.source fuel deep) context n.head before items) := by
  induction items generalizing before with
  | nil => exact .pure
  | cons m items ih =>
    obtain ⟨hm, hitems⟩ := List.forall_mem_cons.mp hitems
    have hfollow := follow_mem hd hm
    rw [fillPairs, List.flatMap_cons]
    cases heq : follow d.source m with
    | mapping g own =>
      rw [heq] at hfollow
      intro rest s hinv ht
      have hnow := hinv.clean _ g own hfollow (.refl _) (hfair.grounded _ hfollow)
      have hknown := hinv.consistent.known g own hfollow
      refine .step (a := entriesNow s g own) (t := s) rfl ?_
      generalize entriesNow s g own = es at hnow hknown
      rcases es with _ | ⟨⟨k, v⟩, _ | ⟨e, es⟩⟩
      · exact yields_failWithin
      · obtain ⟨hk, hv⟩ := (hknown _ (List.mem_singleton_self _)).parts
        -- a merge key has no value, and any other single entry is all that the mapping comes to have
        by_cases hmerge : (follow d.source k).head.tag = Tag.merge
        · obtain ⟨t, -, -, ht⟩ := ht
          exact (value_leaf hd hk (by rw [hmerge]; decide) ht).bind fun _ _ h => absurd hmerge h.1
        · have hflat : flatOf d own = [(k, v)] := by
            rcases hnow with rfl | ⟨heq, -⟩
            · exact Plain.flatEntries (List.forall_mem_singleton.mpr (decide_eq_false hmerge))
            · exact heq.symm
          refine ((hvalue k hk).bind fun key => (hvalue v hv).bind fun x => (Follows.newPart hd).bind fun part =>
            (Follows.setContent hd hn).bind fun _ => ih hitems) rest s hinv ?_
          rwa [show (Node.mapping g own).entries = own from rfl, hflat] at ht
      · exact yields_failWithin
    | _ => exact fun _ _ _ _ => yields_failWithin

/-- A collection that has waited is filled. -/
lemma fill_follows (hd : Numbered d root) (hfair : Fair d root)
    (hvalue : ∀ m ∈ root.parts, ¬Enclosed root (follow d.source m) →
      Follows d root filling [m] (Make.value d.source fuel deep m))
    (hn : CanWait root n) (hno : ¬Enclosed root n) (hin : n ∈ filling) (hinv : Invariant d root filling s)
    (ht : Tracks d root t s) (hpassed : Passed d root { t with ahead := inside d n, opened := n :: t.opened }) :
    Yields (Refuses (¬Collides d root)) (fill d.source fuel (Make.value d.source fuel deep) n s) fun _ s' =>
      Tours d root [] s' := by
  have hmapping := ne_mapping_of_filled hn.2.2
  rw [fill.eq_def]
  refine .step (tagOf_filled hn.2.2) ?_
  -- only a set takes anything up when it is looked through
  by_cases hsequence : n.head.tag = Tag.sequence
  · rw [if_pos hsequence]
    cases n with
    | sequence g items =>
      have hinside : inside d (.sequence g items) = items := if_pos hsequence
      have hitem (m : Node) (hm : m ∈ items) : Follows d root filling [m] (Make.value d.source fuel deep m) :=
        hvalue m (Node.parts_trans root hn.1 hm)
          (not_enclosed_follow hd (Node.parts_trans root hn.1 hm) (not_enclosed_item hd hn.1 hno hm))
      refine (((Follows.mapM hitem).bind fun vs => Follows.setContent hd hin) [] s hinv
        ⟨_, hpassed, ?_, ht.open (by simp)⟩).mono fun _ _ h => h.2
      simp [hinside]
    | _ => exact yields_failAt
  · rw [if_neg hsequence]
    by_cases hset : n.head.tag = Tag.set
    · rw [if_pos (.inl hset)]
      cases n with
      | mapping g own =>
        refine ((ht.flatten (inside d (.mapping g own)) hd hinv hn.1 (hfair.grounded _ hn.1)).and
          (flatten_goes hd hn.1 hinv)).bind ?_
        rintro es s₁ ⟨⟨rfl, ht₁⟩, hgoes₁, -, -, hcomes, -⟩
        have hset' (ps : List (Value × Value)) : Follows d root filling [] (if g.tag = Tag.set then
            Make.setContent g.id (.set false (Value.elementsOf (ps.map (·.1)).eraseDups))
            else Make.setContent g.id (.map false (Value.entriesOf ps))) := by
          rw [if_pos (show g.tag = Tag.set from hset)]
          exact Follows.setContent hd hin
        have hside (m : Node) (hm : m ∈ sides (flatOf d own)) :
            Follows d root filling [m] (Make.value d.source fuel deep m) :=
          hvalue m (sides_mem (fun e he => (hcomes e he).isEntry hd hn.1) hm)
            (not_enclosed_of_tag hn.1 (by rw [hset]; simp) _)
        refine (((follows_keyedEntries hside).bind hset') [] s₁ hgoes₁.inv ⟨_, hpassed, ?_, ht₁⟩).mono fun _ _ h => h.2
        rw [List.append_nil, List.append_nil]
        exact if_neg hmapping
      | _ => exact yields_failAt
    · rw [if_neg fun h => h.elim hset hmapping]
      cases n with
      | sequence g items =>
        have hitems : ∀ m ∈ items, m ∈ root.parts := fun m hm => Node.parts_trans root hn.1 hm
        refine (follows_fillPairs hd hfair (fun m hm => hvalue m hm (not_enclosed_of_tag hn.1 (hn.mem_pairs hsequence hset) _))
          hitems hin [] s hinv ⟨_, hpassed, ?_, ht.open (by simp)⟩).mono fun _ _ h => h.2
        rw [List.append_nil]
        exact if_neg hsequence
      | _ => exact yields_failWithin

end Collections

end DocPath.Yaml.Make
