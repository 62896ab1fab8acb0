import DocPath.Proofs.Yaml.Misfits
import DocPath.Proofs.Yaml.Objects
import DocPath.Proofs.Yaml.Unmerged

/-! Making the value of a document comes to an end, whatever the document, and the only faults that callers are not told
of are those of nodes whose tag does not suit them. -/

namespace DocPath.Yaml

namespace Make

/-- What is known while the values of some nodes are being made. -/
structure Watch (d : Document) (root : Node) (active : List Nat) (s : Making) : Prop where
  sourced : Sourced d root s
  left : unmerged d root s ≤ d.size
  pending : ∀ n ∈ s.pending, n ∈ root.parts
  active : s.active = active

/-- A run from what is known leads to what is known, or ends in an expected fault. -/
abbrev Behaves (d : Document) (root : Node) (active : List Nat) {α : Type} (x : Make α) (p : α → Prop) : Prop :=
  Meets (Expected d root) (Watch d root active) x p

/-- A way to make values of nodes that behaves for all of them. -/
abbrev Handles (d : Document) (root : Node) (active : List Nat) (f : Node → Make Value) : Prop :=
  ∀ n ∈ root.parts, Behaves d root active (f n) fun _ => True

/-- There is fuel for all nodes that may still be begun while others are being made. -/
structure Ample (d : Document) (active : List Nat) (fuel : Nat) : Prop where
  nodup : active.Nodup
  bounded : ∀ id ∈ active, id < d.size
  fuel : 3 * d.size + 2 ≤ fuel + 2 * active.length

section Fuel

variable {d : Document} {active : List Nat} {fuel id : Nat}

lemma Ample.lt (h : Ample d active fuel) : d.size + 1 < fuel := by
  have hlength := length_le_of_bounded h.nodup h.bounded
  have hfuel := h.fuel
  omega

lemma Ample.begin (h : Ample d active (fuel + 2)) (hid : id < d.size) (hnew : id ∉ active) :
    Ample d (id :: active) fuel := by
  refine ⟨List.nodup_cons.mpr ⟨hnew, h.nodup⟩, List.forall_mem_cons.mpr ⟨hid, h.bounded⟩, ?_⟩
  have hfuel := h.fuel
  rw [List.length_cons]
  omega

end Fuel

section Entries

variable {d : Document} {root n : Node} {active : List Nat} {s s' : Making} {h : Head} {own es : List (Node × Node)}
  {fuel id place : Nat} {v : Value} {α : Type} {p : α → Prop}

lemma Watch.of_entries {active' : List Nat} (h : Watch d root active s) (hentries : s'.entries = s.entries)
    (hpending : ∀ n ∈ s'.pending, n ∈ root.parts) (hactive : s'.active = active') : Watch d root active' s' :=
  ⟨h.sourced.of_entries hentries, (unmerged_congr hentries).trans_le h.left, hpending, hactive⟩

lemma behaves_failAt {m : Mark} {problem : Problem} : Behaves d root active (failAt m problem : Make α) p :=
  .fail (expected_of_isMarked rfl)

lemma behaves_failWithin {context : Context} {start m : Mark} {problem : Problem} :
    Behaves d root active (failWithin context start m problem : Make α) p :=
  .fail (expected_of_isMarked rfl)

lemma behaves_tagOf : Behaves d root active (tagOf n) (IsTagOf n) := fun s hs => by
  obtain ⟨tag, hrun, htag⟩ := tagOf_spec n s
  exact .of_eq hrun ⟨hs, htag⟩

lemma behaves_entriesOf (hd : Numbered d root) (hn : .mapping h own ∈ root.parts) :
    Behaves d root active (entriesOf h own) fun es => ∀ e ∈ es, IsEntry root e :=
  fun s hs => .of_eq (s := s) rfl ⟨hs, fun e he => (hs.sourced.comes h own hn e he).isEntry hd hn⟩

lemma behaves_setContent : Behaves d root active (setContent id v) fun _ => True :=
  .update fun _ hs => hs.of_entries rfl hs.pending hs.active

lemma behaves_newPart : Behaves d root active (newPart id place v) fun _ => True :=
  .bind .read fun _ _ => .bind behaves_setContent fun _ _ => .pure trivial

lemma behaves_nameOf : Behaves d root active (nameOf v) fun _ => True := by
  rw [nameOf]
  have hcurrent : Behaves d root active (current v) fun _ => True := .bind .read fun _ _ => .pure trivial
  refine .bind hcurrent fun w _ => ?_
  split
  · exact .pure trivial
  · exact .fail (.inl (.inr rfl))

lemma behaves_canBeKey : Behaves d root active (canBeKey v) fun _ => True := by
  rw [canBeKey.eq_def]
  split <;> exact .pure trivial

/-- Merging comes to an end, and entries stay such of the document. -/
lemma behaves_flatten (hd : Numbered d root) (hn : .mapping h own ∈ root.parts) (hfuel : d.size < fuel) :
    Behaves d root active (flatten d.source fuel h own) fun es => ∀ e ∈ es, IsEntry root e := by
  intro s hs
  have hunmerges : Yields (·.isMarked = true) (flattenFrom d.source fuel h own [] 0 s) fun es s' =>
      Unmerges d root s es s' ∧ es = entriesNow s' h own :=
    flattenFrom_unmerges hd hn hs.sourced (by simp [Plain]) (by simp) (by simp) (by simp [Plain]) (hs.left.trans_lt hfuel)
  have hbrings : Yields (fun _ => True) (flattenFrom d.source fuel h own [] 0 s) (Brings d root [.mapping h own] s) :=
    flattenFrom_brings hd hn hs.sourced (by simp) (by simp)
  refine ((hunmerges.and hbrings).expect fun _ => expected_of_isMarked).mono fun es s' h' =>
    ⟨⟨h'.2.sourced, h'.1.1.left.trans hs.left, ?_, ?_⟩, fun e he => ?_⟩
  · have hpending : s'.pending = s.pending := by rw [h'.2.rewrites]
    exact hpending ▸ hs.pending
  · have hactive : s'.active = s.active := by rw [h'.2.rewrites]
    exact hactive.trans hs.active
  · obtain ⟨m, hm, hcomes⟩ := h'.2.comes e he
    obtain rfl := List.mem_singleton.mp hm
    exact hcomes.isEntry hd hn

lemma behaves_textOf (hd : Numbered d root) (hn : n ∈ root.parts) (hfuel : d.size < fuel) :
    Behaves d root active (textOf d.source fuel n) (Tells d (follow d.source n)) :=
  fun _ hs => (textOf_tells hd hn hs.sourced (roomy_of_lt hfuel)).mono fun _ _ h => ⟨h.1 ▸ hs, h.2⟩

end Entries

section Collections

variable {d : Document} {root n : Node} {active : List Nat} {h : Head} {es : List (Node × Node)} {ns : List Node}
  {fuel : Nat} {key value : Node → Make Value}

lemma behaves_checkNames {seen : List Text} (hkey : Handles d root active key) (hes : ∀ e ∈ es, IsEntry root e) :
    Behaves d root active (checkNames d.source key seen es) fun _ => True := by
  induction es generalizing seen with
  | nil => exact .pure trivial
  | cons e es ih =>
    obtain ⟨he, hes⟩ := List.forall_mem_cons.mp hes
    rw [checkNames]
    refine .bind behaves_tagOf fun tag _ => ?_
    split_ifs
    · exact ih hes
    · refine .bind (hkey _ he.parts.1) fun v _ => .bind behaves_nameOf fun name _ => ?_
      split_ifs
      · exact .fail (.inl (.inr rfl))
      · exact ih hes

lemma behaves_namedEntries (hkey : Handles d root active key) (hvalue : Handles d root active value)
    (hes : ∀ e ∈ es, IsEntry root e) : Behaves d root active (namedEntries key value es) fun _ => True := by
  induction es with
  | nil => exact .pure trivial
  | cons e es ih =>
    obtain ⟨he, hes⟩ := List.forall_mem_cons.mp hes
    rw [namedEntries]
    exact .bind (hkey _ he.parts.1) fun _ _ => .bind behaves_nameOf fun _ _ => .bind (hvalue _ he.parts.2) fun _ _ =>
      .bind (ih hes) fun _ _ => .pure trivial

lemma behaves_namedMapping (hd : Numbered d root) (hn : n ∈ root.parts) (htag : n.head.tag = Tag.mapping)
    (hfuel : d.size < fuel) (hkey : Handles d root active key) (hvalue : Handles d root active value) :
    Behaves d root active (namedMapping d.source fuel key value n) fun _ => True := by
  rw [namedMapping.eq_def]
  split
  · exact .bind (behaves_entriesOf hd hn) fun _ hes => .bind (behaves_checkNames hkey hes) fun _ _ =>
      .bind (behaves_flatten hd hn hfuel) fun _ hes => .bind (behaves_namedEntries hkey hvalue hes) fun _ _ =>
        .pure trivial
  · exact .pure trivial
  · exact .fail (.inr ⟨_, hn, .items htag⟩)
  · exact .pure trivial
  · exact .fail (.inl (.inr rfl))

lemma behaves_keyedEntries (hvalue : Handles d root active value) (hes : ∀ e ∈ es, IsEntry root e) :
    Behaves d root active (keyedEntries d.source value h es) fun _ => True := by
  induction es with
  | nil => exact .pure trivial
  | cons e es ih =>
    obtain ⟨he, hes⟩ := List.forall_mem_cons.mp hes
    rw [keyedEntries]
    refine .bind (hvalue _ he.parts.1) fun k _ => .bind behaves_canBeKey fun b _ => ?_
    split_ifs
    · exact behaves_failWithin
    · exact .bind (hvalue _ he.parts.2) fun _ _ => .bind (ih hes) fun _ _ => .pure trivial

lemma behaves_fillPairs {context : Context} {before : List Value} (hd : Numbered d root)
    (hvalue : Handles d root active value) (hns : ∀ n ∈ ns, n ∈ root.parts) :
    Behaves d root active (fillPairs d.source value context h before ns) fun _ => True := by
  induction ns generalizing before with
  | nil => exact .pure trivial
  | cons n ns ih =>
    obtain ⟨hn, hns⟩ := List.forall_mem_cons.mp hns
    have hfollow := follow_mem hd hn
    rw [fillPairs]
    split
    · next g own heq =>
      refine .bind (behaves_entriesOf hd (heq ▸ hfollow)) fun es hes => ?_
      split
      · have he := List.forall_mem_singleton.mp hes
        exact .bind (hvalue _ he.parts.1) fun _ _ => .bind (hvalue _ he.parts.2) fun _ _ =>
          .bind behaves_newPart fun _ _ => .bind behaves_setContent fun _ _ => ih hns
      · exact behaves_failWithin
    · exact behaves_failWithin

lemma behaves_fill (hd : Numbered d root) (hn : n ∈ root.parts) (hfuel : d.size < fuel)
    (hvalue : Handles d root active value) : Behaves d root active (fill d.source fuel value n) fun _ => True := by
  rw [fill.eq_def]
  refine .bind behaves_tagOf fun tag _ => ?_
  split
  · split
    · exact .bind (.mapM fun m hm => hvalue m (Node.parts_trans root hn hm)) fun _ _ => behaves_setContent
    · exact behaves_failAt
  · split
    · split
      · refine .bind (behaves_flatten hd hn hfuel) fun _ hes => .bind (behaves_keyedEntries hvalue hes) fun _ _ => ?_
        split <;> exact behaves_setContent
      · exact behaves_failAt
    · split
      · exact behaves_fillPairs hd hvalue fun m hm => Node.parts_trans root hn hm
      · exact behaves_failWithin

end Collections

section Values

variable {d : Document} {root n : Node} {active : List Nat} {fuel : Nat} {tag : Text}

/-- What is wrong with the text of a scalar is that it does not suit the tag. -/
lemma expected_of_scalarOf {t : Text} (hn : n ∈ root.parts) (htag : IsTagOf n tag) (ht : Tells d n t) {fault : Fault}
    (h : scalarOf n tag t = .error fault) : Expected d root fault := by
  cases (settles_scalarOf n tag t).of_error h with
  | marked hmarked => exact expected_of_isMarked hmarked
  | number => exact .inl (.inr rfl)
  | time => exact .inl (.inr rfl)
  | misread hmisread =>
    rcases htag with rfl | ⟨-, rfl⟩
    · exact .inr ⟨n, hn, .text ht hmisread⟩
    · exact absurd rfl hmisread.ne_string
  | timeWithoutText htime hkind =>
    rw [htag.eq_iff (by decide) (by decide)] at htime
    cases n with
    | mapping g own => exact .inr ⟨_, hn, .time ht htime⟩
    | _ => cases hkind

lemma behaves_make (hd : Numbered d root) (hn : n ∈ root.parts) (hsolid : n.isSolid = true) (htag : IsTagOf n tag)
    (hfuel : d.size < fuel) (hvalue : ∀ deep, Handles d root active (value d.source fuel deep))
    (deep : Bool) : Behaves d root active (make d.source (fuel + 1) deep n tag) fun _ => True := by
  rw [make]
  split
  · refine .bind (behaves_textOf hd hn hfuel) fun t ht => ?_
    rw [follow_of_solid d.source hsolid] at ht
    split
    · exact .pure trivial
    · next h => exact .fail (expected_of_scalarOf hn htag ht h)
  · split
    · refine .bind behaves_setContent fun _ _ => ?_
      split
      · exact .bind (behaves_fill hd hn hfuel (hvalue true)) fun _ _ => .pure trivial
      · exact .bind (.update fun s hs => hs.of_entries rfl
          (List.forall_mem_append.mpr ⟨hs.pending, List.forall_mem_singleton.mpr hn⟩) hs.active) fun _ _ => .pure trivial
    · split
      · next hmapping =>
        have hown := (htag.eq_iff (by decide) (by decide)).mp hmapping
        exact .bind (behaves_namedMapping hd hn hown hfuel (hvalue true) (hvalue deep)) fun _ _ =>
          .bind behaves_setContent fun _ _ => .pure trivial
      · exact behaves_failAt

/-- Whatever a node is, making its value ends as expected. -/
theorem behaves_value (hd : Numbered d root) (hclosed : Closed d root) (hfuel : Ample d active fuel)
    (deep : Bool) : Handles d root active (value d.source fuel deep) := by
  intro n hn
  -- a node that is begun takes one unit of fuel for its value and one for making it
  induction fuel using Nat.twoStepInduction generalizing active deep n with
  | zero => exact absurd hfuel.lt (by omega)
  | one => exact absurd hfuel.lt (by omega)
  | more fuel ih _ =>
    have hfollow := follow_mem hd hn
    have hsolid : (follow d.source n).isSolid = true := hclosed n hn
    intro s hs
    rw [value]
    refine .step (a := s) (t := s) rfl ?_
    cases s.done.lookup (follow d.source n).head.id with
    | some v => exact .of_eq rfl ⟨hs, trivial⟩
    | none =>
      refine .step (a := s) (t := s) rfl ?_
      split_ifs with hactive
      · exact expected_of_isMarked rfl
      · rw [hs.active, List.contains_iff_mem] at hactive
        have hbegun := hfuel.begin (hd.bounded _ hfollow hsolid) hactive
        refine .step (a := ()) (t := { s with active := (follow d.source n).head.id :: s.active }) rfl ?_
        have hs' : Watch d root ((follow d.source n).head.id :: active)
            { s with active := (follow d.source n).head.id :: s.active } :=
          hs.of_entries rfl hs.pending (congrArg _ hs.active)
        refine (behaves_tagOf _ hs').bind fun tag t ht => ?_
        refine (behaves_make hd hfollow hsolid ht.2 (Nat.lt_of_succ_lt hbegun.lt)
          (fun deep m hm => ih hbegun deep m hm) deep _ ht.1).bind fun v u hu => ?_
        refine .step (a := ()) rfl (.of_eq rfl ⟨hu.1.of_entries rfl hu.1.pending ?_, trivial⟩)
        show u.active.filter _ = active
        rw [hu.1.active, filter_active hactive]

lemma behaves_fillPending (hd : Numbered d root) (hclosed : Closed d root) (hfuel : Ample d active fuel) (left : Nat) :
    Behaves d root active (fillPending d.source fuel left) fun _ => True := by
  induction left with
  | zero => exact .pure trivial
  | succ left ih =>
    rw [fillPending]
    refine .bind .read fun s hs => ?_
    split
    · exact .pure trivial
    · next n rest hpending =>
      have hall := hs.pending
      rw [hpending, List.forall_mem_cons] at hall
      refine .bind (.update fun s hs' => hs'.of_entries rfl hall.2 hs'.active) fun _ _ => ?_
      exact .bind (behaves_fill hd hall.1 (Nat.lt_of_succ_lt hfuel.lt) (behaves_value hd hclosed hfuel false)) fun _ _ => ih

end Values

end Make

open Make

/-- The value of a document fails to be made only in expected ways. -/
theorem Document.expected_of_value {d : Document} {root : Node} {fault : Fault} (hd : Numbered d root)
    (hclosed : Closed d root) (hsize : root.parts.length ≤ d.size) (hroot : d.root = some root)
    (h : d.value .names = .error fault) : Expected d root fault := by
  have hample : Ample d [] d.depth := ⟨List.nodup_nil, by simp, by rw [Document.depth]; omega⟩
  have hbehaves : Behaves d root [] (do
      let v ← Make.value d.source d.depth false root
      Make.fillPending d.source d.depth (d.size + 1)
      Make.current v) fun _ => True :=
    .bind (behaves_value hd hclosed hample false root (Node.mem_parts_self root)) fun v _ =>
      .bind (behaves_fillPending hd hclosed hample _) fun _ _ => .bind .read fun _ _ => .pure trivial
  have hstart : Watch d root [] ⟨[], [], [], [], [], [], d.size⟩ :=
    ⟨⟨fun h own hn e he => comes_of_mem he, fun _ _ _ _ => rfl⟩, (unmerged_start rfl).trans hsize, by simp, rfl⟩
  rw [Document.value_run hroot] at h
  exact (hbehaves _ hstart).of_error (map_eq_error h)

end DocPath.Yaml
