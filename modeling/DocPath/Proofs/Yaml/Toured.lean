import DocPath.Proofs.Yaml.Beside

/-! Making the values of a fair document goes the way of its tour. A mapping is refused for a name that is there twice
where the tour meets it merged, and nowhere else. -/

namespace DocPath.Yaml

namespace Make

section Mappings

variable {d : Document} {root n c : Node} {filling rest : List Node} {t : Tour} {s : Making} {h : Head}
  {own es : List (Node × Node)} {fuel : Nat} {deep : Bool} {seen : List Text}

/-- A collection is met that begins to be made. -/
structure Met (d : Document) (root n : Node) (rest : List Node) (t : Tour) (s : Making) : Prop where
  passed : Passed d root t
  ahead : ∃ c, t.ahead = c :: rest ∧ follow d.source c = n
  new : n.head.id ∉ t.visited
  tracks : Tracks d root { t with visited := n.head.id :: t.visited } s

/-- The names in a mapping are refused only if it has been merged before and one is there twice. -/
lemma checkNames_met (hd : Numbered d root) (hfair : Fair d root) (hn : .mapping h own ∈ root.parts)
    (htag : h.tag = Tag.mapping) (hinv : Invariant d root filling s) (hmet : Met d root (.mapping h own) rest t s) :
    Yields (Refuses (¬Collides d root)) (checkNames d.source (value d.source fuel true) [] (entriesNow s h own) s)
      fun _ s' => Goes d root filling 0 s s' ∧ Tracks d root { t with visited := h.id :: t.visited } s' ∧
        (t.Absorbed d (.mapping h own) → (names d root (flatOf d own)).Nodup) := by
  have hknown := hinv.consistent.known h own hn
  have hgoes : Gives (checkNames d.source (value d.source fuel true) [] (entriesNow s h own) s) _ :=
    checkNames_goes hd (value_goes hd fuel true) hknown hinv
  obtain ⟨c, hahead, hfollow⟩ := hmet.ahead
  -- a mapping that has been merged is flat, any other has its own entries, whose names are distinct
  by_cases habsorbed : t.Absorbed d (.mapping h own)
  · rw [hmet.tracks.entriesNow_flat hinv hn (hfair.grounded _ hn) habsorbed] at hknown hgoes ⊢
    have hnamed : ∀ e ∈ explicit d.source (flatOf d own), keyName? root (follow d.source e.1) ≠ none :=
      fun e he => hfair.named_flat hd hn htag e (mem_explicit.mp he).1
    refine (((checkNames_tracks hd hknown hnamed
      (fun e he => key_aside hd hfair (hknown e (mem_explicit.mp he).1) (hnamed e he)) hinv hmet.tracks).expect ?_).and
        hgoes).mono fun _ s' hall => ⟨hall.2.1, hall.1, fun _ => hall.2.2.1⟩
    refine fun fault hfault hrepeated hno => hfault hrepeated ⟨?_, by simp⟩
    exact hmet.passed.good hno _ ⟨c, rest, hahead, hfollow, hmet.new⟩ htag habsorbed
  · rw [hmet.tracks.kept h own hn habsorbed] at hknown hgoes ⊢
    have hnamed := hfair.named _ hn htag
    refine (((checkNames_tracks hd hknown hnamed
      (fun e he => key_aside hd hfair (hknown e (mem_explicit.mp he).1) (hnamed e he)) hinv hmet.tracks).expect ?_).and
        hgoes).mono fun _ s' hall => ⟨hall.2.1, hall.1, fun h => absurd h habsorbed⟩
    exact fun fault hfault hrepeated _ => hfault hrepeated ⟨hfair.distinct _ hn htag, by simp⟩

lemma follows_leaf (hd : Numbered d root) (hn : n ∈ root.parts) (hno : ¬Enclosed root (follow d.source n))
    (hleaf : isCollectionTag (follow d.source n).head.tag = false) :
    Follows d root filling [n] (value d.source fuel deep n) := by
  rintro rest s hinv ⟨t, hpassed, hahead, ht⟩
  refine ((value_leaf hd hn hleaf ht).and (value_goes hd fuel deep n hn (fun _ => hno) s hinv)).mono ?_
  rintro v s' ⟨⟨-, ht'⟩, hgoes, -⟩
  exact ⟨hgoes, _, hpassed.skip hahead fun h => absurd (hleaf.symm.trans h) (by decide), rfl, ht'.at rest⟩

/-- A mapping that is met is gone through at once. -/
lemma namedMapping_met (hd : Numbered d root) (hfair : Fair d root)
    (hvalue : ∀ m ∈ root.parts, ¬Enclosed root (follow d.source m) →
      Follows d root filling [m] (value d.source fuel false m))
    (hn : .mapping h own ∈ root.parts) (hno : ¬Enclosed root (.mapping h own)) (htag : h.tag = Tag.mapping)
    (hinv : Invariant d root filling s) (hmet : Met d root (.mapping h own) rest t s) :
    Yields (Refuses (¬Collides d root))
      (namedMapping d.source fuel (value d.source fuel true) (value d.source fuel false) (.mapping h own) s)
      fun _ s' => Tours d root rest s' := by
  have hnamed := hfair.named_flat hd hn htag
  obtain ⟨c, hahead, hfollow⟩ := hmet.ahead
  rw [namedMapping]
  refine .step (a := entriesNow s h own) (t := s) rfl ((checkNames_met hd hfair hn htag hinv hmet).bind ?_)
  rintro - s₁ ⟨hgoes₁, ht₁, hgood⟩
  -- the place is good, and what is ahead now are the flat entries
  have hpassed := hmet.passed.meet hahead hfollow htag hmet.new hgood
  refine ((ht₁.flatten (inside d (.mapping h own) ++ rest) hd hgoes₁.inv hn (hfair.grounded _ hn)).and
    (flatten_goes hd hn hgoes₁.inv)).bind ?_
  rintro es s₂ ⟨⟨rfl, ht₂⟩, hgoes₂, -, -, hcomes, -⟩
  have hentry (e : Node × Node) (he : e ∈ flatOf d own) : IsEntry root e := (hcomes e he).isEntry hd hn
  have hentries : Follows d root filling ((flatOf d own).map (·.2))
      (namedEntries (value d.source fuel true) (value d.source fuel false) (flatOf d own)) :=
    follows_namedEntries (fun e he => (key_aside hd hfair (hentry e he) (hnamed e he)).follows)
      fun e he => hvalue e.2 (hentry e he).parts.2 ((hcomes e he).not_enclosed hd hn hno)
  rw [show inside d (.mapping h own) = _ from if_pos htag] at hpassed ht₂
  exact (hentries.map rest s₂ hgoes₂.inv ⟨_, hpassed, rfl, ht₂⟩).mono fun _ _ h => h.2

/-- A way to make the values of collections where they are met. -/
def MakesMet (d : Document) (root : Node) (filling : List Node) (x : Node → Text → Make Value) : Prop :=
  ∀ n ∈ root.parts, ¬Enclosed root n → isCollectionTag n.head.tag = true → ∀ rest t s, Invariant d root filling s →
    Met d root n rest t s → Yields (Refuses (¬Collides d root)) (x n n.head.tag s) fun _ s' => Tours d root rest s'

lemma make_met (hd : Numbered d root) (hfair : Fair d root)
    (hvalue : ∀ m ∈ root.parts, ¬Enclosed root (follow d.source m) →
      Follows d root filling [m] (value d.source fuel false m)) :
    MakesMet d root filling (make d.source (fuel + 1) false) := by
  intro n hn hout htag rest t s hinv hmet
  obtain ⟨c, hahead, hfollow⟩ := hmet.ahead
  by_cases hfilled : isFilledTag .names n.head.tag = true
  · rw [make, if_neg (not_isScalarTag_filled hfilled),
      if_pos (show isFilledTag d.source.rule n.head.tag = true from hfilled)]
    refine .step (a := ()) rfl (.step (a := ()) rfl (.of_eq rfl
      ⟨_, hmet.passed.wait hahead hfollow hfilled hmet.new, rfl, ?_⟩))
    exact ⟨hmet.tracks.visited, congrArg (· ++ [n]) hmet.tracks.waiting, hmet.tracks.kept, hmet.tracks.resolved,
      hmet.tracks.merge⟩
  · have hmapping : n.head.tag = Tag.mapping := by
      rw [isCollectionTag, Bool.or_eq_true, or_iff_right hfilled] at htag
      exact beq_iff_eq.mp htag
    -- what is no mapping has no names
    have hbare (hno : ∀ g other, n ≠ .mapping g other) (hinside : inside d n = []) (hentries : n.entries = []) :
        Tours d root rest s := by
      have hnone : names d root (flatOf d []) = [] := by
        rw [flatOf, Plain.flatEntries (fun e he => absurd he List.not_mem_nil)]
        rfl
      refine ⟨_, hmet.passed.meet hahead hfollow hmapping hmet.new fun _ => by rw [hentries, hnone]; exact List.nodup_nil,
        by rw [hinside]; rfl, hmet.tracks.open hno⟩
    have hunfilled : ¬isFilledTag d.source.rule Tag.mapping = true := hmapping ▸ hfilled
    rw [make, hmapping, if_neg (by decide), if_neg hunfilled, if_pos rfl]
    cases n with
    | mapping h own =>
      refine (namedMapping_met hd hfair hvalue hn hout hmapping hinv hmet).bind fun v s₁ ht => ?_
      exact .step (a := ()) rfl (.of_eq rfl ht.setContent)
    | sequence h items =>
      cases items with
      | nil =>
        have hinside : inside d (.sequence h []) = [] := by simp [inside]
        exact .step (a := .map false []) (t := s) rfl (.step (a := ()) rfl
          (.of_eq rfl (hbare (by simp) hinside rfl).setContent))
      | cons item items => exact yields_error rfl rfl
    | scalar h text =>
      cases text with
      | nil =>
        exact .step (a := .map false []) (t := s) rfl (.step (a := ()) rfl
          (.of_eq rfl (hbare (by simp) rfl rfl).setContent))
      | cons c text => exact yields_error rfl rfl
    | «alias» id => exact yields_error rfl rfl

lemma value_follows_of (hd : Numbered d root) (hmake : MakesMet d root filling (make d.source fuel false))
    (hn : n ∈ root.parts) (hno : ¬Enclosed root (follow d.source n)) :
    Follows d root filling [n] (value d.source (fuel + 1) false n) := by
  cases htag : isCollectionTag (follow d.source n).head.tag with
  | false => exact follows_leaf hd hn hno htag
  | true =>
    have hm := follow_mem hd hn
    rintro rest s hinv ⟨t, hpassed, hahead, ht⟩
    refine (Yields.and ?_ (value_goes hd (fuel + 1) false n hn (fun _ => hno) s hinv)).mono fun _ _ h => ⟨h.2.1, h.1⟩
    refine yields_value rfl (fun v hdone => ?_) fun tag hdone hactive hof => ?_
    · have hold := (ht.visited _ hm hno htag).mpr (.inl (by rw [hdone]; exact Option.some_ne_none v))
      exact ⟨_, hpassed.skip hahead fun _ => hold, rfl, ht.at rest⟩
    · obtain rfl : tag = (follow d.source n).head.tag := hof.resolve_right fun hvalue => by
        rw [hvalue.1] at htag
        exact absurd htag (by decide)
      have hnew : (follow d.source n).head.id ∉ t.visited := fun hold =>
        ((ht.visited _ hm hno htag).mp hold).elim (fun h => h hdone) hactive
      have hsolid := isSolid_of_collection htag
      have hbegun := hinv.activate hdone
      refine ((hmake _ hm hno htag rest t _ hbegun ⟨hpassed, ⟨n, hahead, rfl⟩, hnew, ht.activate⟩).and
        (make_goes hd fuel false _ hm (fun _ => hno) _ _ hsolid (.inl rfl) hbegun List.mem_cons_self)).mono ?_
      rintro v s₁ ⟨⟨t₁, hpassed₁, hahead₁, ht₁⟩, hgoes, -⟩
      refine ⟨t₁, hpassed₁, hahead₁, ht₁.finish hd hm hsolid (fun hmerge => ?_) (hgoes.active ▸ List.mem_cons_self)⟩
      rw [hmerge] at htag
      exact absurd htag (by decide)

theorem value_follows (hd : Numbered d root) (hfair : Fair d root) (fuel : Nat) :
    ∀ n ∈ root.parts, ¬Enclosed root (follow d.source n) → Follows d root filling [n] (value d.source fuel false n) := by
  have both : (∀ n ∈ root.parts, ¬Enclosed root (follow d.source n) →
      Follows d root filling [n] (value d.source fuel false n)) ∧ MakesMet d root filling (make d.source fuel false) := by
    induction fuel with
    | zero => exact ⟨fun _ _ _ _ _ _ _ => yields_throw rfl, fun _ _ _ _ _ _ _ _ _ => yields_throw rfl⟩
    | succ fuel ih => exact ⟨fun n hn hno => value_follows_of hd ih.2 hn hno, make_met hd hfair ih.1⟩
  exact both.1

lemma fillPending_follows {bound : Nat} (hd : Numbered d root) (hfair : Fair d root) (hinv : Invariant d root [] s)
    (ht : Tours d root [] s) :
    Yields (Refuses (¬Collides d root)) (fillPending d.source fuel bound s) fun _ s' => Tours d root [] s' := by
  induction bound generalizing s with
  | zero => exact .of_eq rfl ht
  | succ bound ih =>
    rw [fillPending]
    refine .step (a := s) (t := s) rfl ?_
    cases hs : s.pending with
    | nil => exact .of_eq rfl ht
    | cons n rest =>
      obtain ⟨t, hpassed, hahead, ht⟩ := ht
      obtain ⟨hn, hno⟩ := hinv.pending n (hs ▸ List.mem_cons_self)
      have hstart : Tracks d root ⟨[], rest, t.visited, t.opened⟩ { s with pending := rest } :=
        ⟨ht.visited, rfl, ht.kept, ht.resolved, ht.merge⟩
      have hin : n ∈ [n] := List.mem_singleton_self n
      refine .step (a := ()) rfl (((fill_follows hd hfair (value_follows hd hfair fuel) hn hno hin (hinv.start hs) hstart
        (hpassed.fill hahead (ht.waiting.symm.trans hs))).and
          (fill_goes hd (value_goes hd fuel false) hn (fun _ => hno) (.inr ⟨n, hin, rfl⟩) (hinv.start hs))).bind ?_)
      rintro - s₁ ⟨ht₁, hgoes, hstocked⟩
      exact ih (hgoes.inv.filled hstocked) ht₁

lemma tours_initial : Tours d root [root] ⟨[], [], [], [], [], [], d.size⟩ :=
  ⟨.start root, .refl, rfl, fun _ _ _ _ => by simp [Tour.start], rfl, fun _ _ _ _ => rfl, by simp [Tour.start],
    fun _ _ _ => rfl⟩

/-- The values of a fair document are made to the end of its tour, past good places only. -/
theorem making_follows (hd : Numbered d root) (hfair : Fair d root) :
    Yields (Refuses (¬Collides d root)) ((do
      let v ← Make.value d.source d.depth false root
      Make.fillPending d.source d.depth (d.size + 1)
      Make.current v : Make Value) ⟨[], [], [], [], [], [], d.size⟩) fun _ _ => ¬Collides d root := by
  refine (value_follows hd hfair d.depth root (Node.mem_parts_self root) (root_outside hd) [] _ invariant_initial
    tours_initial).bind ?_
  rintro w s₁ ⟨hgoes, ht⟩
  refine ((fillPending_follows hd hfair hgoes.inv ht).and
    (fillPending_goes hd hgoes.inv (left_le_of_goes hgoes))).bind ?_
  rintro - s₂ ⟨⟨t, hpassed, hahead, ht⟩, -, hpending, -⟩
  have hend : t.next? d = none := by rw [Tour.next?, hahead, ← ht.waiting, hpending]
  exact .of_eq rfl (hpassed.not_collides hend)

end Mappings

end Make

namespace Document

open Make

variable {d : Document} {root : Node} {v : Value} {fault : Fault}

/-- A fair document is refused for a name that is there twice only if it collides, -/
theorem collides_of_value (hd : Numbered d root) (hroot : d.root = some root) (hfair : Fair d root)
    (h : d.value .names = .error fault) (hrepeated : fault.isRepetition = true) : Collides d root := by
  rw [value_run hroot] at h
  exact Classical.not_not.mp ((making_follows hd hfair).of_error (map_eq_error h) hrepeated)

/-- and if it does, it has no value. -/
theorem not_collides_of_value (hd : Numbered d root) (hroot : d.root = some root) (hfair : Fair d root)
    (h : d.value .names = .ok v) : ¬Collides d root := by
  rw [value_run hroot] at h
  obtain ⟨⟨u, s⟩, hrun, -⟩ := map_eq_ok h
  exact (making_follows hd hfair).of_ok hrun

end Document

end DocPath.Yaml
