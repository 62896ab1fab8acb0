import DocPath.Proofs.Yaml.Mapping

/-! What is left to do once the root of a document is made: the sequences are filled, each with nodes that
may wait in turn. In the end the content of every part is known. -/

namespace DocPath.Yaml.Make

variable {root : Node} {size : Nat} {filling : List Node} {src : Source} {s : Making} {n : Node} {fuel : Nat}

lemma mapM_spec {value : Node → Make Value} {ns : List Node}
    (hvalue : ∀ n ∈ ns, Valued root size filling (value n) n) (hinv : Inv root filling s)
    (hactive : ∀ n ∈ ns, ∀ a ∈ s.active, a < n.head.id) :
    Yields (Clash root) (ns.mapM value s) fun xs s' => xs = ns.map ref ∧ Inv root filling s' ∧ After size s s' ∧
      ∀ n ∈ ns, (s'.done.lookup n.head.id).isSome := by
  induction ns generalizing s with
  | nil => exact .of_eq rfl ⟨rfl, hinv, .refl size s, by simp⟩
  | cons n ns ih =>
    rw [List.mapM_cons]
    refine (hvalue n List.mem_cons_self s hinv (hactive n List.mem_cons_self)).bind fun v s₁ hmade => ?_
    refine (ih (fun m hm => hvalue m (List.mem_cons_of_mem _ hm)) hmade.inv fun m hm =>
      hmade.after.active ▸ hactive m (List.mem_cons_of_mem _ hm)).bind ?_
    rintro xs s₂ ⟨rfl, hinv₂, hafter, hdone⟩
    refine .of_eq rfl ⟨by rw [hmade.value, List.map_cons], hinv₂, hmade.after.trans hafter, fun m hm => ?_⟩
    rcases List.mem_cons.mp hm with rfl | hm
    · exact hafter.done _ hmade.done
    · exact hdone m hm

/-- The node that is about to be filled is full. -/
lemma Inv.filled {h : Head} {ns : List Node} (hw : Whole root size) (hinv : Inv root [.sequence h ns] s)
    (hn : .sequence h ns ∈ root.parts) (hdone : ∀ n ∈ ns, (s.done.lookup n.head.id).isSome) :
    Inv root [] { s with contents := (h.id, content (.sequence h ns)) :: s.contents } := by
  have hnext := hinv.setContent hw hn
  have hfull : Full { s with contents := (h.id, content (.sequence h ns)) :: s.contents } (.sequence h ns) :=
    ⟨lookup_cons_self, hdone, trivial⟩
  refine ⟨hnext.entries, hnext.texts, fun m hm v hv => ?_, hnext.pending⟩
  obtain ⟨hv, hsettled⟩ := hnext.done m hm v hv
  refine ⟨hv, ?_⟩
  cases m with
  | sequence g ms =>
    rcases hsettled with h | h | h
    · exact .inl h
    · rw [List.mem_singleton.mp h]
      exact .inr (.inr hfull)
    · exact .inr (.inr h)
  | mapping g es => exact hsettled
  | _ => trivial

/-- The next node begins to be filled. -/
lemma Inv.begin {h : Head} {ns rest : List Node} (hinv : Inv root [] s) (hs : s.pending = .sequence h ns :: rest) :
    Inv root [.sequence h ns] { s with pending := rest } := by
  refine ⟨hinv.entries, hinv.texts, fun m hm v hv => ?_, fun m hm => ?_⟩
  · obtain ⟨hv, hsettled⟩ := hinv.done m hm v hv
    refine ⟨hv, ?_⟩
    cases m with
    | sequence g ms =>
      rcases hsettled with h | h | h
      · rw [hs] at h
        rcases List.mem_cons.mp h with h | h
        · exact .inr (.inl (List.mem_singleton.mpr h))
        · exact .inl h
      · exact absurd h List.not_mem_nil
      · exact .inr (.inr ⟨h.content, h.children, h.distinct⟩)
    | mapping g es => exact ⟨hsettled.content, hsettled.children, hsettled.distinct⟩
    | _ => trivial
  · exact hinv.pending m (hs ▸ List.mem_cons_of_mem _ hm)

lemma fill_spec {h : Head} {ns : List Node} (hw : Whole root size) (hrule : src.rule = .names)
    (hn : .sequence h ns ∈ root.parts) (hfuel : 2 * size + 3 ≤ fuel) (hinv : Inv root [.sequence h ns] s)
    (hactive : s.active = []) :
    Yields (Clash root) (fill src fuel (value src fuel false) (.sequence h ns) s) fun _ s' =>
      Inv root [] s' ∧ After size s s' := by
  have htag : h.tag = Tag.sequence := hw.sound _ hn
  have hrun : fill src fuel (value src fuel false) (.sequence h ns) s =
      (ns.mapM (value src fuel false) >>= fun xs => setContent h.id (.list xs)) s := by
    rw [fill, bind_ok (tagOf_run hinv.texts)]
    show (if h.tag = Tag.sequence then _ else _ : Make Unit) s = _
    rw [if_pos htag]
    rfl
  rw [hrun]
  refine (mapM_spec (fun n hmem => value_spec hw hrule (Node.parts_trans root hn hmem) (by omega)) hinv
    fun n hmem a ha => ?_).bind ?_
  · rw [hactive] at ha
    exact absurd ha List.not_mem_nil
  · rintro xs s₁ ⟨rfl, hinv₁, hafter, hdone⟩
    exact .of_eq rfl ⟨hinv₁.filled hw hn hdone, hafter.setContents _⟩

/-- Filling comes to an end before the bound does. -/
lemma fillPending_spec {bound : Nat} (hw : Whole root size) (hrule : src.rule = .names)
    (hfuel : 2 * size + 3 ≤ fuel) (hinv : Inv root [] s) (hactive : s.active = []) (hbound : left size s ≤ bound) :
    Yields (Clash root) (fillPending src fuel bound s) fun _ s' =>
      Inv root [] s' ∧ s'.pending = [] ∧ ∀ id, (s.done.lookup id).isSome → (s'.done.lookup id).isSome := by
  induction bound generalizing s with
  | zero =>
    have hpending : s.pending.length = 0 := by
      rw [left] at hbound
      omega
    exact .of_eq rfl ⟨hinv, List.length_eq_zero_iff.mp hpending, fun _ h => h⟩
  | succ bound ih =>
    rw [fillPending, bind_ok (t := s) rfl]
    cases hs : s.pending with
    | nil => exact .of_eq rfl ⟨hinv, hs, fun _ h => h⟩
    | cons n rest =>
      obtain ⟨hn, h, ns, rfl⟩ := hinv.pending n (hs ▸ List.mem_cons_self)
      have hless : left size { s with pending := rest } + 1 = left size s := by
        rw [left, left, hs, List.length_cons]
        show rest.length + (unmade size s).card + 1 = _
        omega
      show Yields (Clash root) ((fill src fuel (value src fuel false) (.sequence h ns) >>= fun _ =>
        fillPending src fuel bound) { s with pending := rest }) _
      refine (fill_spec hw hrule hn hfuel (hinv.begin hs) hactive).bind ?_
      rintro - s₁ ⟨hinv₁, hafter⟩
      have hle := hafter.left
      refine (ih hinv₁ (hafter.active.trans hactive) (by omega)).mono ?_
      rintro - s₂ ⟨hinv₂, hpending, hdone⟩
      exact ⟨hinv₂, hpending, fun id hid => hdone id (hafter.done id hid)⟩

/-- If nothing waits, everything in a node that is made is made, too. -/
lemma done_parts (hw : Whole root size) (hinv : Inv root [] s) (hpending : s.pending = []) (hn : n ∈ root.parts)
    (hdone : (s.done.lookup n.head.id).isSome) : ∀ m ∈ n.parts, (s.done.lookup m.head.id).isSome := by
  induction hk : size - n.head.id using Nat.strongRecOn generalizing n with
  | ind k ih =>
    intro m hm
    rcases Node.mem_parts.mp hm with rfl | ⟨c, hc, hm⟩
    · exact hdone
    · obtain ⟨v, hv⟩ := Option.isSome_iff_exists.mp hdone
      have hchildren : ∀ c ∈ n.children, (s.done.lookup c.head.id).isSome := by
        have hsettled := (hinv.done n hn v hv).2
        cases n with
        | sequence h ns =>
          rcases hsettled with h | h | h
          · rw [hpending] at h
            exact absurd h List.not_mem_nil
          · exact absurd h List.not_mem_nil
          · exact h.children
        | mapping h es => exact hsettled.children
        | _ => exact fun c hc => absurd hc List.not_mem_nil
      have hpart := Node.parts_trans root hn hc
      have hlater := hw.later n hn c hc
      have hbound := hw.bounded c hpart
      exact ih _ (by omega) hpart (hchildren c hc) rfl m hm

/-- A node with a content. -/
def IsCollection : Node → Prop
  | .sequence .. => True
  | .mapping .. => True
  | _ => False

/-- In the end all contents are known. -/
lemma contents_of_done (hinv : Inv root [] s) (hpending : s.pending = [])
    (hdone : ∀ m ∈ root.parts, (s.done.lookup m.head.id).isSome) (hn : n ∈ root.parts) (hc : IsCollection n) :
    s.contents.lookup n.head.id = some (content n) := by
  obtain ⟨v, hv⟩ := Option.isSome_iff_exists.mp (hdone n hn)
  have hsettled := (hinv.done n hn v hv).2
  cases n with
  | sequence h ns =>
    rcases hsettled with h | h | h
    · rw [hpending] at h
      exact absurd h List.not_mem_nil
    · exact absurd h List.not_mem_nil
    · exact h.content
  | mapping h es => exact hsettled.content
  | _ => exact absurd hc id

lemma distinct_of_done (hinv : Inv root [] s) (hdone : ∀ m ∈ root.parts, (s.done.lookup m.head.id).isSome)
    (hn : n ∈ root.parts) : DistinctKeys n := by
  obtain ⟨v, hv⟩ := Option.isSome_iff_exists.mp (hdone n hn)
  have hsettled := (hinv.done n hn v hv).2
  cases n with
  | mapping h es => exact hsettled.distinct
  | _ => trivial

/-- Making the root and filling what waits makes everything, unless two keys of a mapping are equal. -/
theorem make_spec (hw : Whole root size) (hrule : src.rule = .names) (hfuel : 2 * size + 3 ≤ fuel) :
    Yields (Clash root) ((value src fuel false root >>= fun v => fillPending src fuel (size + 1) >>= fun _ => pure v)
      ⟨[], [], [], [], [], [], size⟩) fun v s => v = ref root ∧
      (∀ m ∈ root.parts, IsCollection m → s.contents.lookup m.head.id = some (content m)) ∧
      ∀ m ∈ root.parts, DistinctKeys m := by
  have hroot := Node.mem_parts_self root
  have hinit : Inv root [] ⟨[], [], [], [], [], [], size⟩ :=
    ⟨rfl, rfl, fun m hm v hv => absurd hv (by simp), fun m hm => absurd hm List.not_mem_nil⟩
  refine (value_spec hw hrule hroot (by omega) _ hinit fun a ha => absurd ha List.not_mem_nil).bind
    fun v s₁ hmade => ?_
  have hleft : left size s₁ ≤ size + 1 := by
    refine hmade.after.left.trans ?_
    have hcard : (unmade size ⟨[], [], [], [], [], [], size⟩).card ≤ size :=
      (Finset.card_filter_le _ _).trans (Nat.le_of_eq (Finset.card_range size))
    rw [left, List.length_nil]
    omega
  refine (fillPending_spec hw hrule hfuel hmade.inv hmade.after.active hleft).bind ?_
  rintro - s₂ ⟨hinv, hpending, hgrown⟩
  have hdone := done_parts hw hinv hpending hroot (hgrown _ hmade.done)
  exact .of_eq rfl ⟨hmade.value, fun m hm hc => contents_of_done hinv hpending hdone hm hc,
    fun m hm => distinct_of_done hinv hdone hm⟩

end DocPath.Yaml.Make
