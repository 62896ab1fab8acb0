import DocPath.Proofs.Yaml.Keying

/-! What making the value of a node comes to, in any document: what is known afterwards, if nothing is refused. -/

namespace DocPath.Yaml.Make

/-- A document in which no mapping merges itself, keys have names by themselves, and no two explicit keys of a mapping
have the same name. -/
structure Fair (d : Document) (root : Node) : Prop where
  grounded : ∀ n ∈ root.parts, Grounded d n
  named : ∀ n ∈ root.parts, n.head.tag = Tag.mapping →
    ∀ e ∈ explicit d.source n.entries, keyName? root (follow d.source e.1) ≠ none
  mergedNamed : ∀ n ∈ mergedNodes d root, ∀ e ∈ explicit d.source n.entries, keyName? root (follow d.source e.1) ≠ none
  distinct : ∀ n ∈ root.parts, n.head.tag = Tag.mapping → (names d root n.entries).Nodup

instance (d : Document) (root : Node) : Decidable (Fair d root) :=
  decidable_of_iff ((∀ n ∈ root.parts, Grounded d n) ∧
      (∀ n ∈ root.parts, n.head.tag = Tag.mapping →
        ∀ e ∈ explicit d.source n.entries, keyName? root (follow d.source e.1) ≠ none) ∧
      (∀ n ∈ mergedNodes d root, ∀ e ∈ explicit d.source n.entries, keyName? root (follow d.source e.1) ≠ none) ∧
      ∀ n ∈ root.parts, n.head.tag = Tag.mapping → (names d root n.entries).Nodup)
    ⟨fun h => ⟨h.1, h.2.1, h.2.2.1, h.2.2.2⟩, fun h => ⟨h.grounded, h.named, h.mergedNamed, h.distinct⟩⟩

/-- A way to make the values of nodes, of those in keys only with all that is in them. -/
def Makes (d : Document) (root : Node) (filling : List Node) (deep : Bool) (x : Node → Make Value) : Prop :=
  ∀ n ∈ root.parts, (deep = false → ¬Enclosed root (follow d.source n)) → ∀ s, Invariant d root filling s →
    Gives (x n s) fun v s' => Goes d root filling 0 s s' ∧ Has d.source s' n v ∧ Stands (follow d.source n) v

section Names

variable {d : Document} {root n : Node} {filling : List Node} {s s' s'' : Making} {es : List (Node × Node)}
  {v : Value} {fair : Prop} {key value : Node → Make Value} {slack fuel : Nat} {deep : Bool}

/-- The tag of a node, which may have become that of a text. -/
def IsTagOf (n : Node) (tag : Text) : Prop := tag = n.head.tag ∨ n.head.tag = Tag.value ∧ tag = Tag.string

lemma tagOf_spec (n : Node) (s : Making) : ∃ tag, tagOf n s = .ok (tag, s) ∧ IsTagOf n tag := by
  have hrun : tagOf n s = (if n.head.tag = Tag.value ∧ s.texts.contains n.head.id = true then
      (pure Tag.string : Make Text) else pure n.head.tag) s := rfl
  rw [hrun]
  split_ifs with h
  · exact ⟨_, rfl, .inr ⟨h.1, rfl⟩⟩
  · exact ⟨_, rfl, .inl rfl⟩

lemma tagOf_filled {rule : KeyRule} (h : isFilledTag rule n.head.tag = true) : tagOf n s = .ok (n.head.tag, s) := by
  obtain ⟨tag, htag, hof⟩ := tagOf_spec n s
  obtain rfl : tag = n.head.tag := hof.resolve_right fun hvalue => by
    have hcollection := isCollectionTag_filled h
    rw [hvalue.1] at hcollection
    exact absurd hcollection (by decide)
  exact htag

lemma IsTagOf.eq_iff {tag tag' : Text} (h : IsTagOf n tag) (hvalue : tag' ≠ Tag.value) (hstring : tag' ≠ Tag.string) :
    tag = tag' ↔ n.head.tag = tag' := by
  rcases h with rfl | ⟨htag, rfl⟩
  · exact Iff.rfl
  · rw [htag]
    exact ⟨fun h => absurd h.symm hstring, fun h => absurd h.symm hvalue⟩

lemma IsTagOf.eq_of_not_scalar {tag : Text} (h : IsTagOf n tag) (hscalar : ¬isScalarTag tag = true) : tag = n.head.tag :=
  h.resolve_right fun hstring => hscalar (by rw [hstring.2]; decide)

lemma nameOf_spec (hv : ∀ own, keyName? root n = some own → (v.unfold s.contents).asName = .ok own) :
    Yields (Refuses fair) (nameOf v s) fun name s' => s' = s ∧ ∀ own, keyName? root n = some own → name = own := by
  rw [nameOf]
  refine .step (a := v.unfold s.contents) (t := s) rfl ?_
  cases hname : (v.unfold s.contents).asName with
  | error fault => exact yields_throw rfl
  | ok name =>
    refine .of_eq rfl ⟨rfl, fun own hown => ?_⟩
    rw [hv own hown] at hname
    exact (Except.ok.inj hname).symm

lemma names_cons {e : Node × Node} (he : merges d.source e = false) :
    names d root (e :: es) = (keyName? root (follow d.source e.1)).toList ++ names d root es := by
  rw [names, explicit_cons he, List.filterMap_cons]
  cases keyName? root (follow d.source e.1) <;> rfl

/-- The names of keys are refused if two of them are equal. -/
lemma checkNames_goes {seen : List Text} (hd : Numbered d root) (hkey : Makes d root filling true key)
    (hes : ∀ e ∈ es, IsEntry root e) (hinv : Invariant d root filling s) :
    Gives (checkNames d.source key seen es s) fun _ s' =>
      Goes d root filling 0 s s' ∧ (names d root es).Nodup ∧ ∀ name ∈ names d root es, name ∉ seen := by
  induction es generalizing s seen with
  | nil => exact .of_eq rfl ⟨.refl hinv, List.nodup_nil, by simp [names, explicit]⟩
  | cons e es ih =>
    obtain ⟨k, v⟩ := e
    obtain ⟨he, hes⟩ := List.forall_mem_cons.mp hes
    obtain ⟨tag, htag, hof⟩ := tagOf_spec (follow d.source k) s
    have hmerge := hof.eq_iff (show Tag.merge ≠ Tag.value by decide) (show Tag.merge ≠ Tag.string by decide)
    rw [checkNames]
    refine .step htag ?_
    by_cases hm : (follow d.source k).head.tag = Tag.merge
    · have hmerges : merges d.source (k, v) = true := decide_eq_true hm
      rw [if_pos (hmerge.mpr hm), names, explicit_cons_merge hmerges]
      exact ih hes hinv
    · rw [if_neg fun h => hm (hmerge.mp h)]
      have hplain : merges d.source (k, v) = false := decide_eq_false hm
      refine (hkey k he.parts.1 (by simp) s hinv).bind ?_
      rintro w s₁ ⟨hgoes, hhas, -⟩
      refine (nameOf_spec fun own => hgoes.inv.keyName hd he hhas).bind ?_
      rintro name s₂ ⟨rfl, hname⟩
      by_cases hseen : name ∈ seen
      · rw [if_pos (by simpa using hseen)]
        exact fun _ hall => hall
      · rw [if_neg (by simpa using hseen)]
        refine (ih hes hgoes.inv).mono ?_
        rintro - s' ⟨hgoes', hnodup, hnew⟩
        refine ⟨hgoes.trans hgoes', ?_⟩
        have hrest : ∀ x ∈ names d root es, x ∉ seen := fun x hx hmem => hnew x hx (List.mem_cons_of_mem _ hmem)
        rw [names_cons hplain]
        cases hown : keyName? root (follow d.source k) with
        | none => exact ⟨hnodup, hrest⟩
        | some own =>
          obtain rfl := hname own hown
          exact ⟨List.nodup_cons.mpr ⟨fun hin => hnew name hin List.mem_cons_self, hnodup⟩,
            List.forall_mem_cons.mpr ⟨hseen, hrest⟩⟩

/-- Each entry is made into a pair of values. -/
lemma namedEntries_goes (hd : Numbered d root) (hkey : Makes d root filling true key)
    (hvalue : Makes d root filling deep value) (hes : ∀ e ∈ es, IsEntry root e)
    (hno : deep = false → ∀ e ∈ es, ¬Enclosed root (follow d.source e.2)) (hinv : Invariant d root filling s) :
    Gives (namedEntries key value es s) fun ps s' =>
      Goes d root filling 0 s s' ∧ List.Forall₂ (Named d root s') es ps := by
  induction es generalizing s with
  | nil => exact .of_eq rfl ⟨.refl hinv, .nil⟩
  | cons e es ih =>
    obtain ⟨k, v⟩ := e
    obtain ⟨he, hes⟩ := List.forall_mem_cons.mp hes
    rw [namedEntries]
    refine (hkey k he.parts.1 (by simp) s hinv).bind ?_
    rintro w s₁ ⟨hgoes₁, hhas, -⟩
    refine (nameOf_spec fun own => hgoes₁.inv.keyName hd he hhas).bind ?_
    rintro name s₁ ⟨rfl, hname⟩
    refine (hvalue v he.parts.2 (fun hdeep => hno hdeep _ List.mem_cons_self) s₁ hgoes₁.inv).bind ?_
    rintro x s₂ ⟨hgoes₂, hx, _⟩
    refine (ih hes (fun hdeep e he => hno hdeep e (List.mem_cons_of_mem _ he)) hgoes₂.inv).bind ?_
    rintro ps s₃ ⟨hgoes₃, hnamed⟩
    refine .of_eq rfl ⟨hgoes₁.trans (hgoes₂.trans hgoes₃), ?_⟩
    exact .cons ⟨⟨name, rfl, hname⟩, (hhas.isDone.mono hgoes₂.done).mono hgoes₃.done, hgoes₃.done _ _ hx⟩ hnamed

/-- Whether an entry is made: both its sides are. -/
lemma keyedEntries_goes {h : Head} (hvalue : Makes d root filling deep value) (hes : ∀ e ∈ es, IsEntry root e)
    (hno : deep = false → ∀ n, ¬Enclosed root n) (hinv : Invariant d root filling s) :
    Gives (keyedEntries d.source value h es s) fun _ s' =>
      Goes d root filling 0 s s' ∧ ∀ c ∈ sides es, IsDone d.source s' c := by
  induction es generalizing s with
  | nil => exact .of_eq rfl ⟨.refl hinv, by simp [sides]⟩
  | cons e es ih =>
    obtain ⟨k, v⟩ := e
    obtain ⟨he, hes⟩ := List.forall_mem_cons.mp hes
    rw [keyedEntries]
    refine (hvalue k he.parts.1 (fun hdeep => hno hdeep _) s hinv).bind ?_
    rintro w s₁ ⟨hgoes₁, hhas, _⟩
    obtain ⟨b, hb⟩ : ∃ b, canBeKey w s₁ = .ok (b, s₁) := by
      rw [canBeKey.eq_def]
      split <;> exact ⟨_, rfl⟩
    refine .step hb ?_
    cases b with
    | false => exact yields_failWithin
    | true =>
      refine (hvalue v he.parts.2 (fun hdeep => hno hdeep _) s₁ hgoes₁.inv).bind ?_
      rintro x s₂ ⟨hgoes₂, hx, _⟩
      refine (ih hes hgoes₂.inv).bind ?_
      rintro ps s₃ ⟨hgoes₃, hdone⟩
      refine .of_eq rfl ⟨hgoes₁.trans (hgoes₂.trans hgoes₃), ?_⟩
      refine List.forall_mem_append.mpr ⟨?_, hdone⟩
      simp only [List.forall_mem_cons]
      exact ⟨(hhas.isDone.mono hgoes₂.done).mono hgoes₃.done, hx.isDone.mono hgoes₃.done, by simp⟩

/-- The items of a sequence are made. -/
lemma items_goes {ns : List Node} (hvalue : Makes d root filling deep value) (hns : ∀ n ∈ ns, n ∈ root.parts)
    (hno : deep = false → ∀ n ∈ ns, ¬Enclosed root (follow d.source n)) (hinv : Invariant d root filling s) :
    Gives (ns.mapM value s) fun vs s' =>
      Goes d root filling 0 s s' ∧ List.Forall₂ (Has d.source s') ns vs := by
  induction ns generalizing s with
  | nil => exact .of_eq rfl ⟨.refl hinv, .nil⟩
  | cons n ns ih =>
    obtain ⟨hn, hns⟩ := List.forall_mem_cons.mp hns
    rw [List.mapM_cons]
    refine (hvalue n hn (fun hdeep => hno hdeep n List.mem_cons_self) s hinv).bind ?_
    rintro v s₁ ⟨hgoes₁, hhas, _⟩
    refine (ih hns (fun hdeep m hm => hno hdeep m (List.mem_cons_of_mem _ hm)) hgoes₁.inv).bind ?_
    rintro vs s₂ ⟨hgoes₂, hall⟩
    exact .of_eq rfl ⟨hgoes₁.trans hgoes₂, .cons (hgoes₂.done _ _ hhas) hall⟩

end Names

section Collections

variable {d : Document} {root n : Node} {filling : List Node} {s s' : Making} {es own : List (Node × Node)} {h : Head}
  {value : Node → Make Value} {fuel : Nat} {deep : Bool}

lemma mem_sides {c : Node} : c ∈ sides es ↔ ∃ e ∈ es, c = e.1 ∨ c = e.2 := by
  simp [sides]

lemma sides_mono {es' : List (Node × Node)} (h : es ⊆ es') : sides es ⊆ sides es' := by
  intro c hc
  obtain ⟨e, he, hc⟩ := mem_sides.mp hc
  exact mem_sides.mpr ⟨e, h he, hc⟩

lemma certain_subset (hc : Covers d.source own es) (hplain : Plain d.source es)
    (hflat : Grounded d (.mapping h own) → es = flatOf d own) : certain d h own ⊆ es := by
  rw [certain]
  split_ifs with hgrounded
  · rw [hflat hgrounded]
    exact List.Subset.refl _
  · intro x hx
    rcases List.mem_append.mp hx with hx | hx
    · obtain ⟨e, he, hm, g, hg, hx⟩ := mem_brought.mp hx
      exact (hc.merged e he hm).elim (fun hin => (hplain.not_merges hin hm).elim) fun hlisted => hlisted g hg hx
    · exact hc.explicit.subset hx

lemma flatten_goes (hd : Numbered d root) (hn : .mapping h own ∈ root.parts) (hinv : Invariant d root filling s) :
    Gives (flatten d.source fuel h own s) fun es s' => Goes d root filling 0 s s' ∧
      Covers d.source own es ∧ Plain d.source es ∧ (∀ e ∈ es, Comes d (.mapping h own) e) ∧
      (Grounded d (.mapping h own) → es = flatOf d own) := by
  have hbrings : Yields (fun _ => True) (flatten d.source fuel h own s) (Brings d root [.mapping h own] s) :=
    flattenFrom_brings hd hn hinv.sourced (by simp) (by simp)
  refine ((flatten_spec hd hn hinv.consistent (hinv.clean _)).and hbrings).mono ?_
  rintro es s' ⟨⟨hm, rfl⟩, hbrought⟩
  refine ⟨.rewritten hinv hm.rewritten hm.consistent hbrought.sourced,
    (hinv.covers h own hn).trans (hm.rewritten.covers h own hn), hm.plain, hbrought.sourced.comes h own hn,
    fun hgrounded => ?_⟩
  rw [hm.flat (List.forall_mem_singleton.mpr hgrounded)]
  exact List.append_nil _

/-- Where keys count as values, none stands by itself. -/
lemma not_enclosed_of_tag (hn : n ∈ root.parts) (htag : n.head.tag ∈ [Tag.set, Tag.orderedMap, Tag.pairs]) (m : Node) :
    ¬Enclosed root m :=
  fun hm => hm.separate.keyed n hn htag

lemma CanWait.mem_pairs (h : CanWait root n) (hsequence : n.head.tag ≠ Tag.sequence) (hset : n.head.tag ≠ Tag.set) :
    n.head.tag ∈ [Tag.set, Tag.orderedMap, Tag.pairs] := by
  rcases isFilledTag_cases h.2.2 with htag | htag | htag | htag
  · exact absurd htag hsequence
  · exact absurd htag hset
  · simpa using .inr htag
  · exact absurd htag.1 (ne_mapping_of_filled h.2.2)

lemma fillPairs_goes {context : Context} {before : List Value} {items : List Node} (hd : Numbered d root)
    (hvalue : Makes d root filling deep value) (hitems : ∀ m ∈ items, m ∈ root.parts)
    (hno : deep = false → ∀ m, ¬Enclosed root m) (hfree : Free filling s h.id) (hinv : Invariant d root filling s) :
    Gives (fillPairs d.source value context h before items s) fun _ s' =>
      Goes d root filling 0 s s' ∧
        ∀ m ∈ items, ∀ c ∈ sides (explicit d.source (follow d.source m).entries), IsDone d.source s' c := by
  induction items generalizing s before with
  | nil => exact .of_eq rfl ⟨.refl hinv, by simp⟩
  | cons m items ih =>
    obtain ⟨hm, hitems⟩ := List.forall_mem_cons.mp hitems
    have hfollow := follow_mem hd hm
    rw [fillPairs]
    cases heq : follow d.source m with
    | mapping g own =>
      rw [heq] at hfollow
      refine .step (a := entriesNow s g own) (t := s) rfl ?_
      have hknown := hinv.consistent.known g own hfollow
      have hexplicit := hinv.consistent.explicit g own hfollow
      generalize entriesNow s g own = es at hknown hexplicit
      rcases es with _ | ⟨⟨k, v⟩, _ | ⟨e, es⟩⟩
      · exact yields_failWithin
      · have he := hknown _ (List.mem_singleton_self _)
        refine (hvalue k he.parts.1 (fun hdeep => hno hdeep _) s hinv).bind ?_
        rintro key s₁ ⟨hgoes₁, hkey, _⟩
        refine (hvalue v he.parts.2 (fun hdeep => hno hdeep _) s₁ hgoes₁.inv).bind ?_
        rintro x s₂ ⟨hgoes₂, hx, _⟩
        refine (Goes.newPart _ _ hd hgoes₂.inv).bind fun part s₃ hgoes₃ => ?_
        refine .step (a := ()) rfl ?_
        have hgoes := hgoes₁.trans (hgoes₂.trans hgoes₃)
        have hgoes₄ := hgoes.trans (.setContent (.list (before ++ [part])) hd hgoes.inv (hfree.goes hgoes))
        refine (ih hitems (hfree.goes hgoes₄) hgoes₄.inv).mono ?_
        rintro - s₅ ⟨hgoes₅, hdone⟩
        refine ⟨hgoes₄.trans hgoes₅, ?_⟩
        refine List.forall_mem_cons.mpr ⟨fun c hc => ?_, hdone⟩
        rw [heq] at hc
        obtain ⟨e, he, hc⟩ := mem_sides.mp hc
        obtain rfl := List.mem_singleton.mp (hexplicit.subset he)
        have hdone₅ {id : Nat} {w : Value} (hw : s₂.done.lookup id = some w) : s₅.done.lookup id = some w :=
          hgoes₅.done _ _ (hgoes₃.done _ _ hw)
        rcases hc with rfl | rfl
        · exact (hkey.isDone.mono hgoes₂.done).mono fun _ _ => hdone₅
        · exact hx.isDone.mono fun _ _ => hdone₅
      · exact yields_failWithin
    | _ => exact yields_failWithin

/-- A collection is filled with values of all that makes it up. -/
lemma fill_goes (hd : Numbered d root) (hvalue : Makes d root filling deep value) (hn : CanWait root n)
    (hno : deep = false → ¬Enclosed root n) (hfree : Free filling s n.head.id) (hinv : Invariant d root filling s) :
    Gives (fill d.source fuel value n s) fun _ s' => Goes d root filling 0 s s' ∧ Stocked d s' n := by
  have hmapping := ne_mapping_of_filled hn.2.2
  have hset {s₁ : Making} (v : Value) (hgoes : Goes d root filling 0 s s₁) :
      Goes d root filling 0 s { s₁ with contents := (n.head.id, v) :: s₁.contents } :=
    hgoes.trans (.setContent v hd hgoes.inv (hfree.goes hgoes))
  rw [fill.eq_def]
  refine .step (tagOf_filled hn.2.2) ?_
  by_cases hsequence : n.head.tag = Tag.sequence
  · rw [if_pos hsequence]
    cases n with
    | sequence g items =>
      have hitems : ∀ m ∈ items, m ∈ root.parts := fun m hm => Node.parts_trans root hn.1 hm
      refine (items_goes hvalue hitems (fun hdeep m hm => ?_) hinv).bind ?_
      · exact not_enclosed_follow hd (hitems m hm) (not_enclosed_item hd hn.1 (hno hdeep) hm)
      rintro vs s₁ ⟨hgoes, hall⟩
      refine .of_eq rfl ⟨hset _ hgoes, fun c hc => ?_, fun g' ns heq _ => ?_⟩
      · rw [within, if_pos (show g.tag = Tag.sequence from hsequence)] at hc
        obtain ⟨w, -, hw⟩ := exists_of_forall₂ hall.flip hc
        exact Has.isDone hw
      · cases heq
        exact ⟨vs, lookup_cons_self, hall⟩
    | _ => exact yields_failAt
  · rw [if_neg hsequence]
    by_cases hset' : n.head.tag = Tag.set
    · rw [if_pos (.inl hset')]
      cases n with
      | mapping g own =>
        refine (flatten_goes hd hn.1 hinv).bind ?_
        rintro es s₁ ⟨hgoes₁, hcovers, hplain, hcomes, hflat⟩
        refine (keyedEntries_goes hvalue (fun e he => (hcomes e he).isEntry hd hn.1)
          (fun _ => not_enclosed_of_tag hn.1 (by rw [hset']; simp)) hgoes₁.inv).bind ?_
        rintro ps s₂ ⟨hgoes₂, hdone⟩
        rw [if_pos hset']
        exact .of_eq rfl ⟨hset _ (hgoes₁.trans hgoes₂),
          fun c hc => hdone c (sides_mono (certain_subset hcovers hplain hflat) hc), fun _ _ heq => by cases heq⟩
      | _ => exact yields_failAt
    · rw [if_neg fun h => h.elim hset' hmapping]
      cases n with
      | sequence g items =>
        have hpairs := hn.mem_pairs hsequence hset'
        have hitems : ∀ m ∈ items, m ∈ root.parts := fun m hm => Node.parts_trans root hn.1 hm
        refine (fillPairs_goes hd hvalue hitems (fun _ => not_enclosed_of_tag hn.1 hpairs) hfree hinv).mono ?_
        rintro - s₁ ⟨hgoes, hdone⟩
        refine ⟨hgoes, fun c hc => ?_, fun g' ns heq htag => ?_⟩
        · rw [within, if_neg (show g.tag ≠ Tag.sequence from hsequence)] at hc
          split_ifs at hc
          · obtain ⟨m, hm, hc⟩ := List.mem_flatMap.mp hc
            exact hdone m hm c hc
          · exact absurd hc List.not_mem_nil
        · cases heq
          exact absurd htag hsequence
      | _ => exact yields_failWithin

end Collections

section Values

variable {d : Document} {root n : Node} {filling : List Node} {s s' : Making} {own : List (Node × Node)} {h : Head}
  {fair : Prop} {busy : List Nat} {fuel : Nat} {tag : Text} {v : Value} {slack : Nat}

/-- The text of a scalar is its own. -/
lemma textOf_goes : Yields (Refuses fair) (textOf d.source fuel n s) fun t s' =>
    s' = s ∧ ∀ h u, n = .scalar h u → t = u := by
  induction fuel generalizing n with
  | zero => exact yields_throw rfl
  | succ fuel ih =>
    rw [textOf]
    cases hfollow : follow d.source n with
    | scalar h u =>
      refine .of_eq rfl ⟨rfl, ?_⟩
      rintro g w rfl
      cases hfollow
      rfl
    | mapping h own =>
      refine .step (a := entriesNow s h own) (t := s) rfl (.step (a := s) (t := s) rfl ?_)
      dsimp only
      generalize (entriesNow s h own).find? _ = found
      cases found with
      | some e =>
        refine ih.mono fun t s' ht => ⟨ht.1, ?_⟩
        rintro g w rfl
        cases hfollow
      | none => exact yields_failAt
    | sequence h items => exact yields_failAt
    | «alias» id => exact yields_failAt

lemma Fair.named_flat (hd : Numbered d root) (hfair : Fair d root) (hn : .mapping h own ∈ root.parts)
    (htag : h.tag = Tag.mapping) : ∀ e ∈ flatOf d own, keyName? root (follow d.source e.1) ≠ none := by
  intro e he
  obtain ⟨m, habsorbs, he⟩ := mem_flatEntries (n := .mapping h own) he
  rcases (habsorbs.mem hd hn).2 with rfl | hm
  · exact hfair.named _ hn htag e he
  · exact hfair.mergedNamed m hm e he

/-- The content of a mapping with names as keys. -/
lemma namedMapping_goes {key value : Node → Make Value} {deep : Bool} (hd : Numbered d root)
    (hkey : Makes d root filling true key) (hvalue : Makes d root filling deep value) (hn : .mapping h own ∈ root.parts)
    (hno : deep = false → ¬Enclosed root (.mapping h own)) (hinv : Invariant d root filling s) :
    Gives (namedMapping d.source fuel key value (.mapping h own) s) fun v s' =>
      Goes d root filling 0 s s' ∧ ∃ es ps, v = .map false (Value.entriesOf ps) ∧
        ∀ s'' : Making, s''.done = s'.done → s''.contents.lookup h.id = some v → Mapped d root s'' h own es ps := by
  rw [namedMapping]
  refine .step (a := entriesNow s h own) (t := s) rfl ?_
  refine (checkNames_goes hd hkey (hinv.consistent.known h own hn) hinv).bind ?_
  rintro - s₁ ⟨hgoes₁, hdistinct, -⟩
  refine (flatten_goes hd hn hgoes₁.inv).bind ?_
  rintro es s₂ ⟨hgoes₂, hcovers, hplain, hcomes, hflat⟩
  refine (namedEntries_goes hd hkey hvalue (fun e he => (hcomes e he).isEntry hd hn)
    (fun hdeep e he => (hcomes e he).not_enclosed hd hn (hno hdeep)) hgoes₂.inv).bind ?_
  rintro ps s₃ ⟨hgoes₃, hnamed⟩
  refine .of_eq rfl ⟨hgoes₁.trans (hgoes₂.trans hgoes₃), es, ps, rfl, fun s'' hdone hcontent => ?_⟩
  refine ⟨hcovers, hplain, hflat, hnamed.imp fun _ _ hp => hp.mono fun id v hv => hdone ▸ hv, hcontent, ?_⟩
  exact hdistinct.sublist ((explicit_sublist (hinv.consistent.explicit h own hn)).filterMap _)

lemma not_isCollectionTag (h : isScalarTag tag = true) (hn : IsTagOf n tag) : isCollectionTag n.head.tag = false := by
  rcases hn with rfl | ⟨hvalue, -⟩
  · exact isCollectionTag_of_scalar h
  · rw [hvalue]
    decide

lemma nameOf?_collection (h : isCollectionTag n.head.tag = true) : nameOf? n = none := by
  cases n with
  | scalar g t =>
    rw [nameOf?, if_neg fun hscalar => ?_]
    rw [show isCollectionTag (Node.scalar g t).head.tag = _ from isCollectionTag_of_key hscalar] at h
    cases h
  | _ => rfl

lemma stands_collection (h : isCollectionTag n.head.tag = true) : Stands n (.alias n.head.id) := by
  refine ⟨fun name hname => ?_, fun _ => rfl, ?_⟩
  · rw [nameOf?_collection h] at hname
    cases hname
  · rintro g t rfl hno
    rw [show isCollectionTag g.tag = true from h] at hno
    cases hno

lemma stands_scalar {t : Text} (htag : isScalarTag tag = true) (hn : IsTagOf n tag)
    (ht : ∀ g u, n = .scalar g u → t = u) (hv : scalarOf n tag t = .ok v) : Stands n v := by
  have hno := not_isCollectionTag htag hn
  have hkey {g : Head} {u : Text} (heq : n = .scalar g u) : keyTag g = tag := by
    subst heq
    rw [keyTag]
    rcases hn with rfl | ⟨hvalue, rfl⟩
    · refine if_neg fun hvalue => ?_
      have hscalar : isScalarTag g.tag = true := htag
      rw [hvalue] at hscalar
      exact absurd hscalar (by decide)
    · exact if_pos hvalue
  refine ⟨?_, fun h => ?_, fun g u heq _ => ?_⟩
  · cases n with
    | scalar g u =>
      obtain rfl := ht g u rfl
      exact hasName_scalar (hkey rfl) hv
    | _ => exact fun name hname => by cases hname
  · rw [hno] at h
    cases h
  · rw [hkey heq, ← ht g u heq, hv]

/-- Nothing waits for a node that is no collection. -/
lemma ready_scalar (h : isCollectionTag n.head.tag = false) : Ready d root filling s n := by
  rw [isCollectionTag, Bool.or_eq_false_iff] at h
  refine ⟨fun hfilled => ?_, fun g own hn htag => ?_⟩
  · rw [h.1] at hfilled
    cases hfilled
  · subst hn
    exact absurd htag (beq_eq_false_iff_ne.mp h.2)

lemma Goes.widen (h : Goes d root filling 0 s s') : Goes d root filling slack s s' :=
  ⟨h.inv, h.active, h.done, h.bounded.trans (Nat.add_le_add_left (Nat.zero_le _) _)⟩

/-- A collection begins with nothing in it. It is filled at once or waits. -/
lemma make_filled (hd : Numbered d root) (hvalue : Makes d root filling true (value d.source fuel true)) {deep : Bool}
    (hn : CanWait root n) (hno : deep = false → ¬Enclosed root n) (hinv : Invariant d root filling s)
    (hactive : n.head.id ∈ s.active) :
    Gives (make d.source (fuel + 1) deep n n.head.tag s) fun v s' =>
      Goes d root filling 1 s s' ∧ Stands n v ∧ Ready d root filling s' n := by
  have hstands := stands_collection (isCollectionTag_filled hn.2.2)
  have hready {s' : Making} (h : n ∈ s'.pending ∨ n ∈ filling ∨ Stocked d s' n) :
      Ready d root filling s' n :=
    ⟨fun _ => h, fun g own heq htag => absurd (heq ▸ htag) (ne_mapping_of_filled hn.2.2)⟩
  have hfree : Free filling s n.head.id := .inl hactive
  have hgoes₁ : Goes d root filling 0 s
      { s with contents := (n.head.id, emptyContent n.head.tag) :: s.contents } :=
    .setContent _ hd hinv hfree
  rw [make, if_neg (not_isScalarTag_filled hn.2.2),
    if_pos (show isFilledTag d.source.rule n.head.tag = true from hn.2.2)]
  refine .step (a := ()) rfl ?_
  cases deep with
  | false =>
    refine .step (a := ()) rfl (.of_eq rfl ⟨hgoes₁.trans (.wait hgoes₁.inv hn (hno rfl)), hstands, hready (.inl ?_)⟩)
    exact List.mem_append_right _ (List.mem_singleton_self _)
  | true =>
    refine (fill_goes hd hvalue hn (by simp) (hfree.goes hgoes₁) hgoes₁.inv).bind ?_
    rintro - s₂ ⟨hgoes₂, hstocked⟩
    exact .of_eq rfl ⟨(hgoes₁.trans hgoes₂).widen, hstands, hready (.inr (.inr hstocked))⟩

/-- The value of a mapping with names as keys. -/
lemma make_named (hd : Numbered d root) (hvalue : ∀ deep, Makes d root filling deep (value d.source fuel deep))
    (deep : Bool) (hn : n ∈ root.parts) (hno : deep = false → ¬Enclosed root n) (htag : n.head.tag = Tag.mapping)
    (hinv : Invariant d root filling s) (hactive : n.head.id ∈ s.active) :
    Gives (make d.source (fuel + 1) deep n Tag.mapping s) fun v s' =>
      Goes d root filling 1 s s' ∧ Stands n v ∧ Ready d root filling s' n := by
  have hcollection : isCollectionTag n.head.tag = true := by rw [htag]; decide
  have hunfilled : isFilledTag .names n.head.tag ≠ true := fun h => ne_mapping_of_filled h htag
  have hrule : d.source.rule = .names := rfl
  have hset {s₁ : Making} (v : Value) (hgoes : Goes d root filling 0 s s₁) :
      Goes d root filling 1 s { s₁ with contents := (n.head.id, v) :: s₁.contents } :=
    (hgoes.trans (.setContent _ hd hgoes.inv (.inl (hgoes.active ▸ hactive)))).widen
  -- what is no mapping stands for one only if it is empty
  have hbare (hno : ∀ g other, n ≠ .mapping g other) {s₁ : Making} (hs₁ : s₁ = s) :
      Gives ((do
        setContent n.head.id (.map false [])
        pure (.alias n.head.id) : Make Value) s₁) fun v s' =>
          Goes d root filling 1 s s' ∧ Stands n v ∧ Ready d root filling s' n := by
    subst hs₁
    exact .of_eq rfl ⟨hset _ (.refl hinv), stands_collection hcollection, fun h => absurd h hunfilled,
      fun g other heq => absurd heq (hno g other)⟩
  rw [make, if_neg (by decide), if_neg (show ¬isFilledTag d.source.rule Tag.mapping = true by rw [hrule]; decide),
    if_pos rfl]
  cases n with
  | mapping h own =>
    refine (namedMapping_goes hd (hvalue true) (hvalue deep) hn hno hinv).bind ?_
    rintro v s₁ ⟨hgoes, es, ps, rfl, hmapped⟩
    refine .step (a := ()) rfl (.of_eq rfl ⟨hset _ hgoes, stands_collection hcollection, fun h => absurd h hunfilled, ?_⟩)
    intro g other heq _
    injection heq with hhead hentries
    subst hhead hentries
    exact ⟨es, ps, hmapped _ rfl lookup_cons_self⟩
  | sequence h items =>
    cases items with
    | nil => exact .step rfl (hbare (fun g other heq => by cases heq) rfl)
    | cons item items => exact yields_error rfl rfl
  | scalar h t =>
    cases t with
    | nil => exact .step rfl (hbare (fun g other heq => by cases heq) rfl)
    | cons c t => exact yields_error rfl rfl
  | «alias» id => exact yields_error rfl rfl

/-- A way to make the values of nodes that are not made yet. -/
def MakesNew (d : Document) (root : Node) (filling : List Node) (deep : Bool) (x : Node → Text → Make Value) : Prop :=
  ∀ n ∈ root.parts, (deep = false → ¬Enclosed root n) → ∀ tag s, n.isSolid = true → IsTagOf n tag →
    Invariant d root filling s → n.head.id ∈ s.active → Gives (x n tag s) fun v s' =>
      Goes d root filling 1 s s' ∧ Stands n v ∧ Ready d root filling s' n

lemma make_goes_of (hd : Numbered d root) (hvalue : ∀ deep, Makes d root filling deep (value d.source fuel deep))
    (deep : Bool) : MakesNew d root filling deep (make d.source (fuel + 1) deep) := by
  intro n hn hno tag s hsolid htag hinv hactive
  by_cases hscalar : isScalarTag tag = true
  · rw [make, if_pos hscalar]
    refine textOf_goes.bind ?_
    rintro t s₁ ⟨rfl, ht⟩
    cases hv : scalarOf n tag t with
    | error fault => exact yields_throw ((settles_scalarOf n tag t).of_error hv).isRepetition
    | ok v =>
      exact .of_eq rfl ⟨(Goes.refl hinv).widen, stands_scalar hscalar htag ht hv,
        ready_scalar (not_isCollectionTag hscalar htag)⟩
  · obtain rfl := htag.eq_of_not_scalar hscalar
    by_cases hfilled : isFilledTag .names n.head.tag = true
    · exact make_filled hd (hvalue true) ⟨hn, hsolid, hfilled⟩ hno hinv hactive
    · by_cases hmapping : n.head.tag = Tag.mapping
      · have hmake := make_named hd hvalue deep hn hno hmapping hinv hactive
        rwa [hmapping]
      · rw [make, if_neg hscalar, if_neg (show ¬isFilledTag d.source.rule n.head.tag = true from hfilled), if_neg hmapping]
        exact yields_failAt

lemma Invariant.activate {id : Nat} (h : Invariant d root filling s) (hidle : s.done.lookup id = none) :
    Invariant d root filling { s with active := id :: s.active } where
  consistent := ⟨h.consistent.known, h.consistent.explicit, h.consistent.merging, h.consistent.plain⟩
  sourced := h.sourced.of_entries rfl
  covers := h.covers
  clean := h.clean
  done m hm hsolid v hv :=
    ⟨(h.done m hm hsolid v hv).1, (h.done m hm hsolid v hv).2.mono (fun _ _ h => h) (fun h => h) fun _ => rfl⟩
  active := List.forall_mem_cons.mpr ⟨hidle, h.active⟩
  pending := h.pending
  filling := h.filling
  size := h.size

/-- A node is made: from now on its value is known. -/
lemma Goes.finish (hd : Numbered d root) (hn : n ∈ root.parts) (hsolid : n.isSolid = true)
    (hidle : s.done.lookup n.head.id = none) (hnew : n.head.id ∉ s.active)
    (h : Goes d root filling 1 { s with active := n.head.id :: s.active } s') (hstands : Stands n v)
    (hready : Ready d root filling s' n) :
    Goes d root filling 0 s
      { s' with done := (n.head.id, v) :: s'.done, active := s'.active.filter (· != n.head.id) } := by
  have hactive : s'.active = n.head.id :: s.active := h.active
  have hfilter : s'.active.filter (· != n.head.id) = s.active := by rw [hactive, filter_active hnew]
  have hidle' : s'.done.lookup n.head.id = none := h.inv.active _ (hactive ▸ List.mem_cons_self)
  rw [hfilter]
  have hgrown (id : Nat) (w : Value) (hw : s'.done.lookup id = some w) : ((n.head.id, v) :: s'.done).lookup id = some w := by
    rwa [lookup_cons_of_ne]
    rintro rfl
    rw [hidle'] at hw
    cases hw
  have hkept {m : Node} (hm : Ready d root filling s' m) : Ready d root filling
      { s' with done := (n.head.id, v) :: s'.done, active := s.active } m :=
    hm.mono hgrown (fun h => h) fun _ => rfl
  refine ⟨⟨⟨h.inv.consistent.known, h.inv.consistent.explicit, h.inv.consistent.merging, h.inv.consistent.plain⟩,
    h.inv.sourced.of_entries rfl, h.inv.covers, h.inv.clean, ?_, ?_, h.inv.pending, h.inv.filling, h.inv.size⟩, rfl,
    fun id w hw => hgrown id w (h.done id w hw), ?_⟩
  · intro m hm hsolid' w hw
    by_cases he : m.head.id = n.head.id
    · obtain rfl := hd.unique m hm hsolid' n hn hsolid he
      obtain rfl := Option.some.inj (lookup_cons_self.symm.trans hw)
      exact ⟨hstands, hkept hready⟩
    · obtain ⟨hstands', hready'⟩ := h.inv.done m hm hsolid' w ((lookup_cons_of_ne he).symm.trans hw)
      exact ⟨hstands', hkept hready'⟩
  · intro id hid
    have hne : id ≠ n.head.id := fun he => hnew (he ▸ hid)
    exact (lookup_cons_of_ne hne).trans (h.inv.active id (hactive ▸ List.mem_cons_of_mem _ hid))
  · have hlt : (unmade d.size { s' with done := (n.head.id, v) :: s'.done, active := s.active }).card <
        (unmade d.size s').card := card_unmade_lt (hd.bounded n hn hsolid) hidle'
    have hle : s'.pending.length + (unmade d.size s').card ≤ left d.size s + 1 := h.bounded
    show s'.pending.length + (unmade d.size { s' with done := (n.head.id, v) :: s'.done, active := s.active }).card ≤
      left d.size s + 0
    omega

lemma stands_alias (id : Nat) (v : Value) : Stands (.alias id) v := by
  refine ⟨fun name hname => (by cases hname), fun h => ?_, fun h t heq => (by cases heq)⟩
  rw [show (Node.alias id).head.tag = [] from rfl, isCollectionTag_nil] at h
  cases h

lemma eq_alias (h : n.isSolid = false) : ∃ id, n = .alias id := by
  cases n with
  | «alias» id => exact ⟨id, rfl⟩
  | _ => cases h

lemma make_alias {id : Nat} {deep : Bool} (htag : IsTagOf (.alias id) tag) :
    Yields (Refuses fair) (make d.source fuel deep (.alias id) tag s) fun _ _ => False := by
  have hvalue : ([] : Text) ≠ Tag.value := by decide
  obtain rfl : tag = [] := htag.resolve_right fun h => hvalue h.1
  cases fuel with
  | zero => exact yields_throw rfl
  | succ fuel =>
    have hfilled : ¬isFilledTag .names ([] : Text) = true := by decide
    rw [make, if_neg (by decide), if_neg (show ¬isFilledTag d.source.rule [] = true from hfilled), if_neg (by decide)]
    exact yields_failAt

/-- A node has its value already, or begins to be made and is made, with the tag that it has by then. -/
lemma yields_value {src : Source} {deep : Bool} {m : Node} {post : Value → Making → Prop} (hm : follow src n = m)
    (hdone : ∀ v, s.done.lookup m.head.id = some v → post v s)
    (hnew : ∀ tag, s.done.lookup m.head.id = none → m.head.id ∉ s.active → IsTagOf m tag →
      Yields (Refuses fair) (make src fuel deep m tag { s with active := m.head.id :: s.active }) fun v s' =>
        post v { s' with done := (m.head.id, v) :: s'.done, active := s'.active.filter (· != m.head.id) }) :
    Yields (Refuses fair) (value src (fuel + 1) deep n s) post := by
  subst hm
  rw [value]
  refine .step (a := s) (t := s) rfl ?_
  cases hlookup : s.done.lookup (follow src n).head.id with
  | some v => exact .of_eq rfl (hdone v hlookup)
  | none =>
    refine .step (a := s) (t := s) rfl ?_
    by_cases hactive : (follow src n).head.id ∈ s.active
    · rw [if_pos (by simpa using hactive)]
      exact yields_failAt
    · rw [if_neg (by simpa using hactive)]
      refine .step (a := ()) (t := { s with active := (follow src n).head.id :: s.active }) rfl ?_
      obtain ⟨tag, htag, hof⟩ := tagOf_spec (follow src n) { s with active := (follow src n).head.id :: s.active }
      refine .step htag ((hnew tag hlookup hactive hof).bind fun v s' hpost => ?_)
      exact .step (a := ()) rfl (.of_eq rfl hpost)

lemma value_goes_of (hd : Numbered d root) {deep : Bool} (hmake : MakesNew d root filling deep (make d.source fuel deep)) :
    Makes d root filling deep (value d.source (fuel + 1) deep) := by
  intro n hn hno s hinv
  have hm := follow_mem hd hn
  obtain ⟨m, hfollow⟩ : ∃ m, follow d.source n = m := ⟨_, rfl⟩
  rw [hfollow] at hm hno
  refine yields_value hfollow (fun v hdone => ?_) fun tag hdone hactive hof => ?_
  · refine ⟨.refl hinv, by rw [Has, hfollow, hdone], ?_⟩
    rw [hfollow]
    cases hsolid : m.isSolid with
    | true => exact (hinv.done m hm hsolid v hdone).1
    | false =>
      obtain ⟨id, rfl⟩ := eq_alias hsolid
      exact stands_alias id v
  · cases hsolid : m.isSolid with
    | true =>
      refine (hmake m hm hno tag _ hsolid hof (hinv.activate hdone) List.mem_cons_self).mono ?_
      rintro v s₁ ⟨hgoes, hstands, hready⟩
      refine ⟨hgoes.finish hd hm hsolid hdone hactive hstands hready, ?_, ?_⟩
      · rw [Has, hfollow]
        exact lookup_cons_self
      · rwa [hfollow]
    | false =>
      obtain ⟨id, rfl⟩ := eq_alias hsolid
      exact (make_alias hof).mono fun _ _ h => h.elim

/-- Every node that has a value gets it, whatever is known before. -/
theorem goes (hd : Numbered d root) (fuel : Nat) :
    (∀ deep, Makes d root filling deep (value d.source fuel deep)) ∧
      ∀ deep, MakesNew d root filling deep (make d.source fuel deep) := by
  induction fuel with
  | zero => exact ⟨fun _ _ _ _ _ _ => yields_throw rfl, fun _ _ _ _ _ _ _ _ _ _ => yields_throw rfl⟩
  | succ fuel ih => exact ⟨fun deep => value_goes_of hd (ih.2 deep), make_goes_of hd ih.1⟩

theorem value_goes (hd : Numbered d root) (fuel : Nat) (deep : Bool) :
    Makes d root filling deep (value d.source fuel deep) :=
  (goes hd fuel).1 deep

theorem make_goes (hd : Numbered d root) (fuel : Nat) (deep : Bool) :
    MakesNew d root filling deep (make d.source fuel deep) :=
  (goes hd fuel).2 deep

end Values

end DocPath.Yaml.Make
