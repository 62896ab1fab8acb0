import DocPath.Proofs.Yaml.Touring

/-! Keys, which are made beside the way through a document: scalars, and collections that stand by themselves. -/

namespace DocPath.Yaml.Make

/-- Something is done beside the way: wherever it is done, nothing is changed for the way, and no name is refused. -/
def Aside (d : Document) (root : Node) (filling : List Node) {α : Type} (x : Make α) : Prop :=
  ∀ t s, Invariant d root filling s → Tracks d root t s →
    Yields (Refuses True) (x s) fun _ s' => Goes d root filling 0 s s' ∧ Tracks d root t s'

namespace Aside

variable {d : Document} {root : Node} {filling : List Node} {α β : Type}

lemma pure {a : α} : Aside d root filling (Pure.pure a) := fun _ _ hinv ht => .of_eq rfl ⟨.refl hinv, ht⟩

lemma bind {x : Make α} {f : α → Make β} (hx : Aside d root filling x) (hf : ∀ a, Aside d root filling (f a)) :
    Aside d root filling (x >>= f) := by
  intro t s hinv ht
  refine (hx t s hinv ht).bind ?_
  rintro a s₁ ⟨hgoes₁, ht₁⟩
  exact (hf a t s₁ hgoes₁.inv ht₁).mono fun b s₂ h => ⟨hgoes₁.trans h.1, h.2⟩

lemma mapM {f : Node → Make α} {ns : List Node} (hf : ∀ n ∈ ns, Aside d root filling (f n)) :
    Aside d root filling (ns.mapM f) := by
  induction ns with
  | nil =>
    rw [List.mapM_nil]
    exact pure
  | cons n ns ih =>
    obtain ⟨hn, hns⟩ := List.forall_mem_cons.mp hf
    rw [List.mapM_cons]
    exact hn.bind fun v => (ih hns).bind fun vs => pure

lemma nameOf {v : Value} : Aside d root filling (Make.nameOf v) := by
  intro t s hinv ht
  rw [Make.nameOf]
  refine .step (a := v.unfold s.contents) (t := s) rfl ?_
  cases (v.unfold s.contents).asName with
  | error fault => exact yields_throw rfl
  | ok name => exact .of_eq rfl ⟨.refl hinv, ht⟩

lemma namedEntries {key value : Node → Make Value} {es : List (Node × Node)}
    (hkey : ∀ e ∈ es, Aside d root filling (key e.1)) (hvalue : ∀ e ∈ es, Aside d root filling (value e.2)) :
    Aside d root filling (Make.namedEntries key value es) := by
  induction es with
  | nil => exact pure
  | cons e es ih =>
    obtain ⟨k, v⟩ := e
    obtain ⟨hk, hkey⟩ := List.forall_mem_cons.mp hkey
    obtain ⟨hv, hvalue⟩ := List.forall_mem_cons.mp hvalue
    rw [Make.namedEntries]
    exact hk.bind fun w => nameOf.bind fun name => hv.bind fun x => (ih hkey hvalue).bind fun ps => pure

lemma refuses {fair : Prop} {fault : Fault} (h : Refuses True fault) : Refuses fair fault :=
  fun hrepeated => absurd trivial (h hrepeated)

lemma follows {x : Make α} (hx : Aside d root filling x) : Follows d root filling [] x := by
  rintro rest s hinv ⟨t, hpassed, hahead, ht⟩
  exact ((hx t s hinv ht).expect fun _ => refuses).mono fun _ s' h => ⟨h.1, t, hpassed, hahead, h.2⟩

end Aside

section Keys

variable {d : Document} {root n : Node} {filling : List Node} {t : Tour} {s : Making} {h : Head}
  {own es : List (Node × Node)} {e : Node × Node} {fuel : Nat} {deep : Bool} {seen : List Text}

lemma aside_leaf (hd : Numbered d root) (hn : n ∈ root.parts) (hno : deep = false → ¬Enclosed root (follow d.source n))
    (hleaf : isCollectionTag (follow d.source n).head.tag = false) : Aside d root filling (value d.source fuel deep n) :=
  fun _ s hinv ht => ((value_leaf hd hn hleaf ht).and (value_goes hd fuel deep n hn hno s hinv)).mono
    fun _ _ h => ⟨h.2.1, h.1.2⟩

/-- Names are refused only if one of them is there twice or among those that have been seen. -/
lemma checkNames_tracks (hd : Numbered d root) (hes : ∀ e ∈ es, IsEntry root e)
    (hnamed : ∀ e ∈ explicit d.source es, keyName? root (follow d.source e.1) ≠ none)
    (hkeys : ∀ e ∈ explicit d.source es, Aside d root filling (value d.source fuel true e.1))
    (hinv : Invariant d root filling s) (ht : Tracks d root t s) :
    Yields (Refuses ((names d root es).Nodup ∧ ∀ name ∈ names d root es, name ∉ seen))
      (checkNames d.source (value d.source fuel true) seen es s) fun _ s' => Tracks d root t s' := by
  induction es generalizing s seen with
  | nil => exact .of_eq rfl ht
  | cons e es ih =>
    obtain ⟨k, v⟩ := e
    obtain ⟨he, hes⟩ := List.forall_mem_cons.mp hes
    obtain ⟨tag, htag, hof⟩ := tagOf_spec (follow d.source k) s
    have hmerge := hof.eq_iff (show Tag.merge ≠ Tag.value by decide) (show Tag.merge ≠ Tag.string by decide)
    rw [checkNames]
    refine .step htag ?_
    by_cases hm : (follow d.source k).head.tag = Tag.merge
    · have hmerges : merges d.source (k, v) = true := decide_eq_true hm
      rw [explicit_cons_merge hmerges] at hnamed hkeys
      rw [if_pos (hmerge.mpr hm), names, explicit_cons_merge hmerges]
      exact ih hes hnamed hkeys hinv ht
    · rw [if_neg fun h => hm (hmerge.mp h)]
      have hplain : merges d.source (k, v) = false := decide_eq_false hm
      rw [explicit_cons hplain, List.forall_mem_cons] at hnamed hkeys
      obtain ⟨hname, hnamed⟩ := hnamed
      obtain ⟨hkey, hkeys⟩ := hkeys
      obtain ⟨own, hown⟩ := Option.ne_none_iff_exists'.mp hname
      refine (((hkey t s hinv ht).expect fun _ => Aside.refuses).and
        (value_goes hd fuel true k he.parts.1 (by simp) s hinv)).bind ?_
      rintro w s₁ ⟨⟨-, ht₁⟩, hgoes, hhas, -⟩
      refine (nameOf_spec fun own => hgoes.inv.keyName hd he hhas).bind ?_
      rintro name s₁ ⟨rfl, hname⟩
      obtain rfl := hname own hown
      rw [names_cons hplain, hown, Option.toList_some, List.singleton_append, List.nodup_cons, List.forall_mem_cons]
      by_cases hseen : name ∈ seen
      · rw [if_pos (by simpa using hseen)]
        exact fun _ hall => hall.2.1 hseen
      · rw [if_neg (by simpa using hseen)]
        refine (ih hes hnamed hkeys hgoes.inv ht₁).expect fun fault hfault hrepeated hall =>
          hfault hrepeated ⟨hall.1.2, ?_⟩
        intro x hx hmem
        rcases List.mem_cons.mp hmem with rfl | hmem
        · exact hall.1.1 hx
        · exact hall.2.2 x hx hmem

/-- Without merge keys the entries stay. -/
lemma Tracks.flatten_plain (hn : .mapping h own ∈ root.parts) (hown : Plain d.source own) (hinv : Invariant d root filling s)
    (ht : Tracks d root t s) : Yields (Refuses True) (Make.flatten d.source fuel h own s) fun es s' =>
      es = own ∧ Tracks d root t s' := by
  cases fuel with
  | zero => exact yields_throw rfl
  | succ fuel =>
    have hsplit : splitAtMerge d.source (own.drop 0) = none := splitAtMerge_plain hown
    obtain ⟨texts, hrun⟩ := flattenFrom_end fuel [] (hinv.sourced.entriesNow_plain hn hown) hsplit
    exact .of_eq hrun ⟨rfl, ht.visited, ht.waiting, ht.kept, ht.resolved, ht.merge⟩

/-- A way to make the values of collections in keys beside the way. -/
def MakesAside (d : Document) (root : Node) (filling : List Node) (x : Node → Text → Make Value) : Prop :=
  ∀ n, Enclosed root n → ownValue? n ≠ none → isCollectionTag n.head.tag = true → ∀ t s, Invariant d root filling s →
    n.head.id ∈ s.active → Tracks d root t s →
    Yields (Refuses True) (x n n.head.tag s) fun _ s' => Tracks d root t s'

lemma make_aside_sequence {ns : List Node} (hd : Numbered d root)
    (hvalue : ∀ n, Enclosed root n → ownValue? n ≠ none → Aside d root filling (value d.source fuel true n))
    (hn : Enclosed root (.sequence h ns)) (hown : ownValue? (.sequence h ns) ≠ none) (hinv : Invariant d root filling s)
    (hactive : h.id ∈ s.active) (ht : Tracks d root t s) :
    Yields (Refuses True) (make d.source (fuel + 1) true (.sequence h ns) h.tag s) fun _ s' => Tracks d root t s' := by
  obtain ⟨u, hu⟩ := Option.ne_none_iff_exists'.mp hown
  obtain ⟨hsequence, us, hus, -⟩ := ownValue?_sequence hu
  have hfilled : isFilledTag .names h.tag = true := by
    rw [hsequence]
    decide
  rw [make, if_neg (not_isScalarTag_filled hfilled), if_pos (show isFilledTag d.source.rule _ = true from hfilled)]
  have hgoes := Goes.setContent (emptyContent h.tag) hd hinv (.inl hactive)
  refine .step (a := ()) rfl ?_
  rw [if_pos rfl, fill.eq_def]
  refine Yields.bind (p := fun _ s' => Tracks d root t s') (.step (tagOf_filled hfilled) ?_) fun _ s' ht' => .of_eq rfl ht'
  rw [if_pos (show (Node.sequence h ns).head.tag = Tag.sequence from hsequence)]
  have hitems : Aside d root filling (ns.mapM (value d.source fuel true)) :=
    .mapM fun m hm => hvalue m (hn.child hm) (own_of_items hus m hm)
  exact (hitems t _ hgoes.inv ht.setContent).bind fun vs s₁ h => .of_eq rfl h.2.setContent

lemma make_aside_mapping (hd : Numbered d root) (hfair : Fair d root)
    (hvalue : ∀ n, Enclosed root n → ownValue? n ≠ none → Aside d root filling (value d.source fuel true n))
    (hn : Enclosed root (.mapping h own)) (hown : ownValue? (.mapping h own) ≠ none) (hinv : Invariant d root filling s)
    (ht : Tracks d root t s) :
    Yields (Refuses True) (make d.source (fuel + 1) true (.mapping h own) h.tag s) fun _ s' => Tracks d root t s' := by
  obtain ⟨u, hu⟩ := Option.ne_none_iff_exists'.mp hown
  obtain ⟨hmapping, qs, hqs, -⟩ := ownValue?_mapping hu
  have hchild (e : Node × Node) (he : e ∈ own) : Enclosed root e.1 ∧ Enclosed root e.2 := by
    constructor <;> exact hn.child (List.mem_flatMap.mpr ⟨e, he, by simp⟩)
  have hplain : Plain d.source own := plain_of_own (fun e he => (hchild e he).1.follow) hqs
  have hkeys (e : Node × Node) (he : e ∈ own) : Aside d root filling (value d.source fuel true e.1) :=
    hvalue e.1 (hchild e he).1 (own_of_entries hqs e he).1
  have hnamed (e : Node × Node) (he : e ∈ own) : keyName? root (Make.follow d.source e.1) ≠ none := by
    rw [(hchild e he).1.follow]
    exact named_of_own (fun e he => (hchild e he).1.separate) hqs e he
  have hexplicit : explicit d.source own = own := hplain.explicit
  have hunfilled : ¬isFilledTag d.source.rule Tag.mapping = true := show ¬isFilledTag .names Tag.mapping = true by decide
  rw [hmapping, make, if_neg (by decide), if_neg hunfilled, if_pos rfl, namedMapping]
  refine Yields.bind (p := fun _ s' => Tracks d root t s') (.step (a := entriesNow s h own) (t := s) rfl ?_)
    fun v s' ht' => .step (a := ()) rfl (.of_eq rfl ht'.setContent)
  -- nothing is merged into the mapping, so that its entries are those that it is written with
  have hknown := hinv.consistent.known h own hn.mem
  rw [hinv.sourced.entriesNow_plain hn.mem hplain] at hknown ⊢
  refine (((checkNames_tracks hd hknown (hexplicit.symm ▸ hnamed) (hexplicit.symm ▸ hkeys) hinv ht).expect
    fun fault hfault hrepeated _ => hfault hrepeated ⟨hfair.distinct _ hn.mem hmapping, by simp⟩).and
      (checkNames_goes hd (value_goes hd fuel true) hknown hinv)).bind ?_
  rintro - s₁ ⟨ht₁, hgoes₁, -⟩
  refine ((ht₁.flatten_plain hn.mem hplain hgoes₁.inv).and (flatten_goes hd hn.mem hgoes₁.inv)).bind ?_
  rintro es s₂ ⟨⟨rfl, ht₂⟩, hgoes₂, -⟩
  have hentries := Aside.namedEntries hkeys fun e he => hvalue e.2 (hchild e he).2 (own_of_entries hqs e he).2
  exact (hentries t s₂ hgoes₂.inv ht₂).bind fun ps s₃ h => .of_eq rfl h.2

lemma make_aside (hd : Numbered d root) (hfair : Fair d root)
    (hvalue : ∀ n, Enclosed root n → ownValue? n ≠ none → Aside d root filling (value d.source fuel true n)) :
    MakesAside d root filling (make d.source (fuel + 1) true) := by
  intro n hn hown htag t s hinv hactive ht
  cases n with
  | scalar g text =>
    obtain ⟨u, hu⟩ := Option.ne_none_iff_exists'.mp hown
    rw [show isCollectionTag (Node.scalar g text).head.tag = _ from isCollectionTag_of_key (ownValue?_scalar hu).1] at htag
    cases htag
  | sequence g ns => exact make_aside_sequence hd hvalue hn hown hinv hactive ht
  | mapping g own => exact make_aside_mapping hd hfair hvalue hn hown hinv ht
  | «alias» id => exact absurd rfl hown

lemma value_aside_of (hd : Numbered d root) (hmake : MakesAside d root filling (make d.source fuel true))
    (hn : Enclosed root n) (hown : ownValue? n ≠ none) : Aside d root filling (value d.source (fuel + 1) true n) := by
  cases htag : isCollectionTag n.head.tag with
  | false => exact aside_leaf hd hn.mem (by simp) (hn.follow.symm ▸ htag)
  | true =>
    intro t s hinv ht
    refine (Yields.and ?_ (value_goes hd (fuel + 1) true n hn.mem (by simp) s hinv)).mono fun _ _ h => ⟨h.2.1, h.1⟩
    refine yields_value hn.follow (fun v hdone => ht) fun tag hdone hactive hof => ?_
    obtain rfl : tag = n.head.tag := hof.resolve_right fun hvalue => by
      rw [hvalue.1] at htag
      exact absurd htag (by decide)
    have hbegun := hinv.activate hdone
    refine ((hmake n hn hown htag t _ hbegun List.mem_cons_self (ht.activate_aside hd hn.mem hn.isSolid fun _ => hn)).and
      (make_goes hd fuel true n hn.mem (by simp) _ _ hn.isSolid (.inl rfl) hbegun List.mem_cons_self)).mono ?_
    rintro v s₁ ⟨ht₁, hgoes, -⟩
    refine ht₁.finish hd hn.mem hn.isSolid (fun hmerge => ?_) (hgoes.active ▸ List.mem_cons_self)
    rw [hmerge] at htag
    exact absurd htag (by decide)

theorem value_aside (hd : Numbered d root) (hfair : Fair d root) (fuel : Nat) :
    ∀ n, Enclosed root n → ownValue? n ≠ none → Aside d root filling (value d.source fuel true n) := by
  have both : (∀ n, Enclosed root n → ownValue? n ≠ none → Aside d root filling (value d.source fuel true n)) ∧
      MakesAside d root filling (make d.source fuel true) := by
    induction fuel with
    | zero => exact ⟨fun _ _ _ _ _ _ _ => yields_throw rfl, fun _ _ _ _ _ _ _ _ _ => yields_throw rfl⟩
    | succ fuel ih => exact ⟨fun n hn hown => value_aside_of hd ih.2 hn hown, make_aside hd hfair ih.1⟩
  exact both.1

/-- Keys with names by themselves are made beside the way. -/
theorem key_aside (hd : Numbered d root) (hfair : Fair d root) (he : IsEntry root e)
    (hname : keyName? root (follow d.source e.1) ≠ none) : Aside d root filling (value d.source fuel true e.1) := by
  cases htag : isCollectionTag (follow d.source e.1).head.tag with
  | false => exact aside_leaf hd he.parts.1 (by simp) htag
  | true =>
    have hseparate : Separate root (follow d.source e.1) := by
      refine (scalar_or_separate hname).resolve_left ?_
      rintro ⟨g, t, heq⟩
      rw [heq] at hname htag
      exact hname (nameOf?_collection htag)
    have hfollow := follow_of_solid d.source (hseparate.isSolid_of_follow hd he.parts.1)
    rw [hfollow] at hname hseparate
    refine value_aside hd hfair fuel e.1 (hseparate.enclosed he) fun hnone => hname ?_
    rw [keyName?_separate hseparate, hnone]
    rfl

end Keys

end DocPath.Yaml.Make
