import DocPath.Proofs.Value.Unfold
import DocPath.Proofs.Yaml.Reaching

/-! What keys are named when they are made. A collection in a key that stands by itself is complete as soon as it is made,
so that the key has the name that it has by itself, whatever else is known. -/

namespace DocPath.Yaml.Make

open Value (Spare substitute unfoldLabel)

section Own

variable {d : Document} {root n : Node} {s : Making} {h : Head} {t : Text} {ns : List Node} {own es : List (Node × Node)}
  {e : Node × Node} {u v : Value} {us vs : List Value} {ps qs : List (Value × Value)} {f : Nat → Value}

lemma ownValue?_scalar (h' : ownValue? (.scalar h t) = some u) :
    isScalarTag (keyTag h) = true ∧ scalarOf (.scalar h t) (keyTag h) t = .ok u := by
  rw [ownValue?] at h'
  split_ifs at h' with htag
  exact ⟨htag, ok_of_toOption h'⟩

lemma ownValue?_sequence (h' : ownValue? (.sequence h ns) = some u) :
    h.tag = Tag.sequence ∧ ∃ us, ownValues? ns = some us ∧ u = .anchor h.id (.list us) := by
  rw [ownValue?] at h'
  split_ifs at h' with htag
  obtain ⟨us, hus, rfl⟩ := Option.map_eq_some_iff.mp h'
  exact ⟨htag, us, hus, rfl⟩

lemma ownValue?_mapping (h' : ownValue? (.mapping h es) = some u) :
    h.tag = Tag.mapping ∧ ∃ qs, ownEntries? es = some qs ∧ u = .anchor h.id (.map false qs) := by
  rw [ownValue?] at h'
  split_ifs at h' with htag
  obtain ⟨qs, hqs, rfl⟩ := Option.map_eq_some_iff.mp h'
  exact ⟨htag, qs, hqs, rfl⟩

lemma ownValues?_cons (h' : ownValues? (n :: ns) = some us) :
    ∃ w ws, ownValue? n = some w ∧ ownValues? ns = some ws ∧ us = w :: ws := by
  rw [ownValues?] at h'
  obtain ⟨w, hw, h'⟩ := Option.bind_eq_some_iff.mp h'
  obtain ⟨ws, hws, h'⟩ := Option.bind_eq_some_iff.mp h'
  cases h'
  exact ⟨w, ws, hw, hws, rfl⟩

lemma ownEntries?_cons (h' : ownEntries? (e :: es) = some qs) : ∃ key name x rest, ownValue? e.1 = some key ∧
    key.asName = .ok name ∧ ownValue? e.2 = some x ∧ ownEntries? es = some rest ∧ qs = (.text name, x) :: rest := by
  obtain ⟨k, v⟩ := e
  rw [ownEntries?] at h'
  obtain ⟨name, hname, h'⟩ := Option.bind_eq_some_iff.mp h'
  obtain ⟨x, hx, h'⟩ := Option.bind_eq_some_iff.mp h'
  obtain ⟨rest, hrest, h'⟩ := Option.bind_eq_some_iff.mp h'
  cases h'
  obtain ⟨key, hkey, hname⟩ := Option.bind_eq_some_iff.mp hname
  exact ⟨key, name, x, rest, hkey, ok_of_toOption hname, hx, hrest, rfl⟩

lemma isCollectionTag_of_scalar {tag : Text} (h : isScalarTag tag = true) : isCollectionTag tag = false := by
  have hscalars : ∀ t ∈ [Tag.null, Tag.boolean, Tag.integer, Tag.float, Tag.binary, Tag.timestamp, Tag.string],
      isCollectionTag t = false := by decide
  exact hscalars _ (List.contains_iff_mem.mp h)

lemma isCollectionTag_of_key (h' : isScalarTag (keyTag h) = true) : isCollectionTag h.tag = false := by
  rw [keyTag] at h'
  split_ifs at h' with hvalue
  · rw [hvalue]
    decide
  · exact isCollectionTag_of_scalar h'

lemma keyName?_separate (hn : Separate root n) : keyName? root n = (ownValue? n).bind fun v => v.asName.toOption := by
  cases n with
  | scalar h t =>
    rw [keyName?, nameOf?, ownValue?]
    split_ifs <;> rfl
  | _ => exact if_pos hn

lemma keyName?_of_own {name : Text} (hn : Separate root n) (hu : ownValue? n = some u) (hname : u.asName = .ok name) :
    keyName? root n = some name := by
  rw [keyName?_separate hn, hu, Option.bind_some, hname]
  rfl

lemma tag_ne_merge_of_own (hu : ownValue? n = some u) : n.head.tag ≠ Tag.merge := by
  intro hmerge
  cases n with
  | scalar h t =>
    have htag := (ownValue?_scalar hu).1
    rw [keyTag, show h.tag = Tag.merge from hmerge] at htag
    exact absurd htag (by decide)
  | sequence h ns => exact absurd ((ownValue?_sequence hu).1.symm.trans hmerge) (by decide)
  | mapping h es => exact absurd ((ownValue?_mapping hu).1.symm.trans hmerge) (by decide)
  | «alias» id => cases hu

/-- A mapping with a value by itself has no merge keys. -/
lemma plain_of_own (hes : ∀ e ∈ es, follow d.source e.1 = e.1) (hqs : ownEntries? es = some qs) : Plain d.source es := by
  induction es generalizing qs with
  | nil => exact fun e he => absurd he List.not_mem_nil
  | cons e es ih =>
    obtain ⟨he, hes⟩ := List.forall_mem_cons.mp hes
    obtain ⟨key, name, x, rest, hkey, -, -, hrest, -⟩ := ownEntries?_cons hqs
    refine List.forall_mem_cons.mpr ⟨?_, ih hes hrest⟩
    rw [merges, he]
    exact decide_eq_false (tag_ne_merge_of_own hkey)

lemma Plain.grounded {own : List (Node × Node)} (hown : Plain d.source own) : Grounded d (.mapping h own) := by
  rw [Grounded]
  cases d.size with
  | zero => exact hown
  | succ k => exact fun e he hm => (hown.not_merges he hm).elim

/-- What is in a sequence by itself, with everything in place. -/
lemma map_of_own (hns : ∀ n ∈ ns, ∀ u v, ownValue? n = some u → Has d.source s n v → substitute f v = u)
    (hall : List.Forall₂ (Has d.source s) ns vs) (hus : ownValues? ns = some us) : vs.map (substitute f) = us := by
  induction hall generalizing us with
  | nil =>
    cases hus
    rfl
  | @cons n v ns vs hv _ ih =>
    obtain ⟨hn, hns⟩ := List.forall_mem_cons.mp hns
    obtain ⟨w, ws, hw, hws, rfl⟩ := ownValues?_cons hus
    rw [List.map_cons, hn w v hw hv, ih hns hws]

/-- What is in a mapping by itself, with everything in place. -/
lemma map_entries_of_own (hkeys : ∀ e ∈ es, Separate root (follow d.source e.1) ∧ follow d.source e.1 = e.1)
    (hes : ∀ e ∈ es, ∀ u v, ownValue? e.2 = some u → Has d.source s e.2 v → substitute f v = u)
    (hall : List.Forall₂ (Named d root s) es ps) (hqs : ownEntries? es = some qs) :
    ps.map (fun p => (substitute f p.1, substitute f p.2)) = qs := by
  induction hall generalizing qs with
  | nil =>
    cases hqs
    rfl
  | @cons e p es ps hp _ ih =>
    obtain ⟨⟨hseparate, hfollow⟩, hkeys⟩ := List.forall_mem_cons.mp hkeys
    obtain ⟨he, hes⟩ := List.forall_mem_cons.mp hes
    obtain ⟨key, name, x, rest, hkey, hname, hx, hrest, rfl⟩ := ownEntries?_cons hqs
    obtain ⟨name', hp₁, hown⟩ := hp.name
    obtain rfl := hown name (keyName?_of_own hseparate (hfollow.symm ▸ hkey) hname)
    rw [List.map_cons, hp₁, he x p.2 hx hp.value, ih hkeys hes hrest]
    rfl

/-- The keys of a mapping are the names of its entries, if all of these have one by themselves. -/
lemma keys_eq_names (hplain : Plain d.source es) (hkeys : ∀ e ∈ es, keyName? root (follow d.source e.1) ≠ none)
    (hall : List.Forall₂ (Named d root s) es ps) : ps.map (·.1) = (names d root es).map .text := by
  rw [names, hplain.explicit]
  clear hplain
  induction hall with
  | nil => rfl
  | @cons e p es ps hp _ ih =>
    obtain ⟨he, hkeys⟩ := List.forall_mem_cons.mp hkeys
    obtain ⟨name, hname⟩ := Option.ne_none_iff_exists'.mp he
    obtain ⟨name', hp₁, hown⟩ := hp.name
    obtain rfl := hown name hname
    rw [List.map_cons, ih hkeys, List.filterMap_cons, hname, hp₁]
    rfl

lemma named_of_own (hes : ∀ e ∈ es, Separate root e.1) (hqs : ownEntries? es = some qs) :
    ∀ e ∈ es, keyName? root e.1 ≠ none := by
  induction es generalizing qs with
  | nil => exact fun e he => absurd he List.not_mem_nil
  | cons e es ih =>
    obtain ⟨he, hes⟩ := List.forall_mem_cons.mp hes
    obtain ⟨key, name, x, rest, hkey, hname, -, hrest, -⟩ := ownEntries?_cons hqs
    exact List.forall_mem_cons.mpr ⟨by rw [keyName?_of_own he hkey hname]; simp, ih hes hrest⟩

lemma own_of_items (hus : ownValues? ns = some us) : ∀ n ∈ ns, ownValue? n ≠ none := by
  induction ns generalizing us with
  | nil => exact fun n hn => absurd hn List.not_mem_nil
  | cons n ns ih =>
    obtain ⟨w, ws, hw, hws, -⟩ := ownValues?_cons hus
    exact List.forall_mem_cons.mpr ⟨by rw [hw]; simp, ih hws⟩

lemma own_of_entries (hqs : ownEntries? es = some qs) : ∀ e ∈ es, ownValue? e.1 ≠ none ∧ ownValue? e.2 ≠ none := by
  induction es generalizing qs with
  | nil => exact fun e he => absurd he List.not_mem_nil
  | cons e es ih =>
    obtain ⟨key, name, x, rest, hkey, -, hx, hrest, -⟩ := ownEntries?_cons hqs
    exact List.forall_mem_cons.mpr ⟨by rw [hkey, hx]; simp, ih hrest⟩

end Own

section Keys

variable {d : Document} {root n : Node} {filling : List Node} {s : Making} {e : Node × Node} {u v : Value} {fuel : Nat}
  {above : List Nat}

lemma Enclosed.rests (h : Enclosed root n) (hinv : Invariant d root filling s) : n ∉ s.pending ∧ n ∉ filling :=
  ⟨fun hin => (hinv.pending n hin).2 h, fun hin => (hinv.filling n hin).2 h⟩

lemma Enclosed.not_above {c : Node} (hd : Numbered d root) (h : Enclosed root n) (hc : c ∈ n.children)
    (habove : ∀ p ∈ n.parts, p.head.id ∉ above) : ∀ p ∈ c.parts, p.head.id ∉ n.head.id :: above := by
  intro p hp
  have hin : p ∈ n.parts := Node.mem_parts.mpr (.inr ⟨c, hc, hp⟩)
  refine List.not_mem_cons_of_ne_of_not_mem (fun he => ?_) (habove p hin)
  have hpart := parts_subset h.mem hin
  have hsolid := h.separate.isSolid h.mem hin
  obtain rfl := hd.unique p hpart hsolid n h.mem h.isSolid he
  exact not_mem_parts_child hc hp

/-- What is enclosed and made has the value that it has by itself. -/
theorem Enclosed.substitute (hd : Numbered d root) (hinv : Invariant d root filling s) (h : Enclosed root n)
    (hu : ownValue? n = some u) (hv : s.done.lookup n.head.id = some v) (hspare : Spare s.contents fuel above)
    (habove : ∀ p ∈ n.parts, p.head.id ∉ above) : v.substitute (unfoldLabel s.contents fuel above) = u := by
  induction n using Node.ofChildren generalizing u v fuel above with
  | _ n ih =>
    obtain ⟨hstands, hready⟩ := hinv.done n h.mem h.isSolid v hv
    have hself := habove n (Node.mem_parts_self n)
    have hchild {c : Node} (hc : c ∈ n.children) {f : Nat} (hf : Spare s.contents f (n.head.id :: above)) (u v : Value)
        (hu : ownValue? c = some u) (hv : Has d.source s c v) :
        v.substitute (unfoldLabel s.contents f (n.head.id :: above)) = u := by
      rw [Has, (h.child hc).follow] at hv
      exact ih c hc (h.child hc) hu hv hf (h.not_above hd hc habove)
    cases n with
    | scalar g t =>
      obtain ⟨htag, hu⟩ := ownValue?_scalar hu
      have hv := hstands.scalar g t rfl (isCollectionTag_of_key htag)
      obtain rfl := Except.ok.inj (hv.symm.trans hu)
      exact ((settles_scalarOf _ _ _).of_ok hu).substitute _
    | sequence g ns =>
      obtain ⟨htag, us, hus, rfl⟩ := ownValue?_sequence hu
      obtain rfl := hstands.link (by rw [show (Node.sequence g ns).head.tag = Tag.sequence from htag]; decide)
      obtain ⟨hpending, hfilling⟩ := h.rests hinv
      have hfilled : isFilledTag .names (Node.sequence g ns).head.tag = true := by
        rw [show (Node.sequence g ns).head.tag = Tag.sequence from htag]
        decide
      have hstocked := ((hready.filled hfilled).resolve_left hpending).resolve_left hfilling
      obtain ⟨vs, hcontent, hall⟩ := hstocked.items g ns rfl htag
      obtain ⟨f, hf, heq⟩ := hspare.unfoldLabel hself hcontent
      refine heq.trans ?_
      rw [(Value.descends_substitute _).list, map_of_own (fun c hc => hchild hc hf) hall hus]
      rfl
    | mapping g own =>
      obtain ⟨htag, qs, hqs, rfl⟩ := ownValue?_mapping hu
      obtain rfl := hstands.link (by rw [show (Node.mapping g own).head.tag = Tag.mapping from htag]; decide)
      obtain ⟨es, ps, hm⟩ := hready.mapped g own rfl htag
      have hsides (e : Node × Node) (he : e ∈ own) : e.1 ∈ (Node.mapping g own).children ∧
          e.2 ∈ (Node.mapping g own).children := by
        constructor <;> exact List.mem_flatMap.mpr ⟨e, he, by simp⟩
      have hkey (e : Node × Node) (he : e ∈ own) : Enclosed root e.1 := h.child (hsides e he).1
      have hfollow (e : Node × Node) (he : e ∈ own) : Make.follow d.source e.1 = e.1 := (hkey e he).follow
      have hplain : Plain d.source own := plain_of_own hfollow hqs
      obtain rfl : own = es := ((hm.flat hplain.grounded).trans hplain.flatEntries).symm
      -- no two keys are the same, so that all entries are there
      have hseparate (e : Node × Node) (he : e ∈ own) : Separate root (Make.follow d.source e.1) ∧
          Make.follow d.source e.1 = e.1 := by
        rw [hfollow e he]
        exact ⟨(hkey e he).separate, rfl⟩
      have hnamed (e : Node × Node) (he : e ∈ own) : keyName? root (Make.follow d.source e.1) ≠ none := by
        rw [hfollow e he]
        exact named_of_own (fun e he => (hkey e he).separate) hqs e he
      have hkeys := keys_eq_names hplain hnamed hm.named
      have hentries : Value.entriesOf ps = ps := by
        refine Value.entriesOf_eq (fun p hp => ?_) ?_
        · obtain ⟨name, -, hname⟩ := List.mem_map.mp (hkeys ▸ List.mem_map_of_mem hp)
          exact ⟨name, hname.symm⟩
        · rw [hkeys]
          exact hm.distinct.map fun _ _ heq => by cases heq; rfl
      have hcontent := hm.content
      rw [hentries] at hcontent
      obtain ⟨f, hf, heq⟩ := hspare.unfoldLabel hself hcontent
      refine heq.trans ?_
      rw [(Value.descends_substitute _).map,
        map_entries_of_own hseparate (fun e he => hchild (hsides e he).2 hf) hm.named hqs]
      rfl
    | «alias» id => cases hu

lemma scalar_or_separate (hu : keyName? root n ≠ none) : (∃ g t, n = .scalar g t) ∨ Separate root n := by
  cases n with
  | scalar g t => exact .inl ⟨g, t, rfl⟩
  | _ =>
    refine .inr ?_
    by_contra hno
    exact hu (if_neg hno)

/-- A key that is made is named as it is by itself. -/
theorem Invariant.keyName (hd : Numbered d root) (hinv : Invariant d root filling s) (he : IsEntry root e)
    (hv : Has d.source s e.1 v) {name : Text} (hname : keyName? root (follow d.source e.1) = some name) :
    (v.unfold s.contents).asName = .ok name := by
  obtain ⟨n, hn⟩ : ∃ n, follow d.source e.1 = n := ⟨_, rfl⟩
  have hpart := follow_mem hd he.parts.1
  rw [Has, hn] at hv
  rw [hn] at hname hpart
  rcases scalar_or_separate (by rw [hname]; simp) with ⟨g, t, rfl⟩ | hseparate
  · exact (hinv.done _ hpart rfl v hv).1.name name hname s.contents
  · rw [follow_of_solid _ (Separate.isSolid_of_follow hd he.parts.1 (hn ▸ hseparate))] at hn
    subst hn
    rw [keyName?_separate hseparate] at hname
    obtain ⟨u, hu, hname⟩ := Option.bind_eq_some_iff.mp hname
    have heq := (hseparate.enclosed he).substitute hd hinv hu hv Spare.start (by simp)
    rw [Value.unfold, heq]
    exact ok_of_toOption hname

end Keys

end DocPath.Yaml.Make
