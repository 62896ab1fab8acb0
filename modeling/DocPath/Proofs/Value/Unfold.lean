import DocPath.Proofs.Value.Links

/-! Values that are put together from labelled contents. They depend only on the contents that they lead to, and the keys
that show in them are those of the contents. -/

namespace DocPath.Value

open Relation

variable {contents contents' : List (Nat × Value)} {fuel fuel' l m : Nat} {above shared : List Nat} {v w c : Value}
  {f g : Nat → Value}

section Congruence

/-- What is put in the place of aliases that are not there does not count. -/
lemma substitute_congr (h : ∀ l, Refers l v → f l = g l) : substitute f v = substitute g v := by
  induction v using induct with
  | null => rfl
  | scalar s => rfl
  | range a b c => rfl
  | list xs ih =>
    rw [(descends_substitute f).list, (descends_substitute g).list]
    exact congrArg _ (List.map_congr_left fun x hx => ih x hx fun l hl => h l (.list hx hl))
  | tuple xs ih =>
    rw [(descends_substitute f).tuple, (descends_substitute g).tuple]
    exact congrArg _ (List.map_congr_left fun x hx => ih x hx fun l hl => h l (.tuple hx hl))
  | sequence t xs ih =>
    rw [(descends_substitute f).sequence, (descends_substitute g).sequence]
    exact congrArg _ (List.map_congr_left fun x hx => ih x hx fun l hl => h l (.sequence hx hl))
  | map o es ih =>
    rw [(descends_substitute f).map, (descends_substitute g).map]
    refine congrArg _ (List.map_congr_left fun e he => ?_)
    rw [(ih e he).1 fun l hl => h l (.key he hl), (ih e he).2 fun l hl => h l (.entry he hl)]
  | set b xs ih =>
    rw [(descends_substitute f).set, (descends_substitute g).set]
    exact congrArg _ (List.map_congr_left fun x hx => ih x hx fun l hl => h l (.set hx hl))
  | anchor l v ih => rw [substitute, substitute, ih fun k hk => h k (.anchor hk)]
  | link l => exact h l .link

/-- Where two lists of contents agree on labels that lead only to each other, these unfold to the same. -/
lemma Spare.unfoldLabel_congr {p : Nat → Prop} (hsame : ∀ l, p l → contents.lookup l = contents'.lookup l)
    (hclosed : ∀ l m, p l → Leads contents l m → p m) (h : Spare contents fuel above) (h' : Spare contents' fuel' above)
    (hl : p l) : Value.unfoldLabel contents fuel above l = Value.unfoldLabel contents' fuel' above l := by
  induction fuel generalizing fuel' above l with
  | zero =>
    -- without fuel all labels are above, or unknown
    by_cases hin : l ∈ above
    · rw [unfoldLabel_above hin, unfoldLabel_above hin]
    · cases hc : contents.lookup l with
      | none => rw [unfoldLabel_none hc, unfoldLabel_none ((hsame l hl).symm.trans hc)]
      | some c =>
        obtain ⟨f, hf, -⟩ := h.next hin hc
        cases hf
  | succ fuel ih =>
    by_cases hin : l ∈ above
    · rw [unfoldLabel_above hin, unfoldLabel_above hin]
    · cases hc : contents.lookup l with
      | none => rw [unfoldLabel_none hc, unfoldLabel_none ((hsame l hl).symm.trans hc)]
      | some c =>
        have hc' : contents'.lookup l = some c := (hsame l hl).symm.trans hc
        obtain ⟨f, hf, hspare⟩ := h.next hin hc
        obtain rfl := Nat.succ.inj hf
        obtain ⟨f', hspare', heq⟩ := h'.unfoldLabel hin hc'
        rw [heq, Value.unfoldLabel, if_neg (by simpa using hin), hc]
        exact congrArg _ (substitute_congr fun k hk => ih hspare hspare' (hclosed l k hl ⟨c, hc, hk⟩))

/-- Only the contents that a value leads to count for what it unfolds to. -/
theorem unfold_congr {p : Nat → Prop} (hsame : ∀ l, p l → contents.lookup l = contents'.lookup l)
    (hclosed : ∀ l m, p l → Leads contents l m → p m) (hv : ∀ l, Refers l v → p l) :
    v.unfold contents = v.unfold contents' :=
  substitute_congr fun l hl => Spare.start.unfoldLabel_congr hsame hclosed Spare.start (hv l hl)

end Congruence

section Bearing

/-- An alias with the label lies in a value, but not in a key or in a set. -/
inductive Carries (l : Nat) : Value → Prop
  | link : Carries l (.alias l)
  | list {xs : List Value} {x : Value} (hx : x ∈ xs) (h : Carries l x) : Carries l (.list xs)
  | tuple {xs : List Value} {x : Value} (hx : x ∈ xs) (h : Carries l x) : Carries l (.tuple xs)
  | sequence {t : SequenceType} {xs : List Value} {x : Value} (hx : x ∈ xs) (h : Carries l x) :
      Carries l (.sequence t xs)
  | entry {o : Bool} {es : List (Value × Value)} {e : Value × Value} (he : e ∈ es) (h : Carries l e.2) :
      Carries l (.map o es)

/-- The content with a label carries another. -/
def Bears (contents : List (Nat × Value)) (l m : Nat) : Prop := ∃ c, contents.lookup l = some c ∧ Carries m c

lemma Carries.refers (h : Carries l v) : Refers l v := by
  induction h with
  | link => exact .link
  | list hx _ ih => exact .list hx ih
  | tuple hx _ ih => exact .tuple hx ih
  | sequence hx _ ih => exact .sequence hx ih
  | entry he _ ih => exact .entry he ih

lemma Bears.leads (h : Bears contents l m) : Leads contents l m := h.imp fun _ hc => ⟨hc.1, hc.2.refers⟩

/-- A change that goes into collections keeps texts as keys only if it does so at every alias that is carried. -/
lemma Carries.textKeyed {change : Value → Value} (h : Carries l v) (hchange : Descends change)
    (hv : (change v).TextKeyed) : (change (.alias l)).TextKeyed := by
  induction h with
  | link => exact hv
  | list hx _ ih =>
    rw [hchange.list, textKeyed_list] at hv
    exact ih (hv _ (List.mem_map_of_mem hx))
  | tuple hx _ ih =>
    rw [hchange.tuple, textKeyed_tuple] at hv
    exact ih (hv _ (List.mem_map_of_mem hx))
  | sequence hx _ ih =>
    rw [hchange.sequence, textKeyed_sequence] at hv
    exact ih (hv _ (List.mem_map_of_mem hx))
  | entry he _ ih =>
    rw [hchange.map, textKeyed_map] at hv
    exact ih (hv.2.2 _ (List.mem_map_of_mem he))

lemma Descends.comp {change change' : Value → Value} (h : Descends change) (h' : Descends change') :
    Descends fun v => change (change' v) where
  null := by rw [h'.null, h.null]
  scalar s := by rw [h'.scalar, h.scalar]
  range a b c := by rw [h'.range, h.range]
  list xs := by rw [h'.list, h.list, List.map_map]; rfl
  tuple xs := by rw [h'.tuple, h.tuple, List.map_map]; rfl
  sequence t xs := by rw [h'.sequence, h.sequence, List.map_map]; rfl
  map o es := by rw [h'.map, h.map, List.map_map]; rfl
  set b xs := by rw [h'.set, h.set, List.map_map]; rfl

lemma last_step {R : Nat → Nat → Prop} (h : ReflTransGen R l m) :
    l = m ∨ ∃ k, R l k ∧ k ≠ l ∧ ReflTransGen (fun a b => R a b ∧ b ≠ l) k m := by
  induction h with
  | refl => exact .inl rfl
  | @tail b c _ hstep ih =>
    by_cases hc : c = l
    · exact .inl hc.symm
    · rcases ih with rfl | ⟨k, hk, hne, hpath⟩
      · exact .inr ⟨c, hstep, hc, .refl⟩
      · exact .inr ⟨k, hk, hne, hpath.tail ⟨hstep, hc⟩⟩

lemma known_of_bears (hm : ReflTransGen (fun a b => Bears contents a b ∧ b ∉ above) l m)
    (hc : contents.lookup m = some c) : ∃ c', contents.lookup l = some c' := by
  rcases hm.cases_head with rfl | ⟨k, ⟨⟨c', hc', -⟩, -⟩, -⟩
  · exact ⟨c, hc⟩
  · exact ⟨c', hc'⟩

/-- If what a label unfolds to has texts as keys, so have the contents that it bears, as they show in it. -/
lemma Spare.textKeyed (h : Spare contents fuel above) (hl : l ∉ above)
    (hkeyed : (prune shared (Value.unfoldLabel contents fuel above l)).TextKeyed)
    (hm : ReflTransGen (fun a b => Bears contents a b ∧ b ∉ above) l m) (hc : contents.lookup m = some c) :
    ∃ f, (prune shared (substitute f c)).TextKeyed := by
  induction fuel generalizing above l with
  | zero =>
    obtain ⟨c', hc'⟩ := known_of_bears hm hc
    obtain ⟨f, hf, -⟩ := h.next hl hc'
    cases hf
  | succ fuel ih =>
    obtain ⟨c', hc'⟩ := known_of_bears hm hc
    obtain ⟨f, hf, hspare⟩ := h.next hl hc'
    obtain rfl := Nat.succ.inj hf
    have hinside : (prune shared (substitute (Value.unfoldLabel contents fuel (l :: above)) c')).TextKeyed := by
      rw [Value.unfoldLabel, if_neg (by simpa using hl), hc', prune] at hkeyed
      split_ifs at hkeyed <;> exact hkeyed
    -- the way on is taken from the last step away from the label, so that it is not met again
    rcases last_step hm with rfl | ⟨k, ⟨⟨c'', hk, hcarries⟩, habove⟩, hne, hpath⟩
    · obtain rfl := Option.some.inj (hc'.symm.trans hc)
      exact ⟨_, hinside⟩
    · obtain rfl := Option.some.inj (hc'.symm.trans hk)
      refine ih hspare (List.not_mem_cons_of_ne_of_not_mem hne habove) ?_ (hpath.lift id fun a b hab => ⟨hab.1.1, ?_⟩)
      · exact hcarries.textKeyed ((descends_prune shared).comp (descends_substitute _)) hinside
      · exact List.not_mem_cons_of_ne_of_not_mem hab.2 hab.1.2

/-- If a value that is put together has texts as keys, so have all contents that it bears, as they show in it. -/
theorem textKeyed_of_unfold (hkeyed : (v.unfold contents).pruned.TextKeyed) (hl : Carries l v)
    (hm : ReflTransGen (Bears contents) l m) (hc : contents.lookup m = some c) :
    ∃ shared f, (prune shared (substitute f c)).TextKeyed := by
  refine ⟨repeated (v.unfold contents).labels, Spare.start.textKeyed List.not_mem_nil ?_
    (hm.lift id fun a b hab => ⟨hab, List.not_mem_nil⟩) hc⟩
  exact hl.textKeyed ((descends_prune _).comp (descends_substitute _)) hkeyed

end Bearing

section Keys

variable {k : Value} {t : Text} {o : Bool} {es ps : List (Value × Value)} {e p : Value × Value}

lemma eq_text_of_sameKey {s : Scalar} (h : sameKey (.text t) (.scalar s) = true) : s = .text t := by
  cases s with
  | text u => rw [beq_iff_eq.mp (sameKey_text.symm.trans h)]
  | _ => cases h

lemma key_of_insertEntry (he : e ∈ insertEntry es k v) : e.1 = k ∨ ∃ e' ∈ es, e'.1 = e.1 := by
  induction es with
  | nil =>
    obtain rfl := List.mem_singleton.mp he
    exact .inl rfl
  | cons e' es ih =>
    rw [insertEntry] at he
    split_ifs at he
    · rcases List.mem_cons.mp he with rfl | he
      · exact .inr ⟨e', List.mem_cons_self, rfl⟩
      · exact .inr ⟨e, List.mem_cons_of_mem _ he, rfl⟩
    · rcases List.mem_cons.mp he with rfl | he
      · exact .inr ⟨e', List.mem_cons_self, rfl⟩
      · exact (ih he).imp_right (Exists.imp fun _ h => ⟨List.mem_cons_of_mem _ h.1, h.2⟩)

lemma key_of_entriesOf (he : e ∈ entriesOf ps) : ∃ p ∈ ps, p.1 = e.1 := by
  induction ps using List.reverseRecOn generalizing e with
  | nil => exact absurd he List.not_mem_nil
  | append_singleton ps p ih =>
    rw [entriesOf, List.foldl_append] at he
    rcases key_of_insertEntry he with hkey | ⟨e', he', hkey⟩
    · exact ⟨p, by simp, hkey.symm⟩
    · obtain ⟨q, hq, heq⟩ := ih he'
      exact ⟨q, List.mem_append_left _ hq, heq.trans hkey⟩

lemma stays_insertEntry (k v : Value) (he : e ∈ es) : ∃ e' ∈ insertEntry es k v, e'.1 = e.1 := by
  induction es with
  | nil => exact absurd he List.not_mem_nil
  | cons e' es ih =>
    rw [insertEntry]
    rcases List.mem_cons.mp he with rfl | he
    · split_ifs
      · exact ⟨_, List.mem_cons_self, rfl⟩
      · exact ⟨_, List.mem_cons_self, rfl⟩
    · split_ifs
      · exact ⟨e, List.mem_cons_of_mem _ he, rfl⟩
      · obtain ⟨e'', hmem, heq⟩ := ih he
        exact ⟨e'', List.mem_cons_of_mem _ hmem, heq⟩

lemma comes_insertEntry (es : List (Value × Value)) (k v : Value) :
    ∃ e ∈ insertEntry es k v, e.1 = k ∨ e.1.sameKey k = true := by
  induction es with
  | nil => exact ⟨(k, v), List.mem_singleton_self _, .inl rfl⟩
  | cons e es ih =>
    rw [insertEntry]
    split_ifs with hsame
    · exact ⟨_, List.mem_cons_self, .inr hsame⟩
    · obtain ⟨e', he', heq⟩ := ih
      exact ⟨e', List.mem_cons_of_mem _ he', heq⟩

/-- Every key is there in a mapping that is made with it, or one that counts as the same. -/
lemma exists_key_entriesOf (hp : p ∈ ps) : ∃ e ∈ entriesOf ps, e.1 = p.1 ∨ e.1.sameKey p.1 = true := by
  induction ps using List.reverseRecOn with
  | nil => exact absurd hp List.not_mem_nil
  | append_singleton ps q ih =>
    rw [entriesOf, List.foldl_append]
    rcases List.mem_append.mp hp with hp | hp
    · obtain ⟨e, he, heq⟩ := ih hp
      obtain ⟨e', he', hkey⟩ := stays_insertEntry q.1 q.2 he
      exact ⟨e', he', hkey ▸ heq⟩
    · obtain rfl := List.mem_singleton.mp hp
      exact comes_insertEntry _ _ _

lemma entriesOf_eq (htexts : ∀ p ∈ ps, ∃ t, p.1 = .text t) (hdistinct : (ps.map (·.1)).Nodup) : entriesOf ps = ps := by
  obtain ⟨es, rfl⟩ : ∃ es : List (Text × Value), ps = es.map fun e => (.text e.1, e.2) := by
    choose! name hname using htexts
    refine ⟨ps.map fun p => (name p, p.2), ?_⟩
    rw [List.map_map]
    conv_lhs => rw [← List.map_id ps]
    exact List.map_congr_left fun p hp => Prod.ext (hname p hp) rfl
  refine entriesOf_texts ?_
  rw [List.map_map] at hdistinct
  exact List.Nodup.of_map Value.text (by rw [List.map_map]; exact hdistinct)

end Keys

end DocPath.Value
