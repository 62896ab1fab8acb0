import DocPath.Proofs.Query.Location

/-! What a path meets in a document in which all keys are texts. -/

namespace DocPath.Query

/-- A value and all that lies in it, behind any keys and at any depth. -/
inductive Within : Value → Value → Prop
  | self (d : Value) : Within d d
  | entry {d v : Value} {e : Value × Value} {entries : List (Value × Value)} (hd : d.node = .mapping entries)
      (he : e ∈ entries) (h : Within e.2 v) : Within d v
  | item {d w v : Value} {i : Nat} {items : Items} (hd : d.node = .sequence items) (hi : items.get? i = some w)
      (h : Within w v) : Within d v

variable {store : Store} {d v : Value} {segments : List Text} {segment : Text}

lemma Within.textKeyed (h : Within d v) (hd : d.TextKeyed) : v.TextKeyed := by
  induction h with
  | self => exact hd
  | entry hm he _ ih =>
    obtain ⟨o, ho⟩ := textKeyed_of_mapping hd hm
    exact ih ((Value.textKeyed_map.mp ho).2.2 _ he)
  | item hs hi _ ih => exact ih (textKeyed_of_item hd hs hi)

lemma Finds.textKeyed {key : Text} (h : Finds d key v) (hd : d.TextKeyed) : v.TextKeyed := by
  cases h with
  | nothing => trivial
  | entry hm _ he =>
    obtain ⟨o, ho⟩ := textKeyed_of_mapping hd hm
    exact (Value.textKeyed_map.mp ho).2.2 _ (List.mem_of_find?_eq_some he)
  | absent => trivial
  | first hm =>
    obtain ⟨o, ho⟩ := textKeyed_of_mapping hd hm
    obtain ⟨t, ht⟩ := (Value.textKeyed_map.mp ho).1 _ List.mem_cons_self
    rw [ht]
    trivial
  | item hs _ hv =>
    rw [itemAt?] at hv
    split_ifs at hv
    exact textKeyed_of_item hd hs hv

lemma Reaches.textKeyed (h : Reaches store d segments v) (hd : d.TextKeyed) : v.TextKeyed := by
  induction h with
  | nil => exact hd
  | cons _ _ hf _ ih => exact ih (hf.textKeyed hd)

lemma textKeyed_of_evaluate {path : Text} (h : evaluate store d path = .ok v) (hd : d.TextKeyed) : v.TextKeyed := by
  rcases reaches_of_walk h with hr | ⟨rfl, -⟩
  · exact hr.textKeyed hd
  · trivial

lemma not_isIndex_anyKey {i : Int} : ¬ IsIndex anyKey i := fun h => by
  have hindex : isIndex anyKey = true := (isIndex_iff _).mpr ⟨i, h⟩
  exact absurd hindex (by decide)

/-- The first key of a mapping is a text; nothing else has one. -/
lemma Finds.anyKey_text (h : Finds d anyKey v) (hd : d.TextKeyed) : (∃ t, v = .text t) ∨ d.node = .null := by
  cases h with
  | nothing hn => exact .inr hn
  | entry _ hk => exact absurd rfl hk
  | absent _ hk => exact absurd rfl hk
  | first hm =>
    obtain ⟨o, ho⟩ := textKeyed_of_mapping hd hm
    exact .inl ((Value.textKeyed_map.mp ho).1 _ List.mem_cons_self)
  | item _ hi => exact absurd hi not_isIndex_anyKey

lemma named_unique {name name' : Text} (h : Named store segment name) (h' : Named store segment name') :
    name = name' := by
  cases h with
  | own h =>
    cases h' with
    | own => rfl
    | kept h' => rw [h] at h'; cases h'
  | kept h hn =>
    cases h' with
    | own h' => rw [h] at h'; cases h'
    | kept h' hn' =>
      rw [h] at h'
      cases h'
      exact Except.ok.inj (hn.symm.trans hn')

/-- Where the last segment asks for a first key, a text is reached, unless there was null before it. -/
lemma Reaches.anyKey_text (hkeyed : d.TextKeyed) (hn : Named store segment anyKey)
    (h : Reaches store d (segments ++ [segment]) v) :
    (∃ t, v = .text t) ∨ ∃ m, Reaches store d segments m ∧ m.node = .null := by
  induction segments generalizing d with
  | nil =>
    cases h with
    | cons _ hk hf hr =>
      cases hr
      obtain rfl := named_unique hk hn
      exact (hf.anyKey_text hkeyed).imp_right fun hnull => ⟨d, .nil d, hnull⟩
  | cons s segments ih =>
    cases h with
    | cons hd hk hf hr =>
      refine (ih (hf.textKeyed hkeyed) hr).imp_right ?_
      rintro ⟨m, hm, hnull⟩
      exact ⟨m, .cons hd hk hf hm, hnull⟩

end DocPath.Query
