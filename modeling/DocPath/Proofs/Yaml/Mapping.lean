import DocPath.Proofs.Value.Keys
import DocPath.Proofs.Yaml.Making

/-! The values of mappings. A mapping whose keys are scalars with names has nothing to merge, and is refused only if
two of its keys have one name. -/

namespace DocPath.Yaml.Make

/-- A key that has a name. -/
def IsNameKey (n : Node) : Prop := ∃ g t, n = .scalar g t ∧ IsName g.tag t

section Keys

variable {src : Source} {s : Making} {h : Head} {k : Node} {es : List (Node × Node)}

lemma nameOf_ref (hk : IsNameKey k) : nameOf (ref k) s = .ok (keyText k, s) := by
  obtain ⟨g, t, rfl, -, v, name, hv, hname⟩ := hk
  have hcurrent : current v s = .ok (v, s) := by
    rcases eq_of_plainScalar hv with rfl | ⟨c, rfl⟩ <;> rfl
  rw [ref, keyText, scalarName, hv, nameOf]
  refine (bind_ok hcurrent).trans ?_
  show _ = Except.ok (v.asName.toOption.getD [], s)
  rw [hname]
  rfl

lemma follow_nameKey (src : Source) (hk : IsNameKey k) :
    follow src k = k ∧ k.head.tag ≠ Tag.merge ∧ k.head.tag ≠ Tag.value := by
  obtain ⟨g, t, rfl, ⟨htag, -⟩, -⟩ := hk
  refine ⟨rfl, fun h => ?_, fun h => ?_⟩ <;> rw [show g.tag = _ from h] at htag <;> exact absurd htag (by decide)

lemma splitAtMerge_names (hes : ∀ e ∈ es, IsNameKey e.1) : splitAtMerge src es = none := by
  induction es with
  | nil => rfl
  | cons e es ih =>
    obtain ⟨hfollow, htag, -⟩ := follow_nameKey src (hes e List.mem_cons_self)
    rw [splitAtMerge, hfollow, if_neg htag, ih fun e he => hes e (List.mem_cons_of_mem _ he)]
    rfl

lemma noteTexts_names (hes : ∀ e ∈ es, IsNameKey e.1) : noteTexts src es s = .ok ((), s) := by
  have hids : (es.filterMap fun e =>
      if (follow src e.1).head.tag = Tag.value then some (follow src e.1).head.id else none) = [] := by
    rw [List.filterMap_eq_nil_iff]
    intro e he
    obtain ⟨hfollow, -, htag⟩ := follow_nameKey src (hes e he)
    rw [hfollow, if_neg htag]
  show Except.ok ((), { s with texts := _ ++ s.texts }) = _
  rw [hids]
  rfl

lemma entriesOf_run (hs : s.entries = []) : entriesOf h es s = .ok (es, s) := by
  show Except.ok ((s.entries.lookup h.id).getD es, s) = _
  rw [hs]
  rfl

lemma flatten_names {fuel : Nat} (hs : s.entries = []) (hes : ∀ e ∈ es, IsNameKey e.1) :
    flatten src (fuel + 1) h es s = .ok (es, s) := by
  rw [flatten, flattenFrom, bind_ok (entriesOf_run hs), List.drop_zero, splitAtMerge_names hes]
  simp only [List.isEmpty_nil, if_true]
  rw [bind_ok (noteTexts_names hes)]
  rfl

end Keys

/-- A node has a value wherever it is asked for outside of itself. -/
def Valued (root : Node) (size : Nat) (filling : List Node) (x : Make Value) (n : Node) : Prop :=
  ∀ s, Inv root filling s → (∀ a ∈ s.active, a < n.head.id) → Yields (Clash root) (x s) (Made root size filling s n)

section Entries

variable {root : Node} {size : Nat} {filling : List Node} {src : Source} {s : Making} {fuel : Nat} {k : Node}
  {es : List (Node × Node)}

lemma name_of_key {key : Node → Make Value} (hk : IsNameKey k) (hvalue : Valued root size filling (key k) k)
    (hinv : Inv root filling s) (hactive : ∀ a ∈ s.active, a < k.head.id) :
    Yields (Clash root) ((key k >>= nameOf) s) fun name s' =>
      name = keyText k ∧ Made root size filling s k (ref k) s' := by
  refine (hvalue s hinv hactive).bind fun v s' hmade => ?_
  obtain rfl := hmade.value
  exact .of_eq (nameOf_ref hk) ⟨rfl, hmade⟩

/-- Keys are refused only if two of them have one name. -/
lemma checkNames_spec {key : Node → Make Value} {seen : List Text} (hkeys : ∀ e ∈ es, IsNameKey e.1)
    (hvalue : ∀ e ∈ es, Valued root size filling (key e.1) e.1) (hinv : Inv root filling s)
    (hactive : ∀ e ∈ es, ∀ a ∈ s.active, a < e.1.head.id)
    (hd : (∀ m ∈ root.parts, DistinctKeys m) →
      (es.map fun e => keyText e.1).Nodup ∧ ∀ e ∈ es, keyText e.1 ∉ seen) :
    Yields (Clash root) (checkNames src key seen es s) fun _ s' => Inv root filling s' ∧ After size s s' ∧
      (es.map fun e => keyText e.1).Nodup ∧ ∀ e ∈ es, keyText e.1 ∉ seen := by
  induction es generalizing s seen with
  | nil => exact .of_eq rfl ⟨hinv, .refl size s, by simp, by simp⟩
  | cons e es ih =>
    obtain ⟨k, v⟩ := e
    have hk := hkeys _ List.mem_cons_self
    obtain ⟨hfollow, htag, -⟩ := follow_nameKey src hk
    have hrun : checkNames src key seen ((k, v) :: es) s = ((key k >>= nameOf) >>= fun name =>
        if seen.contains name then throw (.duplicateKey name (follow src k).head.start)
        else checkNames src key (name :: seen) es) s := by
      rw [checkNames, hfollow, bind_ok (tagOf_run hinv.texts), if_neg htag, bind_assoc]
    rw [hrun]
    refine (name_of_key hk (hvalue _ List.mem_cons_self) hinv (hactive _ List.mem_cons_self)).bind ?_
    rintro name s₁ ⟨rfl, hmade⟩
    by_cases hseen : keyText k ∈ seen
    · rw [if_pos (by simpa using hseen)]
      exact fun hall => (hd hall).2 _ List.mem_cons_self hseen
    · rw [if_neg (by simpa using hseen)]
      have hrest : (∀ m ∈ root.parts, DistinctKeys m) →
          (es.map fun e => keyText e.1).Nodup ∧ ∀ e ∈ es, keyText e.1 ∉ keyText k :: seen := by
        intro hall
        obtain ⟨hnodup, hnew⟩ := hd hall
        obtain ⟨hhead, htail⟩ := List.nodup_cons.mp hnodup
        refine ⟨htail, fun e he => List.not_mem_cons_of_ne_of_not_mem (fun heq => hhead ?_)
          (hnew e (List.mem_cons_of_mem _ he))⟩
        exact List.mem_map.mpr ⟨e, he, heq⟩
      refine (ih (fun e he => hkeys e (List.mem_cons_of_mem _ he)) (fun e he => hvalue e (List.mem_cons_of_mem _ he))
        hmade.inv (fun e he => hmade.after.active ▸ hactive e (List.mem_cons_of_mem _ he)) hrest).mono ?_
      rintro - s₂ ⟨hinv₂, hafter, hnodup, hnew⟩
      refine ⟨hinv₂, hmade.after.trans hafter, List.nodup_cons.mpr ⟨fun hmem => ?_, hnodup⟩, fun e he => ?_⟩
      · obtain ⟨e, he, heq⟩ := List.mem_map.mp hmem
        exact hnew e he (heq ▸ List.mem_cons_self)
      · rcases List.mem_cons.mp he with rfl | he
        · exact hseen
        · exact fun hmem => hnew e he (List.mem_cons_of_mem _ hmem)

lemma namedEntries_spec {key value : Node → Make Value} (hkeys : ∀ e ∈ es, IsNameKey e.1)
    (hkey : ∀ e ∈ es, Valued root size filling (key e.1) e.1)
    (hvalue : ∀ e ∈ es, Valued root size filling (value e.2) e.2) (hinv : Inv root filling s)
    (hactive : ∀ e ∈ es, ∀ a ∈ s.active, a < e.1.head.id ∧ a < e.2.head.id) :
    Yields (Clash root) (namedEntries key value es s) fun xs s' =>
      xs = es.map (fun e => (.text (keyText e.1), ref e.2)) ∧ Inv root filling s' ∧ After size s s' ∧
      ∀ e ∈ es, (s'.done.lookup e.1.head.id).isSome ∧ (s'.done.lookup e.2.head.id).isSome := by
  induction es generalizing s with
  | nil => exact .of_eq rfl ⟨rfl, hinv, .refl size s, by simp⟩
  | cons e es ih =>
    obtain ⟨k, v⟩ := e
    have hk := hkeys _ List.mem_cons_self
    have hrun : namedEntries key value ((k, v) :: es) = ((key k >>= nameOf) >>= fun name => do
        let x ← value v
        let xs ← namedEntries key value es
        pure ((.text name, x) :: xs)) := by
      rw [namedEntries, bind_assoc]
    rw [hrun]
    refine (name_of_key hk (hkey _ List.mem_cons_self) hinv
      fun a ha => (hactive _ List.mem_cons_self a ha).1).bind ?_
    rintro name s₁ ⟨rfl, hmade₁⟩
    refine (hvalue _ List.mem_cons_self s₁ hmade₁.inv fun a ha =>
      (hactive _ List.mem_cons_self a (hmade₁.after.active ▸ ha)).2).bind fun x s₂ hmade₂ => ?_
    have hafter := hmade₁.after.trans hmade₂.after
    refine (ih (fun e he => hkeys e (List.mem_cons_of_mem _ he)) (fun e he => hkey e (List.mem_cons_of_mem _ he))
      (fun e he => hvalue e (List.mem_cons_of_mem _ he)) hmade₂.inv
      fun e he => hafter.active ▸ hactive e (List.mem_cons_of_mem _ he)).bind ?_
    rintro xs s₃ ⟨rfl, hinv₃, hafter₃, hdone⟩
    refine .of_eq rfl ⟨by rw [hmade₂.value, List.map_cons], hinv₃, hafter.trans hafter₃, fun e he => ?_⟩
    rcases List.mem_cons.mp he with rfl | he
    · exact ⟨hafter₃.done _ (hmade₂.after.done _ hmade₁.done), hafter₃.done _ hmade₂.done⟩
    · exact hdone e he

end Entries

section Values

variable {root : Node} {size : Nat} {filling : List Node} {src : Source} {s : Making} {n : Node} {fuel : Nat}

lemma valued_scalar {h : Head} {t : Text} {deep : Bool} (hw : Whole root size) (hn : .scalar h t ∈ root.parts)
    (hfuel : 3 ≤ fuel) : Valued root size filling (value src fuel deep (.scalar h t)) (.scalar h t) := by
  obtain ⟨f, rfl⟩ := Nat.exists_eq_add_of_le' hfuel
  exact fun s hinv hactive => value_scalar hw hinv hn fun hmem => Nat.lt_irrefl _ (hactive _ hmem)

lemma value_mapping {h : Head} {es : List (Node × Node)} (hw : Whole root size) (hrule : src.rule = .names)
    (hn : .mapping h es ∈ root.parts) (hfuel : 3 ≤ fuel)
    (hvalue : ∀ e ∈ es, Valued root size filling (value src fuel false e.2) e.2) :
    Valued root size filling (value src (fuel + 2) false (.mapping h es)) (.mapping h es) := by
  intro s hinv hactive
  have hsound := hw.sound _ hn
  have ⟨htag, hkeys⟩ : h.tag = Tag.mapping ∧ ∀ e ∈ es, IsNameKey e.1 := hsound
  have hnew : h.id ∉ s.active := fun hmem => Nat.lt_irrefl _ (hactive _ hmem)
  have hchild : ∀ e ∈ es, e.1 ∈ Node.children (.mapping h es) ∧ e.2 ∈ Node.children (.mapping h es) := by
    intro e he
    constructor <;> exact List.mem_flatMap.mpr ⟨e, he, by simp⟩
  have hlater : ∀ e ∈ es, h.id < e.1.head.id ∧ h.id < e.2.head.id := fun e he =>
    ⟨hw.later _ hn _ (hchild e he).1, hw.later _ hn _ (hchild e he).2⟩
  have hkey : ∀ e ∈ es, Valued root size filling (value src fuel true e.1) e.1 := by
    intro e he
    obtain ⟨g, t, hk, -⟩ := hkeys e he
    have hpart := Node.parts_trans root hn (hchild e he).1
    rw [hk] at hpart ⊢
    exact valued_scalar hw hpart hfuel
  cases hd : s.done.lookup h.id with
  | some v => exact value_known hw hinv hn hd
  | none =>
    rw [value_new hsound hd hnew hinv.texts]
    refine value_finish hw hn hnew rfl ?_
    have hinv₀ := hinv.setActive (h.id :: s.active)
    -- what lies in the mapping has larger numbers than all that is being made
    have hbelow : ∀ e ∈ es, ∀ a ∈ h.id :: s.active, a < e.1.head.id ∧ a < e.2.head.id := by
      intro e he a ha
      obtain ⟨hlt, hlt'⟩ := hlater e he
      have hle : a ≤ h.id := by
        rcases List.mem_cons.mp ha with rfl | ha
        · exact Nat.le_refl _
        · exact Nat.le_of_lt (hactive a ha)
      exact ⟨Nat.lt_of_le_of_lt hle hlt, Nat.lt_of_le_of_lt hle hlt'⟩
    show Yields (Clash root) (make src (fuel + 1) false (.mapping h es) h.tag { s with active := h.id :: s.active }) _
    rw [htag, make_mapping hrule, namedMapping]
    obtain ⟨f, rfl⟩ : ∃ f, fuel = f + 1 := ⟨fuel - 1, by omega⟩
    rw [bind_assoc, bind_ok (entriesOf_run hinv₀.entries), bind_assoc]
    refine (checkNames_spec hkeys hkey hinv₀ (fun e he a ha => (hbelow e he a ha).1)
      fun hall => ⟨hall _ hn, by simp⟩).bind ?_
    rintro - s₁ ⟨hinv₁, hafter₁, hdistinct, -⟩
    rw [bind_assoc, bind_ok (flatten_names hinv₁.entries hkeys), bind_assoc]
    refine (namedEntries_spec hkeys hkey hvalue hinv₁ fun e he => hafter₁.active ▸ hbelow e he).bind ?_
    rintro xs s₂ ⟨rfl, hinv₂, hafter₂, hdone⟩
    -- the names are distinct, so that no entry comes in the place of another
    have hentries : Value.entriesOf (es.map fun e => (.text (keyText e.1), ref e.2)) =
        es.map fun e => (.text (keyText e.1), ref e.2) := by
      have := @Value.entriesOf_texts (es.map fun e => (keyText e.1, ref e.2))
        (by rw [List.map_map]; exact hdistinct)
      rwa [List.map_map] at this
    rw [hentries]
    refine .of_eq (s := { s₂ with contents := (h.id, content (.mapping h es)) :: s₂.contents }) rfl
      ⟨rfl, hinv₂.setContent hw hn, (hafter₁.trans hafter₂).setContents _, ?_⟩
    refine ⟨lookup_cons_self, fun c hc => ?_, hdistinct⟩
    obtain ⟨e, he, hc⟩ := List.mem_flatMap.mp hc
    rcases List.mem_pair.mp hc with rfl | rfl
    · exact (hdone e he).1
    · exact (hdone e he).2

/-- Every part has a value, given fuel for the parts inside it. -/
theorem value_spec (hw : Whole root size) (hrule : src.rule = .names) (hn : n ∈ root.parts)
    (hfuel : 2 * (size - n.head.id) + 3 ≤ fuel) :
    Valued root size filling (value src fuel false n) n := by
  induction fuel using Nat.strongRecOn generalizing n with
  | ind fuel ih =>
    have hbound := hw.bounded n hn
    obtain ⟨f, rfl⟩ : ∃ f, fuel = f + 2 := ⟨fuel - 2, by omega⟩
    cases n with
    | scalar h t => exact valued_scalar hw hn (by omega)
    | sequence h ns =>
      exact fun s hinv hactive => value_sequence hw hinv hrule hn fun hmem => Nat.lt_irrefl _ (hactive _ hmem)
    | mapping h es =>
      refine value_mapping hw hrule hn (by omega) fun e he => ?_
      have hchild : e.2 ∈ Node.children (.mapping h es) := List.mem_flatMap.mpr ⟨e, he, by simp⟩
      have hlater := hw.later _ hn _ hchild
      exact ih f (by omega) (Node.parts_trans root hn hchild) (by omega)
    | «alias» l => exact absurd (hw.sound _ hn) id

end Values

end DocPath.Yaml.Make
