import DocPath.Proofs.Path.Segments
import DocPath.Proofs.Query.Outcome
import DocPath.Proofs.Value.Keys
import DocPath.Stash

/-! Locations in a document: the keys and indices on the way from its root to a part. The path of a location
leads to the part, and a path that leads to something follows a location or asks for a first key. -/

namespace DocPath.Query

open Numeral

/-- A step from a collection to one of its parts. -/
inductive Step where
  | key (k : Text)
  | index (i : Nat)
  deriving DecidableEq

/-- The segment that asks for a part. -/
def Step.segment : Step → Text
  | key k => k
  | index i => Text.ofNat i

/-- Steps lead from a document to a part of it. -/
inductive At : Value → List Step → Value → Prop
  | root (d : Value) : At d [] d
  | entry {d w v : Value} {k : Text} {entries : List (Value × Value)} {steps : List Step}
      (hd : d.node = .mapping entries) (he : (.text k, w) ∈ entries) (h : At w steps v) :
      At d (.key k :: steps) v
  | item {d w v : Value} {i : Nat} {items : Items} {steps : List Step}
      (hd : d.node = .sequence items) (hi : items.get? i = some w) (h : At w steps v) :
      At d (.index i :: steps) v

/-- A segment reads as a step: a key is the segment itself, an index what the segment stands for. -/
inductive ReadAs : Text → Step → Prop
  | key (k : Text) : ReadAs k (.key k)
  | index {segment : Text} {i : Nat} (h : IsIndex segment i) : ReadAs segment (.index i)

/-- What segments ask for: the part at the location that they read as, or the first key of a mapping. -/
inductive Addresses (d : Value) : List Text → Value → Prop
  | part {segments : List Text} {steps : List Step} {v : Value} (hs : List.Forall₂ ReadAs segments steps)
      (h : At d steps v) : Addresses d segments v
  | firstKey {before : List Text} {steps : List Step} {m : Value} {e : Value × Value}
      {entries : List (Value × Value)} (hs : List.Forall₂ ReadAs before steps) (h : At d steps m)
      (hm : m.node = .mapping (e :: entries)) : Addresses d (before ++ [anyKey]) e.1

section Nodes

variable {d v : Value} {entries : List (Value × Value)} {items : Items}

lemma node_eq_mapping (h : d.node = .mapping entries) : ∃ o, d.opened = .map o entries := by
  unfold Value.node at h
  split at h <;> cases h
  exact ⟨_, ‹_›⟩

lemma textKeyed_of_mapping (hd : d.TextKeyed) (h : d.node = .mapping entries) :
    ∃ o, (Value.map o entries).TextKeyed := by
  obtain ⟨o, ho⟩ := node_eq_mapping h
  exact ⟨o, ho ▸ hd.opened⟩

lemma opened_of_item {i : Nat} (h : d.node = .sequence items) (hi : items.get? i = some v) :
    (∃ xs, (d.opened = .list xs ∨ d.opened = .tuple xs ∨ ∃ t, d.opened = .sequence t xs) ∧ v ∈ xs) ∨
      ∃ n, v = .int n := by
  unfold Value.node at h
  split at h <;> cases h
  case h_3 xs hxs => exact .inl ⟨xs, .inl hxs, List.mem_of_getElem? hi⟩
  case h_4 xs hxs => exact .inl ⟨xs, .inr (.inl hxs), List.mem_of_getElem? hi⟩
  case h_5 t xs hxs => exact .inl ⟨xs, .inr (.inr ⟨t, hxs⟩), List.mem_of_getElem? hi⟩
  case h_6 =>
    rw [Items.get?] at hi
    split_ifs at hi
    exact .inr ⟨_, (Option.some.inj hi).symm⟩

lemma textKeyed_of_item {i : Nat} (hd : d.TextKeyed) (h : d.node = .sequence items)
    (hi : items.get? i = some v) : v.TextKeyed := by
  have hopened := hd.opened
  rcases opened_of_item h hi with ⟨xs, hxs | hxs | ⟨t, hxs⟩, hmem⟩ | ⟨n, rfl⟩
  · rw [hxs, Value.textKeyed_list] at hopened
    exact hopened v hmem
  · rw [hxs, Value.textKeyed_tuple] at hopened
    exact hopened v hmem
  · rw [hxs, Value.textKeyed_sequence] at hopened
    exact hopened v hmem
  · trivial

lemma ne_null_of_node (h : d.node ≠ .null) : d ≠ .null := fun he => h (he ▸ rfl)

end Nodes

section Finding

/-- What is looked up in a sequence lies at the place that the key stands for. -/
lemma itemAt_of_item {items : Items} {key : Text} {v : Value} (h : item items key = .ok v) :
    ∃ i : Nat, IsIndex key i ∧ items.get? i = some v := by
  simp only [item] at h
  split_ifs at h with hindex hsize hlong
  obtain ⟨i, hi⟩ := (isIndex_iff key).mp (by simpa using hindex)
  have hread : readInteger 10 key = .ok i := by
    cases hi with
    | @mk sign digits negative hs hd hne =>
      rw [readInteger_signed hs hd hne] at h ⊢
      by_cases htoo : digitLimit < digits.length
      · rw [if_pos htoo] at h
        cases h
      · rw [if_neg htoo]
  rw [hread] at h
  by_cases hneg : i < 0
  · simp [hneg] at h
  · obtain ⟨n, rfl⟩ := Int.eq_ofNat_of_zero_le (Int.not_lt.mp hneg)
    refine ⟨n, hi, ?_⟩
    simp only [hneg, if_false] at h
    cases hg : items.get? n with
    | none => simp [hg] at h
    | some w => simpa [hg] using h

/-- What a look-up gives is what the key finds. -/
theorem finds_of_step {d v : Value} {key : Text} (h : step d key = .ok v) : Finds d key v := by
  rw [step] at h
  cases hd : d.node with
  | null =>
    simp only [hd, Except.ok.injEq] at h
    exact h ▸ .nothing hd
  | scalar type => simp [hd] at h
  | sequence items =>
    simp only [hd] at h
    obtain ⟨i, hi, hv⟩ := itemAt_of_item h
    exact .item hd hi (by rw [itemAt?, if_neg (by omega)]; exact hv)
  | mapping entries =>
    simp only [hd] at h
    split_ifs at h with hk
    · subst hk
      cases entries with
      | nil => simp [firstKey] at h
      | cons e es =>
        rw [firstKey] at h
        split_ifs at h with hsome
        rw [Option.isSome_iff_ne_none, not_not, valueAt?_eq_none] at hsome
        exact Except.ok.inj h ▸ .first hd hsome
    · cases he : entries.find? fun e => e.1.sameKey (.text key) with
      | none =>
        rw [valueAt?, he] at h
        exact Except.ok.inj h ▸ .absent hd hk (valueAt?_eq_none.mp (by rw [valueAt?, he]; rfl))
      | some e =>
        rw [valueAt?, he] at h
        exact Except.ok.inj h ▸ .entry hd hk he

variable {store : Store} {path : Text}

/-- A walk that ends in a value came there by its segments, or to null by some of them. -/
theorem reaches_of_walk {d v : Value} {segments : List Text} (h : (walk store path d segments).2 = .ok v) :
    Reaches store d segments v ∨
      v = .null ∧ ∃ before after, segments = before ++ after ∧ Reaches store d before .null := by
  induction segments generalizing d with
  | nil =>
    obtain rfl := Except.ok.inj h
    exact .inl (.nil d)
  | cons segment rest ih =>
    by_cases hd : d = .null
    · subst hd
      rw [walk_null] at h
      exact .inr ⟨(Except.ok.inj h).symm, [], segment :: rest, rfl, .nil _⟩
    · rw [walk, if_neg hd] at h
      cases hkey : key store segment with
      | error fault => simp [hkey] at h
      | ok p =>
        obtain ⟨name, events⟩ := p
        have hn : Named store segment name := by
          rw [key] at hkey
          cases hs : store segment with
          | none =>
            simp only [hs, Except.ok.injEq, Prod.mk.injEq] at hkey
            exact hkey.1 ▸ .own hs
          | some w =>
            cases hw : w.asName with
            | error fault => simp [hs, hw] at hkey
            | ok t =>
              simp only [hs, hw, Except.ok.injEq, Prod.mk.injEq] at hkey
              exact hkey.1 ▸ .kept hs hw
        cases hstep : step d name with
        | error fault => simp [hkey, hstep] at h
        | ok w =>
          have hf := finds_of_step hstep
          simp only [hkey, hstep] at h
          rcases ih h with hr | ⟨rfl, before, after, rfl, hr⟩
          · exact .inl (.cons hd hn hf hr)
          · exact .inr ⟨rfl, segment :: before, after, rfl, .cons hd hn hf hr⟩

end Finding

section Addressing

variable {d v : Value} {path : Text} {steps : List Step}

lemma named_empty {segment name : Text} (h : Named Stash.empty.find? segment name) : name = segment := by
  cases h with
  | own => rfl
  | kept h => cases h

lemma countP_isDigit_ofNat_le {i n : Nat} (hi : i < n) (hn : n < 2 ^ 63) :
    (Text.ofNat i).countP CodePoint.isDigit ≤ digitLimit := by
  refine List.countP_le_length.trans ((Text.length_ofNatBase_le_iff (by decide) (by decide)).mpr ?_)
  calc i < 2 ^ 63 := hi.trans hn
    _ < 10 ^ 19 := by norm_num
    _ ≤ 10 ^ digitLimit := Nat.pow_le_pow_right (by decide) (by decide)

lemma isIndex_ofNat (i : Nat) : IsIndex (Text.ofNat i) i := by
  have h : IsIndex (Text.ofNat i) (value 10 (Text.ofNat i)) :=
    IsIndex.mk .none (Text.ofNat_isDigit i) (Text.ofNat_ne_nil i)
  rwa [Text.value_ofNat] at h

lemma get?_lt_size {items : Items} {i : Nat} (h : items.get? i = some v) : i < items.size := by
  cases items with
  | listed xs => exact (List.getElem?_eq_some_iff.mp h).1
  | progression a b n =>
    rw [Items.get?] at h
    split_ifs at h with hi
    exact hi

/-- The segments of a location lead to its part, step by step. -/
theorem walk_of_at (h : At d steps v) (hd : d.TextKeyed)
    (hsizes : ∀ before e items, At d before e → e.node = .sequence items → items.size < 2 ^ 63)
    (hkeys : ∀ k, .key k ∈ steps → k ≠ anyKey) :
    (walk Stash.empty.find? path d (steps.map Step.segment)).2 = .ok v := by
  induction h with
  | root => rfl
  | @entry d w v k entries steps hm he _ ih =>
    obtain ⟨o, ho⟩ := textKeyed_of_mapping hd hm
    have hfind : Finds d k w := .entry hm (hkeys k List.mem_cons_self) (Value.find?_text ho he)
    rw [List.map_cons, walk_cons _ (ne_null_of_node (by simp [hm])) (.own rfl), Step.segment,
      step_of_finds (fun items hs => by rw [hm] at hs; cases hs) hfind]
    exact ih ((Value.textKeyed_map.mp ho).2.2 _ he) (fun before e items hb => hsizes _ e items (.entry hm he hb))
      fun k' hk => hkeys k' (List.mem_cons_of_mem _ hk)
  | @item d w v i items steps hs hi _ ih =>
    have hsize := hsizes [] d items (.root d) hs
    have hfind : Finds d (Text.ofNat i) w :=
      .item hs (isIndex_ofNat i) (by rw [itemAt?, if_neg (by omega)]; exact hi)
    rw [List.map_cons, walk_cons _ (ne_null_of_node (by simp [hs])) (.own rfl), Step.segment,
      step_of_finds (fun items' hs' => ?_) hfind]
    · exact ih (textKeyed_of_item hd hs hi) (fun before e items hb => hsizes _ e items (.item hs hi hb))
        fun k' hk => hkeys k' (List.mem_cons_of_mem _ hk)
    · obtain rfl : items = items' := Node.sequence.inj (hs.symm.trans hs')
      exact ⟨hsize, countP_isDigit_ofNat_le (get?_lt_size hi) hsize⟩

lemma isSegment_of_askable (hkeys : ∀ k, .key k ∈ steps → k ≠ [] ∧ Path.escapeMark ∉ k ∧ k ≠ anyKey) :
    ∀ s ∈ steps.map Step.segment, Path.IsSegment s := by
  rw [List.forall_mem_map]
  intro step hstep
  cases step with
  | key k => exact ⟨(hkeys k hstep).1, (hkeys k hstep).2.1⟩
  | index i =>
    refine ⟨Text.ofNat_ne_nil i, fun hmem => ?_⟩
    have hdigit := Text.ofNat_isDigit i _ hmem
    revert hdigit
    decide

lemma Addresses.cons {w : Value} {segment : Text} {rest : List Text} {step : Step} (hs : ReadAs segment step)
    (hat : ∀ {steps v}, At w steps v → At d (step :: steps) v) (h : Addresses w rest v) :
    Addresses d (segment :: rest) v := by
  cases h with
  | part hss h => exact .part (.cons hs hss) (hat h)
  | firstKey hss h hm => exact .firstKey (.cons hs hss) (hat h) hm

/-- Segments lead only to what they ask for. -/
theorem addresses_of_reaches {segments : List Text} (h : Reaches Stash.empty.find? d segments v)
    (hd : d.TextKeyed) (hv : v ≠ .null) : Addresses d segments v := by
  induction h with
  | nil d => exact .part .nil (.root d)
  | @cons d w v segment key rest hne hk hf hr ih =>
    obtain rfl := named_empty hk
    -- nothing is reached behind null
    have hnull (hw : w = .null) : Addresses d (key :: rest) v := by
      subst hw
      cases hr with
      | nil => exact absurd rfl hv
      | cons hne => exact absurd rfl hne
    cases hf with
    | nothing hn => exact hnull rfl
    | absent hm hk hl => exact hnull rfl
    | @entry _ entries e hm hk he =>
      obtain ⟨o, ho⟩ := textKeyed_of_mapping hd hm
      obtain ⟨htexts, -, hvalues⟩ := Value.textKeyed_map.mp ho
      have hmem := List.mem_of_find?_eq_some he
      obtain ⟨t, ht⟩ := htexts e hmem
      have hsame := List.find?_some he
      simp only [ht, Value.sameKey_text, beq_iff_eq] at hsame
      subst hsame
      have hentry : (.text t, e.2) ∈ entries := ht ▸ hmem
      exact .cons (.key t) (.entry hm hentry) (ih (hvalues e hmem) hv)
    | @first e entries hm hl =>
      obtain ⟨o, ho⟩ := textKeyed_of_mapping hd hm
      obtain ⟨t, ht⟩ := (Value.textKeyed_map.mp ho).1 e List.mem_cons_self
      cases hr with
      | nil => exact .firstKey .nil (.root d) hm
      | cons _ _ hf =>
        -- a key is a scalar, below which nothing is found
        rw [ht] at hf
        cases hf with
        | nothing h => cases h
        | entry h => cases h
        | absent h => cases h
        | first h => cases h
        | item h => cases h
    | @item _ _ items i hs hi hitem =>
      rw [itemAt?] at hitem
      split_ifs at hitem with hneg
      obtain ⟨n, rfl⟩ := Int.eq_ofNat_of_zero_le (Int.not_lt.mp hneg)
      exact .cons (.index hi) (.item hs hitem) (ih (textKeyed_of_item hd hs hitem) hv)

/-- Without a stash, paths address the parts of a document. The path of a location, whose keys can be asked
for, leads to its part; and a path leads to nothing but what its segments ask for. -/
theorem evaluate_addresses {document : Value} (hkeys : document.TextKeyed)
    (hsizes : ∀ steps d items, At document steps d → d.node = .sequence items → items.size < 2 ^ 63) :
    (∀ steps v, At document steps v →
      (∀ k, .key k ∈ steps → k ≠ [] ∧ Path.escapeMark ∉ k ∧ k ≠ anyKey) →
      ∃ path, Path.join (steps.map Step.segment) = .ok path ∧
        evaluate Stash.empty.find? document path = .ok v) ∧
    ∀ path v, evaluate Stash.empty.find? document path = .ok v → v ≠ .null →
      Addresses document (Path.parse path) v := by
  refine ⟨fun steps v hat hask => ?_, fun path v hv hne => ?_⟩
  · have hsegments := isSegment_of_askable hask
    refine ⟨_, Path.join_ok hsegments, ?_⟩
    rw [evaluate, trace, Path.parse_join_escape _ hsegments]
    exact walk_of_at hat hkeys hsizes fun k hk => (hask k hk).2.2
  · rcases reaches_of_walk hv with hr | ⟨rfl, -⟩
    · exact addresses_of_reaches hr hkeys hne
    · exact absurd rfl hne

/-- A key with a point in it, and an item behind one that is nothing. -/
theorem evaluate_addresses_escaped_key :
    let document : Value := .map false [(.text "a.b", .list [.null, .text "x"])]
    document.TextKeyed ∧
      (∀ steps d items, At document steps d → d.node = .sequence items → items.size < 2 ^ 63) ∧
      ∃ path, Path.join ["a.b", "1"] = .ok path ∧
        evaluate Stash.empty.find? document path = .ok (.text "x") := by
  intro document
  have hkeys : document.TextKeyed := by
    simp [document, Value.TextKeyed, Value.TextKeyedAll, Value.TextKeyedEntries]
  have hsizes : ∀ steps d items, At document steps d → d.node = .sequence items → items.size < 2 ^ 63 := by
    intro steps d items hat hd
    cases hat with
    | root => cases hd
    | item hs => cases hs
    | @entry _ w _ _ entries _ hm he h =>
      obtain rfl : [(.text "a.b", .list [.null, .text "x"])] = entries := Node.mapping.inj hm
      obtain ⟨-, rfl⟩ : _ ∧ w = .list [.null, .text "x"] := by simpa using he
      cases h with
      | root => exact Node.sequence.inj hd ▸ (by decide)
      | entry hm => cases hm
      | @item _ w _ _ items _ hs hi h =>
        obtain rfl : Items.listed [.null, .text "x"] = items := Node.sequence.inj hs
        have hw : w = .null ∨ w = .text "x" := by simpa using List.mem_of_getElem? hi
        rcases hw with rfl | rfl
        · cases h with
          | root => cases hd
          | entry hm => cases hm
          | item hs => cases hs
        · cases h with
          | root => cases hd
          | entry hm => cases hm
          | item hs => cases hs
  have hat : At document [.key "a.b", .index 1] (.text "x") :=
    .entry (w := .list [.null, .text "x"]) rfl (List.mem_singleton_self _)
      (@At.item _ _ _ 1 (.listed [.null, .text "x"]) [] rfl rfl (.root _))
  refine ⟨hkeys, hsizes, (evaluate_addresses hkeys hsizes).1 _ _ hat fun k hk => ?_⟩
  obtain rfl : k = "a.b" := by simpa using hk
  exact ⟨by decide, by decide, by decide⟩

end Addressing

end DocPath.Query
