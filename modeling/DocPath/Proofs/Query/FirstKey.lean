import DocPath.Proofs.Query.Concat
import DocPath.Proofs.Query.Keys
import DocPath.Proofs.Table

/-! A first key that is asked for and kept: under the name that it is kept by, the value of the key is found. -/

namespace DocPath

namespace Stash

variable {s t : Stash} {k : Text} {v : Value}

lemma insert_ok (hw : s.readOnly = false) (hk : k ≠ []) (v : Value) : ∃ t, s.insert k v = .ok t := by
  simp [insert, hw, hk]

lemma find?_insert (h : s.insert k v = .ok t) (key : Text) :
    t.find? key = if key = k then some v else s.find? key := by
  rw [insert] at h
  split_ifs at h
  obtain rfl := Except.ok.inj h
  exact Table.lookup_put k key v s.entries

end Stash

namespace Query

variable {store other : Store} {d v : Value}

lemma walk_congr {segments : List Text} (h : ∀ s ∈ segments, store s = other s) (path : Text) (d : Value) :
    walk store path d segments = walk other path d segments := by
  induction segments generalizing d with
  | nil => rfl
  | cons segment rest ih =>
    obtain ⟨hsegment, hrest⟩ := List.forall_mem_cons.mp h
    simp only [walk, key, hsegment, ih hrest]

/-- A path of one segment behind another path: where that one ends, the key for the segment is looked up. -/
lemma evaluate_concat {p s : Text} (hp : Path.escapeMark ∉ Path.lastPiece p) (hs : Path.parse s = [s])
    (store : Store) (document : Value) :
    evaluate store document (p ++ Path.separator :: s) =
      evaluate store document p >>= fun m =>
        if m = .null then .ok .null else key store s >>= fun named => step m named.1 := by
  simp only [evaluate, trace]
  rw [Path.parse_append s hp, hs, walk_append _ p p]
  refine congrArg _ (funext fun m => ?_)
  rw [walk_segment]
  split_ifs
  · rfl
  · exact congrArg _ (funext fun named => bind_pure (step m named.1))

lemma first_of_step (h : step d anyKey = .ok v) (hv : v ≠ .null) :
    ∃ e entries, d.node = .mapping (e :: entries) ∧ Lacks (e :: entries) anyKey ∧ v = e.1 := by
  cases finds_of_step h with
  | nothing => exact absurd rfl hv
  | entry _ hk => exact absurd rfl hk
  | absent => exact absurd rfl hv
  | first hm hl => exact ⟨_, _, hm, hl, rfl⟩
  | item _ hi => exact absurd hi not_isIndex_anyKey

lemma step_text {entries : List (Value × Value)} {k : Text} {w : Value} (hd : d.TextKeyed)
    (hm : d.node = .mapping entries) (he : (.text k, w) ∈ entries) (hk : k ≠ anyKey) : step d k = .ok w := by
  obtain ⟨o, ho⟩ := textKeyed_of_mapping hd hm
  exact step_of_finds (fun items hs => by rw [hm] at hs; cases hs) (.entry hm hk (Value.find?_text ho he))

/-- A first key that is asked for is the key of the first entry of a mapping. If it is kept under a name that stands
nowhere in the path of the mapping, then the path with that name behind it leads to the value of the entry, whatever the
key is: it need not be one that could stand in a path itself. -/
theorem evaluate_kept_key {document v : Value} {stash : Stash} {p s : Text} (hkeys : document.TextKeyed)
    (hopen : stash.readOnly = false) (hany : stash.find? anyKey = none) (hp : Path.escapeMark ∉ Path.lastPiece p)
    (hs : s ≠ [] ∧ Path.separator ∉ s ∧ Path.escapeMark ∉ s) (hnew : s ∉ Path.parse p)
    (h : evaluate stash.find? document (p ++ Path.separator :: anyKey) = .ok v) (hv : v ≠ .null) :
    ∃ m k w entries kept, evaluate stash.find? document p = .ok m ∧ m.node = .mapping ((.text k, w) :: entries) ∧
      v = .text k ∧ stash.insert s v = .ok kept ∧
      evaluate kept.find? document (p ++ Path.separator :: s) = .ok w := by
  have hanyKey : Path.parse anyKey = [anyKey] := Path.parse_segment ⟨by decide, by decide⟩ (by decide)
  rw [evaluate_concat hp hanyKey] at h
  obtain ⟨m, hm, h⟩ := bind_eq_ok h
  have hkeyed : m.TextKeyed := textKeyed_of_evaluate hm hkeys
  split_ifs at h with hnull
  · exact absurd (Except.ok.inj h).symm hv
  rw [key, hany] at h
  obtain ⟨⟨k, w⟩, entries, hnode, hlacks, hfirst⟩ := first_of_step h hv
  obtain ⟨o, ho⟩ := textKeyed_of_mapping hkeyed hnode
  obtain ⟨t, rfl⟩ : ∃ t, k = .text t := (Value.textKeyed_map.mp ho).1 _ List.mem_cons_self
  obtain rfl : v = .text t := hfirst
  have ht : t ≠ anyKey := by
    rintro rfl
    have hown := hlacks _ List.mem_cons_self
    rw [Value.sameKey_text, beq_self_eq_true] at hown
    cases hown
  obtain ⟨kept, hkept⟩ := Stash.insert_ok hopen hs.1 (.text t)
  -- the walk along the first path does not ask for the new name
  have hsame : evaluate kept.find? document p = .ok m := by
    rw [← hm, evaluate, evaluate, trace, trace]
    refine congrArg (·.2) (walk_congr (fun segment hsegment => ?_) p document)
    have hne : segment ≠ s := fun heq => hnew (heq ▸ hsegment)
    rw [Stash.find?_insert hkept, if_neg hne]
  have hkey : key kept.find? s = .ok (t, [.substituted s t]) := by
    rw [key, Stash.find?_insert hkept, if_pos rfl]
    rfl
  refine ⟨m, t, w, entries, kept, hm, hnode, rfl, hkept, ?_⟩
  rw [evaluate_concat hp (Path.parse_segment ⟨hs.1, hs.2.2⟩ hs.2.1), hsame]
  show (if m = .null then .ok .null else key kept.find? s >>= fun named => step m named.1) = .ok w
  rw [if_neg hnull, hkey]
  exact step_text hkeyed hnode List.mem_cons_self ht

/-- The first key has points and escape marks in it, and is kept under the name that asks for a first key. -/
theorem evaluate_kept_key_unspellable :
    let stash := Stash.ofList [("n", .int 1)]
    let document : Value := .list [.null, .map false [(.text "\\a..b\\", .text "x"), (.text "n", .null)]]
    evaluate stash.find? document "n._arbitrary_key_" = .ok (.text "\\a..b\\") ∧
      ∃ kept, stash.insert anyKey (.text "\\a..b\\") = .ok kept ∧
        evaluate kept.find? document "n._arbitrary_key_" = .ok (.text "x") := by
  intro stash document
  have hkeys : document.TextKeyed := by
    simp [document, Value.TextKeyed, Value.TextKeyedAll, Value.TextKeyedEntries]
    decide
  have hfirst : evaluate stash.find? document "n._arbitrary_key_" = .ok (.text "\\a..b\\") := by decide +kernel
  obtain ⟨m, k, w, entries, kept, hm, hnode, hk, hkept, hvalue⟩ := evaluate_kept_key (p := "n") (s := anyKey) hkeys rfl
    (by decide) (by decide) (by decide) (by decide) hfirst (by decide)
  have hmapping : evaluate stash.find? document "n" =
      .ok (.map false [(.text "\\a..b\\", .text "x"), (.text "n", .null)]) := by decide +kernel
  obtain rfl := Except.ok.inj (hm.symm.trans hmapping)
  obtain rfl : .text "x" = w := congrArg Prod.snd (List.cons.inj (Node.mapping.inj hnode)).1
  exact ⟨hfirst, kept, hkept, hvalue⟩

end Query

end DocPath
