import DocPath.Proofs.Table
import DocPath.Proofs.Value.Keys
import DocPath.Stash.Operation

/-! Stashes as maps that remember in which order their keys came up first: whatever is asked of a stash, the map has
the answer. -/

namespace DocPath

/-- A finite map with its keys in the order in which they came up first. -/
structure OrderedMap where
  keys : List Text
  value? : Text → Option Value
  nodup : keys.Nodup
  mem_keys : ∀ key, key ∈ keys ↔ (value? key).isSome

namespace OrderedMap

def empty : OrderedMap where
  keys := []
  value? _ := none
  nodup := List.nodup_nil
  mem_keys := by simp

def has (m : OrderedMap) (key : Text) : Bool := (m.value? key).isSome

/-- Gives a key a value. A new key comes behind the others, any other keeps its place. -/
def set (m : OrderedMap) (key : Text) (v : Value) : OrderedMap where
  keys := if m.has key then m.keys else m.keys ++ [key]
  value? := Function.update m.value? key (some v)
  nodup := by
    split_ifs with h
    · exact m.nodup
    · have hnew : key ∉ m.keys := mt (m.mem_keys key).mp h
      exact m.nodup.append (List.nodup_singleton key) (List.disjoint_singleton.mpr hnew)
  mem_keys k := by
    by_cases hk : k = key
    · subst hk
      by_cases h : m.has k
      · simpa [h] using (m.mem_keys k).mpr h
      · simp [h]
    · by_cases h : m.has key <;> simp [h, hk, m.mem_keys]

lemma keys_set {m : OrderedMap} {key : Text} (h : key ∈ m.keys) (v : Value) : (m.set key v).keys = m.keys :=
  if_pos ((m.mem_keys key).mp h)

lemma keys_set_new {m : OrderedMap} {key : Text} (h : key ∉ m.keys) (v : Value) :
    (m.set key v).keys = m.keys ++ [key] :=
  if_neg (mt (m.mem_keys key).mpr h)

/-- The map of some entries; of two with one key the later gives the value. -/
def ofEntries (entries : List (Text × Value)) : OrderedMap := entries.foldl (fun m e => m.set e.1 e.2) empty

/-- The entries as a mapping. -/
def toValue (m : OrderedMap) : Value :=
  .map false (m.keys.filterMap fun key => (m.value? key).map fun v => (.text key, v))

end OrderedMap

namespace Stash

/-- The operations on a stash for which keys are texts. -/
inductive Call where
  | insert (key : Text) (value : Value)
  | holds (key : Text)
  | get (key : Text)
  | clear
  | toValue
  | member (key : Text)
  | keys
  | size

def Call.operation : Call → Operation
  | insert key v => .insert key v
  | holds key => .holds key
  | get key => .get key
  | clear => .clear
  | toValue => .toValue
  | member key => .member (.text key)
  | keys => .keys
  | size => .size

/-- What a stash is taken for: a map that may refuse every change. -/
structure Abstract where
  map : OrderedMap
  readOnly : Bool

namespace Abstract

def answer (m : Abstract) : Call → Except Failure Value
  | .insert key _ =>
    if m.readOnly then .error (.stash .readOnly)
    else if key = [] then .error (.stash .emptyKey)
    else .ok .null
  | .holds key | .member key => .ok (.bool (m.map.has key))
  | .get key => (m.map.value? key).elim (.error (.stash (.absent key))) .ok
  | .clear => if m.readOnly then .error (.stash .readOnly) else .ok .null
  | .toValue => .ok m.map.toValue
  | .keys => .ok (.list (m.map.keys.map .text))
  | .size => .ok (.int m.map.keys.length)

def after (m : Abstract) : Call → Abstract
  | .insert key v => if m.readOnly ∨ key = [] then m else { m with map := m.map.set key v }
  | .clear => if m.readOnly then m else { m with map := .empty }
  | _ => m

lemma readOnly_after (m : Abstract) (c : Call) : (m.after c).readOnly = m.readOnly := by
  cases c with
  | insert key v =>
    rw [after]
    split_ifs <;> rfl
  | clear =>
    rw [after]
    split_ifs <;> rfl
  | _ => rfl

lemma after_of_readOnly {m : Abstract} (h : m.readOnly = true) (c : Call) : m.after c = m := by
  cases c with
  | insert key v => exact if_pos (.inl h)
  | clear => exact if_pos h
  | _ => rfl

end Abstract

/-- A stash has the keys and values of a map. -/
structure Shows (t : Stash) (m : Abstract) : Prop where
  readOnly : t.readOnly = m.readOnly
  keys : t.keys = m.map.keys
  find? : ∀ key, t.find? key = m.map.value? key

namespace Shows

variable {t : Stash} {m : Abstract} {key : Text} {v : Value}

lemma empty : Shows Stash.empty ⟨.empty, true⟩ := ⟨rfl, rfl, fun _ => rfl⟩

/-- A stash without keys that refuses changes is the one that is used where none is given. -/
lemma eq_empty (h : Shows t ⟨.empty, true⟩) : t = Stash.empty := by
  obtain ⟨entries, readOnly⟩ := t
  obtain rfl : readOnly = true := h.readOnly
  obtain rfl : entries = [] := List.map_eq_nil_iff.mp h.keys
  rfl

lemma put (h : Shows t m) (key : Text) (v : Value) :
    Shows { t with entries := Table.put key v t.entries } { m with map := m.map.set key v } where
  readOnly := h.readOnly
  keys := by
    have hkeys : t.entries.map (·.1) = m.map.keys := h.keys
    by_cases hmem : key ∈ m.map.keys
    · rw [OrderedMap.keys_set hmem, Stash.keys, Table.names_put (hkeys ▸ hmem), hkeys]
    · rw [OrderedMap.keys_set_new hmem, Stash.keys, Table.put_of_not_mem (hkeys ▸ hmem), List.map_append, hkeys]
      rfl
  find? k := by
    have hfind : t.entries.lookup k = m.map.value? k := h.find? k
    simp [Stash.find?, Table.lookup_put, hfind, OrderedMap.set, Function.update_apply]

lemma ofList (entries : List (Text × Value)) : Shows (Stash.ofList entries) ⟨.ofEntries entries, false⟩ := by
  induction entries using List.reverseRecOn with
  | nil => exact ⟨rfl, rfl, fun _ => rfl⟩
  | append_singleton entries e ih =>
    have hput := ih.put e.1 e.2
    simpa [Stash.ofList, Table.ofEntries_concat, OrderedMap.ofEntries] using hput

lemma holds (h : Shows t m) (key : Text) : t.holds key = m.map.has key := by
  rw [Stash.holds, h.find?, OrderedMap.has]

lemma nodup (h : Shows t m) : (t.entries.map (·.1)).Nodup := by
  have hkeys : t.entries.map (·.1) = m.map.keys := h.keys
  exact hkeys ▸ m.map.nodup

lemma toValue (h : Shows t m) : t.toValue = m.map.toValue := by
  have hkeys : t.entries.map (·.1) = m.map.keys := h.keys
  have hentries := Table.eq_filterMap_lookup h.nodup
  rw [hkeys] at hentries
  rw [Stash.toValue, OrderedMap.toValue, hentries, List.map_filterMap]
  congr 1
  refine List.filterMap_congr fun key _ => ?_
  rw [show t.entries.lookup key = m.map.value? key from h.find? key, Option.map_map]
  rfl

lemma member (h : Shows t m) (key : Text) : t.member (.text key) = .ok (m.map.has key) := by
  have hkeys : (t.entries.any fun e => (Value.text e.1).sameKey (.text key)) = true ↔ key ∈ t.keys := by
    rw [List.any_eq_true, Stash.keys, List.mem_map]
    exact exists_congr fun e => and_congr_right fun _ => by rw [Value.sameKey_text, beq_iff_eq]
  have hmember : (t.entries.any fun e => (Value.text e.1).sameKey (.text key)) = m.map.has key := by
    rw [Bool.eq_iff_iff, hkeys, h.keys, m.map.mem_keys, OrderedMap.has]
  rw [Stash.member, ← hmember]
  rfl

/-- A call has the answer of the map, and leads to what it leads to there. A call that fails leads nowhere. -/
theorem apply (h : Shows t m) (c : Call) :
    (∃ fault, t.apply c.operation = .error fault ∧ m.answer c = .error fault ∧ m.after c = m) ∨
      ∃ u v, t.apply c.operation = .ok (u, v) ∧ m.answer c = .ok v ∧ Shows u (m.after c) := by
  -- one case for each call: what is refused leaves the map as it is
  cases c with
  | insert key v =>
    by_cases hw : m.readOnly = true
    · left
      exact ⟨.stash .readOnly, by simp [Call.operation, Stash.apply, Stash.insert, h.readOnly, hw],
        by simp [Abstract.answer, hw], by simp [Abstract.after, hw]⟩
    · by_cases hk : key = []
      · left
        exact ⟨.stash .emptyKey, by simp [Call.operation, Stash.apply, Stash.insert, h.readOnly, hw, hk],
          by simp [Abstract.answer, hw, hk], by simp [Abstract.after, hk]⟩
      · right
        refine ⟨_, .null, by simp [Call.operation, Stash.apply, Stash.insert, h.readOnly, hw, hk]; rfl,
          by simp [Abstract.answer, hw, hk], ?_⟩
        have hput := h.put key v
        simpa [Abstract.after, hw, hk, h.readOnly] using hput
  | holds key => exact .inr ⟨t, _, rfl, by rw [h.holds]; rfl, h⟩
  | get key =>
    cases hv : m.map.value? key with
    | none =>
      left
      exact ⟨.stash (.absent key), by simp [Call.operation, Stash.apply, Stash.get, h.find?, hv],
        by simp [Abstract.answer, hv], rfl⟩
    | some v =>
      right
      exact ⟨t, v, by simp [Call.operation, Stash.apply, Stash.get, h.find?, hv], by simp [Abstract.answer, hv], h⟩
  | clear =>
    by_cases hw : m.readOnly = true
    · left
      exact ⟨.stash .readOnly, by simp [Call.operation, Stash.apply, Stash.clear, h.readOnly, hw],
        by simp [Abstract.answer, hw], by simp [Abstract.after, hw]⟩
    · right
      refine ⟨_, .null, by simp [Call.operation, Stash.apply, Stash.clear, h.readOnly, hw]; rfl,
        by simp [Abstract.answer, hw], ?_⟩
      simp only [Abstract.after, hw, Bool.false_eq_true, if_false]
      exact ⟨rfl, rfl, fun _ => rfl⟩
  | toValue => exact .inr ⟨t, _, rfl, by rw [h.toValue]; rfl, h⟩
  | member key =>
    exact .inr ⟨t, .bool (m.map.has key), by simp [Call.operation, Stash.apply, h.member], rfl, h⟩
  | keys => exact .inr ⟨t, _, rfl, by rw [h.keys]; rfl, h⟩
  | size =>
    have hsize : t.size = m.map.keys.length := by rw [← h.keys, Stash.keys, List.length_map, Stash.size]
    exact .inr ⟨t, _, rfl, by rw [hsize]; rfl, h⟩

end Shows

end Stash

end DocPath
