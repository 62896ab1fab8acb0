import DocPath.Proofs.Json.Grammar
import DocPath.Proofs.Number.Numeral
import DocPath.Proofs.Value.Links

/-! The values that are read from JSON: null, words, numbers and texts, and arrays and objects of such values. No
integer has more digits than may be written, and no object has two members of one name. -/

namespace DocPath.Json

/-- A value that can be read from JSON. -/
inductive IsJson : Value → Prop
  | null : IsJson .null
  | bool (b : Bool) : IsJson (.bool b)
  | int (i : Int) (bounded : i.natAbs < 10 ^ Numeral.digitLimit) : IsJson (.int i)
  | float (x : Binary64) : IsJson (.float x)
  | text (t : Text) : IsJson (.text t)
  | array {vs : List Value} (items : ∀ v ∈ vs, IsJson v) : IsJson (.list vs)
  | object {es : List (Text × Value)} (distinct : (es.map (·.1)).Nodup) (values : ∀ e ∈ es, IsJson e.2) :
      IsJson (.map false (es.map fun e => (.text e.1, e.2)))

namespace IsJson

variable {v : Value}

lemma textKeyed (h : IsJson v) : v.TextKeyed := by
  induction h with
  | array _ ih => exact Value.textKeyed_list.mpr ih
  | @object es distinct _ ih =>
    have hnodup : ((es.map (·.1)).map Value.text).Nodup := distinct.map fun _ _ h => by simpa using h
    rw [List.map_map] at hnodup
    rw [Value.textKeyed_map, List.forall_mem_map, List.forall_mem_map, List.map_map]
    exact ⟨fun e _ => ⟨e.1, rfl⟩, hnodup, ih⟩
  | _ => trivial

lemma not_refers {l : Nat} (h : IsJson v) : ¬Value.Refers l v := by
  induction h with
  | array _ ih =>
    rw [Value.refers_list]
    rintro ⟨v, hv, hrefers⟩
    exact ih v hv hrefers
  | object _ _ ih =>
    rw [Value.refers_map]
    rintro ⟨e, he, hrefers⟩
    obtain ⟨e', he', rfl⟩ := List.mem_map.mp he
    exact ih e' he' (hrefers.resolve_left Value.not_refers_scalar)
  | _ => exact nofun

end IsJson

/-- An object has a meaning only if its names are different. -/
lemma isJson_unique {entries : List (Text × Value)} {v : Value} (hv : ∀ e ∈ entries, IsJson e.2)
    (h : unique entries = .ok v) : IsJson v := by
  obtain ⟨hdistinct, rfl⟩ := unique_eq_ok_iff.mp h
  exact .object hdistinct hv

lemma isJson_number {t rest : Text} {v : Value} (h : number t = .ok (v, rest)) : IsJson v := by
  simp only [number, failAt] at h
  split at h
  all_goals
    split_ifs at h
    all_goals first
      | cases h; exact .float _
      | split at h
        · next hread => cases h; exact .int _ (Numeral.natAbs_lt_of_readInteger hread)
        · cases h

lemma isJson_word {t rest : Text} {v : Value} (h : word? t = some (v, rest)) : IsJson v := by
  rw [word?, Option.map_eq_some_iff] at h
  obtain ⟨w, hw, heq⟩ := h
  obtain rfl : w.2 = v := congrArg Prod.fst heq
  have hall : ∀ w ∈ words, IsJson w.2 := by simp [words, IsJson.null, IsJson.bool, IsJson.float]
  exact hall w (List.mem_of_find?_eq_some hw)

/-- What the part means, if repeated names are refused, are values of JSON. -/
def Part.MeansJson : Part → Prop
  | .value x => ∀ v, x.meaning unique = .ok v → IsJson v
  | .items xs => ∀ vs, Tree.meanings unique xs = .ok vs → ∀ v ∈ vs, IsJson v
  | .members ms => ∀ es, Tree.memberMeanings unique ms = .ok es → ∀ e ∈ es, IsJson e.2

lemma Spells.meansJson {t rest : Text} {part : Part} (h : Spells t part rest) : part.MeansJson := by
  induction h with
  | text _ =>
    intro v hv
    cases hv
    exact .text _
  | word _ h =>
    intro v hv
    cases hv
    exact isJson_word h
  | number _ _ h =>
    intro v hv
    cases hv
    exact isJson_number h
  | emptyArray _ =>
    intro v hv
    cases hv
    exact .array nofun
  | array _ _ _ ih =>
    intro v hv
    obtain ⟨vs, hvs, hv⟩ := bind_eq_ok hv
    cases hv
    exact .array (ih vs hvs)
  | emptyObject _ =>
    intro v hv
    have hv : unique [] = .ok v := hv
    exact isJson_unique (List.forall_mem_nil _) hv
  | object _ _ _ ih =>
    intro v hv
    obtain ⟨es, hes, hv⟩ := bind_eq_ok hv
    exact isJson_unique (ih es hes) hv
  | lastItem _ _ ih =>
    intro vs hvs
    obtain ⟨v, hv, hvs⟩ := bind_eq_ok hvs
    cases hvs
    exact List.forall_mem_singleton.mpr (ih v hv)
  | item _ _ _ ih ihs =>
    intro vs hvs
    obtain ⟨v, hv, hvs⟩ := bind_eq_ok hvs
    obtain ⟨vs', hvs', heq⟩ := bind_eq_ok hvs
    cases heq
    exact List.forall_mem_cons.mpr ⟨ih v hv, ihs vs' hvs'⟩
  | lastMember _ _ _ _ ih =>
    intro es hes
    obtain ⟨v, hv, hes⟩ := bind_eq_ok hes
    cases hes
    exact List.forall_mem_singleton.mpr (ih v hv)
  | member _ _ _ _ _ ih ihs =>
    intro es hes
    obtain ⟨v, hv, hes⟩ := bind_eq_ok hes
    obtain ⟨es', hes', heq⟩ := bind_eq_ok hes
    cases heq
    exact List.forall_mem_cons.mpr ⟨ih v hv, ihs es' hes'⟩

/-- What a text is read as. -/
theorem isJson_of_read {t : Text} {v : Value} (h : read t = .ok v) : IsJson v := by
  obtain ⟨x, hx⟩ := exists_spelled h
  obtain ⟨-, rest, hspells, -⟩ := id hx
  exact hspells.meansJson v ((readWith_of_spelled hx).symm.trans h)

end DocPath.Json
