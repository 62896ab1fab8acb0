import DocPath.Node
import DocPath.Proofs.Payload.Json
import DocPath.Proofs.Query.Location
import DocPath.Proofs.Yaml.RoundTrip

/-! Documents that are sent and received as YAML. -/

namespace DocPath

namespace Value

/-- The entries of a mapping. -/
def entries (v : Value) : List (Value × Value) :=
  match v.node with
  | .mapping es => es
  | _ => []

/-- A mapping with some entries as it stands, or with labels around it. -/
inductive IsMapOf (es : List (Value × Value)) : Value → Prop
  | map (o : Bool) : IsMapOf es (.map o es)
  | anchor (l : Nat) {v : Value} (h : IsMapOf es v) : IsMapOf es (.anchor l v)

lemma isMapOf_of_opened {v : Value} {o : Bool} {es : List (Value × Value)} (h : v.opened = .map o es) :
    ∃ es', IsMapOf es' v ∧ es'.length = es.length := by
  induction v using induct generalizing o es with
  | map o' es' =>
    cases h
    exact ⟨es', .map o', rfl⟩
  | anchor l v ih =>
    -- only a mapping that is filled is a mapping
    rw [opened] at h
    have hfill := descends_fill l (.anchor l v) []
    cases hv : v.opened with
    | map o' es' =>
      rw [hv, hfill.map] at h
      cases h
      obtain ⟨inner, hinner, hlength⟩ := ih hv
      exact ⟨inner, .anchor l hinner, by rw [hlength, List.length_map]⟩
    | «alias» m =>
      rw [hv, fill] at h
      split_ifs at h
      simp [cut] at h
    | _ =>
      rw [hv] at h
      cases h
  | _ => cases h

lemma isMapOf_of_isMapping {v : Value} (h : v.isMapping = true) : ∃ es, IsMapOf es v ∧ v.entries.length = es.length := by
  rw [isMapping] at h
  cases hnode : v.node with
  | mapping entries =>
    obtain ⟨o, ho⟩ := Query.node_eq_mapping hnode
    obtain ⟨es, hes, hlength⟩ := isMapOf_of_opened ho
    exact ⟨es, hes, by rw [Value.entries, hnode, hlength]⟩
  | _ =>
    rw [hnode] at h
    cases h

end Value

namespace Payload

open Yaml

lemma ofValue_isMapOf {v : Value} {es : List (Value × Value)} (hv : Value.IsMapOf es v) {t : Tree}
    (h : Tree.ofValue v = .ok t) : ∃ ts, t = .mapping Tag.mapping ts ∧ ts.length = es.length := by
  induction hv generalizing t with
  | map o =>
    obtain ⟨ts, hts, h⟩ := bind_eq_ok h
    cases h
    exact ⟨ts, rfl, length_ofEntries hts⟩
  | anchor l hv ih =>
    obtain ⟨part, hpart, h⟩ := bind_eq_ok h
    cases hv <;> cases h <;> exact ih hpart

lemma ofValue_mapping {document : Value} {t : Tree} (hmap : document.isMapping = true)
    (h : Tree.ofValue document.normalize = .ok t) :
    ∃ es, t = .mapping Tag.mapping es ∧ es.length = document.entries.length := by
  rw [Tree.ofValue_normalize] at h
  obtain ⟨es, hes, hlength⟩ := Value.isMapOf_of_isMapping hmap
  rw [hlength]
  exact ofValue_isMapOf hes h

/-- A mapping goes through YAML unharmed, entry by entry in the same order, exactly if what is written for its
keys and scalars recovers them. -/
theorem decode_encode_yaml {style : Json.Style} {contentType : Text} {document : Value} {bs : List UInt8}
    (hyaml : ContentType.format? contentType = some .yaml) (hmap : document.isMapping = true)
    (hsimple : document.Simple) (hkeys : document.TextKeyed) (h : encode style contentType document = .ok bs) :
    ∃ es, Tree.ofValue document.normalize = .ok (.mapping Tag.mapping es) ∧
      (decode contentType (.bytes bs) = .ok document.normalize.withoutAnchors ↔ Recovers es) := by
  obtain ⟨format, t, hf, ht, hd⟩ := decode_of_encode h
  obtain rfl : ContentType.Format.yaml = format := by
    simpa [ContentType.format, hyaml] using hf
  obtain ⟨tree, htree, rfl⟩ := map_eq_ok (mapError_eq_ok ht)
  obtain ⟨es, rfl, -⟩ := ofValue_mapping hmap htree
  refine ⟨es, htree, ?_⟩
  have htells := tells_ofValue document hsimple hkeys htree
  rw [hd (document_ne_nil htells.ordinary.2), readText, ← read_document htells]
  cases read (Layout.document (.mapping Tag.mapping es)) with
  | error fault => simp [Except.mapError]
  | ok v => simp [Except.mapError]

/-- A text with a colon in it is quoted. -/
theorem decode_encode_yaml_colon :
    decode "application/yaml" (.bytes [0x6b, 0x3a, 0x20, 0x27, 0x61, 0x3a, 0x20, 0x62, 0x27, 0x0a]) =
      .ok (.map false [(.text "k", .text "a: b")]) := by
  have hencode : encode .compact "application/yaml" (.map false [(.text "k", .text "a: b")]) =
      .ok [0x6b, 0x3a, 0x20, 0x27, 0x61, 0x3a, 0x20, 0x62, 0x27, 0x0a] := by
    decide +kernel
  obtain ⟨es, hes, hiff⟩ := decode_encode_yaml (by decide +kernel) (by rfl)
    (by simp [Value.Simple, Value.SimpleEntries])
    (by simp [Value.TextKeyed, Value.TextKeyedEntries]) hencode
  obtain rfl : [(.scalar Tag.string "k", .scalar Tag.string "a: b")] = es := by
    simpa using Except.ok.inj hes
  refine hiff.mpr ⟨⟨fun _ h => ?_, trivial, trivial⟩, ?_⟩
  · revert h
    decide +kernel
  · rfl

/-- A next line (U+0085) in a text becomes a blank. -/
theorem decode_encode_yaml_nextLine :
    let document : Value := .map false [(.text "k", .text ['a', ⟨0x85, by decide⟩, 'b'])]
    encode .compact "application/yaml" document =
        .ok [0x6b, 0x3a, 0x20, 0x27, 0x61, 0xc2, 0x85, 0x20, 0x20, 0x62, 0x27, 0x0a] ∧
      decode "application/yaml"
        (.bytes [0x6b, 0x3a, 0x20, 0x27, 0x61, 0xc2, 0x85, 0x20, 0x20, 0x62, 0x27, 0x0a]) =
        .ok (.map false [(.text "k", .text "a b")]) := by
  decide +kernel

end Payload

end DocPath
