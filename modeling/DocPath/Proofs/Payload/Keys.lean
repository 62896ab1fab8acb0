import DocPath.Payload
import DocPath.Proofs.Json.Keys
import DocPath.Proofs.Query.Keys
import DocPath.Proofs.Yaml.Hereditary

/-! The keys of documents that are received: whatever the format, all of them are texts. -/

namespace DocPath.Payload

open Query

theorem textKeyed_of_decode {contentType : Text} {p : Payload} {d : Value} (h : decode contentType p = .ok d) :
    d.TextKeyed := by
  obtain ⟨format, -, h⟩ := bind_eq_ok h
  obtain ⟨t, -, h⟩ := bind_eq_ok h
  cases format with
  | json => exact (Json.isJson_of_read (mapError_eq_ok h)).textKeyed
  | yaml => exact Yaml.textKeyed_of_read (mapError_eq_ok h)

/-- All keys of a document that was received are texts, in every mapping that lies in it. So a first key that is
asked for is a text: a path that ends so leads to a text, unless it comes to null before its end. -/
theorem keys_of_decode {contentType : Text} {p : Payload} {d : Value} (h : decode contentType p = .ok d) :
    (∀ m entries, Within d m → m.node = .mapping entries → ∀ e ∈ entries, ∃ t, e.1 = .text t) ∧
    (∀ m entries v, Within d m → m.node = .mapping entries → step m anyKey = .ok v → ∃ t, v = .text t) ∧
    ∀ store path segments segment v, Path.parse path = segments ++ [segment] → Named store segment anyKey →
      evaluate store d path = .ok v →
      (∃ t, v = .text t) ∨
        ∃ before after m, segments = before ++ after ∧ Reaches store d before m ∧ m.node = .null := by
  have hd := textKeyed_of_decode h
  refine ⟨fun m entries hm hnode => ?_, fun m entries v hm hnode hv => ?_,
    fun store path segments segment v hpath hn hv => ?_⟩
  · obtain ⟨o, ho⟩ := textKeyed_of_mapping (hm.textKeyed hd) hnode
    exact (Value.textKeyed_map.mp ho).1
  · refine ((finds_of_step hv).anyKey_text (hm.textKeyed hd)).resolve_right fun hnull => ?_
    rw [hnode] at hnull
    cases hnull
  · have hlast (h : Reaches store d (segments ++ [segment]) v) : (∃ t, v = .text t) ∨
        ∃ before after m, segments = before ++ after ∧ Reaches store d before m ∧ m.node = .null := by
      refine (h.anyKey_text hd hn).imp_right ?_
      rintro ⟨m, hm, hnull⟩
      exact ⟨segments, [], m, by simp, hm, hnull⟩
    rw [evaluate, trace, hpath] at hv
    rcases reaches_of_walk hv with hr | ⟨rfl, before, after, hsplit, hr⟩
    · exact hlast hr
    · -- null is reached with the last segment or before it
      rcases List.eq_nil_or_concat after with rfl | ⟨after, last, rfl⟩
      · rw [List.append_nil] at hsplit
        exact hlast (hsplit ▸ hr)
      · rw [List.concat_eq_append, ← List.append_assoc] at hsplit
        exact .inr ⟨before, after, .null, (List.append_inj' hsplit rfl).1, hr, rfl⟩

/-- A number and null as keys, the second in a merged mapping. -/
theorem keys_of_decode_merged :
    let d : Value := .map false [(.text "null", .text "y"), (.text "1", .text "x")]
    decode "application/yaml" (.text "\x7b1: x, <<: \x7b~: y\x7d\x7d") = .ok d ∧
      ∀ v, step d anyKey = .ok v → ∃ t, v = .text t := by
  intro d
  have hd : decode "application/yaml" (.text "\x7b1: x, <<: \x7b~: y\x7d\x7d") = .ok d := by decide +kernel
  exact ⟨hd, fun v => (keys_of_decode hd).2.1 d _ v (.self d) rfl⟩

end DocPath.Payload
