import DocPath.Proofs.Json.Writing
import DocPath.Proofs.Payload.Json
import DocPath.Proofs.Payload.Roots
import DocPath.Proofs.Yaml.Emitted
import DocPath.Proofs.Yaml.Representable

/-! Documents that were read, written again: which of them have bytes. -/

namespace DocPath

open Charset.Utf8

namespace Payload

variable {style : Json.Style} {contentType : Text} {format : ContentType.Format} {p : Payload} {v : Value}

lemma read_of_decode (hf : ContentType.format? contentType = some format) (h : decode contentType p = .ok v) :
    ∃ t, readText format t = .ok v := by
  obtain ⟨format', hformat, h⟩ := bind_eq_ok h
  obtain rfl := Except.ok.inj ((format_eq_ok hf).symm.trans hformat)
  obtain ⟨t, -, hread⟩ := bind_eq_ok h
  exact ⟨t, hread⟩

/-- A value that does not contain itself has bytes in UTF-8 if its text has no surrogates. -/
lemma encode_isOk_iff (hf : ContentType.format? contentType = some format)
    (hc : ContentType.charsetFor true contentType = .ok (.utf8 false)) :
    (∃ bs, encode style contentType v = .ok bs) ↔
      v.isCyclic = false ∧ ∃ t, writeText format style v.normalize = .ok t ∧ WellFormed t := by
  have hencode (t : Text) : (∃ bs, ((Charset.utf8 false).encode t).mapError PayloadFault.encoding = .ok bs) ↔
      WellFormed t := isOk_mapError_iff.trans encodeFrom_isOk_iff
  rw [encode, format_eq_ok hf, hc, Value.normal?]
  cases v.isCyclic with
  | true =>
    refine iff_of_false ?_ fun h => Bool.noConfusion h.1
    rintro ⟨bs, hbs⟩
    cases hbs
  | false =>
    rw [and_iff_right rfl]
    show (∃ bs, (writeText format style v.normalize >>= fun t =>
      ((Charset.utf8 false).encode t).mapError PayloadFault.encoding) = .ok bs) ↔ _
    rw [isOk_bind_iff]
    exact exists_congr fun t => and_congr_right fun _ => hencode t

/-- A value of JSON has bytes in UTF-8 unless there are surrogates in it. -/
lemma encode_isOk_iff_of_isJson (hf : ContentType.format? contentType = some .json)
    (hc : ContentType.charsetFor true contentType = .ok (.utf8 false)) (h : Json.IsJson v) :
    (∃ bs, encode style contentType v = .ok bs) ↔ ∀ t ∈ v.texts, WellFormed t := by
  have hacyclic : v.isCyclic = false := by
    rw [← Bool.not_eq_true, Value.isCyclic_iff]
    rintro ⟨l, hl⟩
    exact h.not_refers hl
  obtain ⟨t, ht, htexts⟩ := h.writes style 0
  have hwrite : writeText .json style v.normalize = .ok t := by
    rw [writeText, h.normalize, Json.write, ht]
    rfl
  rw [encode_isOk_iff hf hc, and_iff_right hacyclic, hwrite, ← htexts]
  refine ⟨?_, fun hwell => ⟨t, rfl, hwell⟩⟩
  rintro ⟨u, hu, hwell⟩
  exact Except.ok.inj hu ▸ hwell

/-- A value of YAML has bytes in UTF-8 unless it contains itself or has an integer with too many digits. -/
lemma encode_isOk_iff_of_isYaml (hf : ContentType.format? contentType = some .yaml)
    (hc : ContentType.charsetFor true contentType = .ok (.utf8 false)) (h : Yaml.IsYaml v) :
    (∃ bs, encode style contentType v = .ok bs) ↔ Yaml.Tree.Finite v := by
  have htree : (∃ t, writeText .yaml style v.normalize = .ok t ∧ WellFormed t) ↔ Yaml.Tree.Finite v := by
    rw [← Yaml.Tree.ofValue_isOk_iff h, ← Yaml.Tree.ofValue_normalize, ← isOk_map_iff (f := Yaml.Layout.document)]
    show (∃ t, (Yaml.write _).mapError _ = .ok t ∧ _) ↔ ∃ t, Yaml.write _ = .ok t
    refine ⟨fun ⟨t, ht, _⟩ => ⟨t, mapError_eq_ok ht⟩, fun ⟨t, ht⟩ => ⟨t, ?_, Yaml.wellFormed_of_write ht⟩⟩
    rw [ht]
    rfl
  rw [encode_isOk_iff hf hc, htree]
  exact and_iff_right_of_imp fun h => h.1

end Payload

namespace Document

variable {settings settings' : Config} {stated stated' : Option Text} {contentType : Text} {p : Payload} {v : Value}
  {doc : DocPath.Document}

lemma root_of_ofRoot (h : ofRoot v = .ok doc) (hmapping : doc.root.isMapping = true) : doc.root = v := by
  rw [ofRoot] at h
  split at h
  · exact congrArg Document.root (Except.ok.inj h).symm
  · cases h
    cases hmapping
  · split at h
    · cases h
      cases hmapping
    · cases h
      cases hmapping
    · cases h

/-- A document that was read and is a mapping is written with the content type it was read with, in UTF-8: as JSON unless
there are surrogates in its texts, as YAML unless it contains itself or an integer in it has too many digits. -/
theorem toBytes_of_payload (ht : Document.contentType stated settings = .ok contentType)
    (ht' : Document.contentType stated' settings' = .ok contentType)
    (hcharset : ContentType.charsetFor true contentType = .ok (.utf8 false))
    (hdoc : (ofPayload settings stated p).2 = .ok doc) (hmapping : doc.root.isMapping = true) :
    (ContentType.format? contentType = some .json →
      ((∃ bs, doc.toBytes settings' stated' = .ok bs) ↔ ∀ t ∈ doc.root.texts, WellFormed t)) ∧
    (ContentType.format? contentType = some .yaml →
      ((∃ bs, doc.toBytes settings' stated' = .ok bs) ↔ Yaml.Tree.Finite doc.root)) := by
  obtain ⟨v, hv, hroot⟩ := decode_of_ofPayload ht hdoc
  obtain rfl := root_of_ofRoot hroot hmapping
  have hencode : (∃ bs, doc.toBytes settings' stated' = .ok bs) ↔
      ∃ bs, Payload.encode (style settings') contentType doc.root = .ok bs := by
    rw [toBytes, if_pos hmapping, ht']
    exact isOk_mapError_iff
  rw [hencode]
  refine ⟨fun hjson => ?_, fun hyaml => ?_⟩
  · obtain ⟨t, hread⟩ := Payload.read_of_decode hjson hv
    exact Payload.encode_isOk_iff_of_isJson hjson hcharset (Json.isJson_of_read (mapError_eq_ok hread))
  · obtain ⟨t, hread⟩ := Payload.read_of_decode hyaml hv
    have hvalue := Yaml.hereditary_of_read Yaml.hereditary_isYaml (mapError_eq_ok hread)
    exact Payload.encode_isOk_iff_of_isYaml hyaml hcharset hvalue

/-- Half of a surrogate pair is written in YAML, as the escape that it was read from. -/
theorem toBytes_of_payload_escape :
    let p : Payload := .text "a: [\"\\ud800\", !!set \x7bx\x7d, 2020-01-01]\n"
    ∃ doc, (ofPayload Config.default (some "text/yaml") p).2 = .ok doc ∧ doc.root.isMapping = true ∧
      ∃ bs, doc.toBytes Config.default (some "text/yaml") = .ok bs := by
  intro p
  have ht : Document.contentType (some "text/yaml") Config.default = .ok "text/yaml" := rfl
  have hcharset : ContentType.charsetFor true "text/yaml" = .ok (.utf8 false) := by decide +kernel
  have hdoc : (ofPayload Config.default (some "text/yaml") p).2 = .ok ⟨.map false [(.text "a", .list [.text
      [⟨0xD800, by decide⟩], .set false [.text "x"], .scalar (.date ⟨2020, 1, 1⟩)])]⟩ := by decide +kernel
  have hfinite : Yaml.Tree.Finite (.map false [(.text "a", .list [.text [⟨0xD800, by decide⟩], .set false [.text "x"],
      .scalar (.date ⟨2020, 1, 1⟩)])]) := by
    constructor
    · decide
    · simp [Value.Writable, Value.integers, Value.integersAll, Value.integersEntries]
  exact ⟨_, hdoc, rfl, ((toBytes_of_payload ht ht hcharset hdoc rfl).2 (by decide +kernel)).mpr hfinite⟩

/-- In JSON it is read from an escape and not written. -/
theorem toBytes_of_surrogate :
    let p : Payload := .text "\x7b\"a\": \"\\ud800\"\x7d"
    let doc : DocPath.Document := ⟨.map false [(.text "a", .text [⟨0xD800, by decide⟩])]⟩
    (ofPayload Config.default (some "application/json") p).2 = .ok doc ∧ doc.root.isMapping = true ∧
      ContentType.charsetFor true "application/json" = .ok (.utf8 false) ∧
      ∀ bs, doc.toBytes Config.default (some "application/json") ≠ .ok bs := by
  intro p doc
  have hrefused : (doc.toBytes Config.default (some "application/json")).isOk = false := by decide +kernel
  refine ⟨by decide +kernel, rfl, by decide +kernel, fun bs hbs => ?_⟩
  rw [hbs] at hrefused
  cases hrefused

end Document

end DocPath
