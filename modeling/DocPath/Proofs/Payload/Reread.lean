import DocPath.Proofs.Payload.Writing
import DocPath.Proofs.Payload.Yaml

/-! Documents that were written, read again: which of them are mappings with as many entries as before. -/

namespace DocPath

open Yaml

namespace Document

variable {settings settings' : Config} {stated stated' : Option Text} {contentType : Text} {v : Value}
  {doc : DocPath.Document} {bs : List UInt8}

/-- Bytes are read as a mapping with as many entries as a document has. -/
def Rereads (settings : Config) (stated : Option Text) (bs : List UInt8) (doc : DocPath.Document) : Prop :=
  ∃ doc', (ofPayload settings stated (.bytes bs)).2 = .ok doc' ∧ doc'.root.isMapping = true ∧
    doc'.root.entries.length = doc.root.entries.length

/-- They are if they are decoded to such a mapping. -/
lemma rereads_iff (ht : Document.contentType stated settings = .ok contentType) :
    Rereads settings stated bs doc ↔ ∃ v, Payload.decode contentType (.bytes bs) = .ok v ∧ v.isMapping = true ∧
      v.entries.length = doc.root.entries.length := by
  constructor
  · rintro ⟨doc', hdoc, hmapping, hlength⟩
    obtain ⟨v, hv, hroot⟩ := decode_of_ofPayload ht hdoc
    obtain rfl := root_of_ofRoot hroot hmapping
    exact ⟨_, hv, hmapping, hlength⟩
  · rintro ⟨v, hv, hmapping, hlength⟩
    refine ⟨⟨v⟩, ?_, hmapping, hlength⟩
    rw [ofPayload_of_decode ht hv, ofRoot]
    rw [Value.isMapping] at hmapping
    split at hmapping
    · next heq => rw [heq]
    · cases hmapping

lemma encode_of_toBytes (ht : Document.contentType stated settings = .ok contentType)
    (h : doc.toBytes settings stated = .ok bs) :
    doc.root.isMapping = true ∧ Payload.encode (style settings) contentType doc.root = .ok bs := by
  rw [toBytes] at h
  split_ifs at h with hmapping
  rw [ht] at h
  exact ⟨hmapping, mapError_eq_ok h⟩

lemma heard_isMapOf {es : List (Value × Value)} (h : Value.IsMapOf es v) :
    Json.heard v.normalize = Json.heard (.map false (Value.normalizeEntries es)) := by
  induction h with
  | map o => rfl
  | anchor l _ ih => exact ih

/-- Written as JSON, a mapping is read with all its entries exactly if no two keys in it are written as one name. -/
lemma rereads_json (hjson : ContentType.format? contentType = some .json)
    (ht : Document.contentType stated settings = .ok contentType)
    (ht' : Document.contentType stated' settings' = .ok contentType) (h : doc.toBytes settings stated = .ok bs) :
    Rereads settings' stated' bs doc ↔ Json.DistinctNames doc.root := by
  obtain ⟨hmapping, hencode⟩ := encode_of_toBytes ht h
  obtain ⟨format, t, hformat, hwrite, hdecode⟩ := Payload.decode_of_encode hencode
  obtain rfl := Except.ok.inj ((Payload.format_eq_ok hjson).symm.trans hformat)
  have hjsonWrite := mapError_eq_ok hwrite
  have hread : Payload.decode contentType (.bytes bs) = (Json.heard doc.root.normalize).mapError (.json t) := by
    rw [hdecode (Json.ne_nil_of_write hjsonWrite), Payload.readText, Json.read_write hjsonWrite]
  have hkeeps {w : Value} (hw : Json.heard doc.root.normalize = .ok w) :
      w.isMapping = true ∧ w.entries.length = doc.root.entries.length := by
    obtain ⟨es, hes, hlength⟩ := Value.isMapOf_of_isMapping hmapping
    have hheard : Json.heard (.map false (Value.normalizeEntries es)) = .ok w := heard_isMapOf hes ▸ hw
    obtain ⟨entries, rfl, hsame⟩ := Json.heard_map hheard
    refine ⟨rfl, ?_⟩
    exact (hsame.trans (by rw [Value.normalizeEntries_eq, List.length_map])).trans hlength.symm
  rw [rereads_iff ht', hread, ← Json.distinctNames_normalize, ← Json.heard_isOk_iff]
  constructor
  · rintro ⟨w, hw, -⟩
    exact ⟨w, mapError_eq_ok hw⟩
  · rintro ⟨w, hw⟩
    refine ⟨w, ?_, hkeeps hw⟩
    rw [hw]
    rfl

/-- Written as YAML, a mapping that is built from atoms is read with all its entries exactly if every key is short enough to
be read, and no two keys of a mapping are heard with one name. -/
lemma rereads_yaml (hyaml : ContentType.format? contentType = some .yaml)
    (ht : Document.contentType stated settings = .ok contentType)
    (ht' : Document.contentType stated' settings' = .ok contentType) (h : doc.toBytes settings stated = .ok bs)
    (hatoms : doc.root.OfAtoms) :
    ∃ es, Tree.ofValue doc.root = .ok (.mapping Tag.mapping es) ∧ (Rereads settings' stated' bs doc ↔
      FitsEntries es ∧ (Tree.mapping Tag.mapping (heardEntries 0 es)).Distinct) := by
  obtain ⟨hmapping, hencode⟩ := encode_of_toBytes ht h
  obtain ⟨format, t, hformat, hwrite, hdecode⟩ := Payload.decode_of_encode hencode
  obtain rfl := Except.ok.inj ((Payload.format_eq_ok hyaml).symm.trans hformat)
  obtain ⟨tree, htree, rfl⟩ := map_eq_ok (mapError_eq_ok hwrite)
  obtain ⟨es, rfl, hentries⟩ := Payload.ofValue_mapping hmapping htree
  rw [Tree.ofValue_normalize] at htree
  obtain ⟨⟨-, ho⟩, -, hr⟩ := plain_ofValue doc.root hatoms htree
  have hread : Payload.decode contentType (.bytes bs) =
      (Yaml.read (Layout.document (.mapping Tag.mapping es))).mapError
        (.yaml (Layout.document (.mapping Tag.mapping es))) := by
    rw [hdecode (document_ne_nil ho), Payload.readText]
  have hlength : (Tree.mapping Tag.mapping (heardEntries 0 es)).meaning.entries.length = doc.root.entries.length := by
    show (Tree.meaningEntries (heardEntries 0 es)).length = _
    rw [length_meaningEntries, length_heardEntries, hentries]
  refine ⟨es, htree, ?_⟩
  rw [rereads_iff ht', hread]
  constructor
  · rintro ⟨v, hv, -⟩
    obtain ⟨hfits, hdistinct, -⟩ := (read_document_eq_ok_iff ho hr).mp (mapError_eq_ok hv)
    exact ⟨hfits, hdistinct⟩
  · rintro ⟨hfits, hdistinct⟩
    refine ⟨_, ?_, rfl, hlength⟩
    rw [(read_document_eq_ok_iff ho hr).mpr ⟨hfits, hdistinct, rfl⟩]
    rfl

/-- What is written for a mapping is read as a mapping with as many entries: in JSON unless two keys of a mapping are
written as one name, in YAML unless a key is too long or two keys of a mapping are heard with one name. -/
theorem rereads_of_toBytes (ht : Document.contentType stated settings = .ok contentType)
    (ht' : Document.contentType stated' settings' = .ok contentType) (h : doc.toBytes settings stated = .ok bs) :
    (ContentType.format? contentType = some .json →
      (Rereads settings' stated' bs doc ↔ Json.DistinctNames doc.root)) ∧
    (ContentType.format? contentType = some .yaml → doc.root.OfAtoms →
      ∃ es, Tree.ofValue doc.root = .ok (.mapping Tag.mapping es) ∧ (Rereads settings' stated' bs doc ↔
        FitsEntries es ∧ (Tree.mapping Tag.mapping (heardEntries 0 es)).Distinct)) :=
  ⟨fun hjson => rereads_json hjson ht ht' h, fun hyaml hatoms => rereads_yaml hyaml ht ht' h hatoms⟩

/-- Atoms of all kinds in one mapping, as keys with different names. -/
theorem rereads_of_names :
    let doc : DocPath.Document := ⟨.map false [(.null, .int 1), (.bool true, .float Binary64.notANumber),
      (.float (Binary64.ofInt 10000000000000000), .text "c"), (.text "03", .map false [(.int 4, .null)])]⟩
    (∃ bs, doc.toBytes Config.default (some "application/json") = .ok bs ∧
      Rereads Config.default (some "application/json") bs doc) ∧
    ∃ bs, doc.toBytes Config.default (some "text/yaml") = .ok bs ∧ Rereads Config.default (some "text/yaml") bs doc := by
  intro doc
  have hjson : doc.toBytes Config.default (some "application/json") = .ok [123, 34, 110, 117, 108, 108, 34, 58, 32, 49,
      44, 32, 34, 116, 114, 117, 101, 34, 58, 32, 78, 97, 78, 44, 32, 34, 49, 101, 43, 49, 54, 34, 58, 32, 34, 99, 34,
      44, 32, 34, 48, 51, 34, 58, 32, 123, 34, 52, 34, 58, 32, 110, 117, 108, 108, 125, 125] := by decide +kernel
  have hyaml : doc.toBytes Config.default (some "text/yaml") = .ok [110, 117, 108, 108, 58, 32, 49, 10, 116, 114, 117,
      101, 58, 32, 46, 110, 97, 110, 10, 49, 46, 48, 101, 43, 49, 54, 58, 32, 99, 10, 39, 48, 51, 39, 58, 10, 32, 32,
      52, 58, 32, 110, 117, 108, 108, 10] := by decide +kernel
  have ht : Document.contentType (some "application/json") Config.default = .ok "application/json" := rfl
  have ht' : Document.contentType (some "text/yaml") Config.default = .ok "text/yaml" := rfl
  refine ⟨⟨_, hjson, ?_⟩, _, hyaml, ?_⟩
  · refine ((rereads_of_toBytes ht ht hjson).1 (by decide +kernel)).mpr ⟨by decide +kernel, ?_⟩
    exact ⟨trivial, trivial, trivial, ⟨by decide +kernel, trivial, trivial⟩, trivial⟩
  · obtain ⟨es, hes, hiff⟩ := (rereads_of_toBytes ht' ht' hyaml).2 (by decide +kernel)
      (by simp [doc, Value.OfAtoms, Value.OfAtomsEntries, Value.IsAtom])
    cases hes
    have hfits {tag t : Text} (h : Layout.style true tag t ≠ .double) : KeyFits tag t := fun _ hd => absurd hd h
    refine hiff.mpr ⟨⟨hfits (by decide +kernel), trivial, hfits (by decide +kernel), trivial, hfits (by decide +kernel),
      trivial, hfits (by decide +kernel), ⟨hfits (by decide +kernel), trivial, trivial⟩, trivial⟩, ?_⟩
    exact ⟨by decide +kernel, trivial, trivial, trivial, ⟨by decide +kernel, trivial, trivial⟩, trivial⟩

/-- Keys that are different when they are written and alike when they are read: a number and its digits, and in YAML a next
line (U+0085) and a blank. -/
theorem not_rereads_of_alike :
    let digits : DocPath.Document := ⟨.map false [(.int 1, .text "a"), (.text "1", .text "b")]⟩
    let blanks : DocPath.Document := ⟨.map false [(.text ['a', ⟨0x85, by decide⟩, 'b'], .int 1), (.text "a b", .int 2)]⟩
    (∃ bs, digits.toBytes Config.default (some "application/json") = .ok bs ∧
      ¬Rereads Config.default (some "application/json") bs digits) ∧
    (∃ bs, digits.toBytes Config.default (some "text/yaml") = .ok bs ∧
      ¬Rereads Config.default (some "text/yaml") bs digits) ∧
    ∃ bs, blanks.toBytes Config.default (some "text/yaml") = .ok bs ∧
      ¬Rereads Config.default (some "text/yaml") bs blanks := by
  intro digits blanks
  have hjson : digits.toBytes Config.default (some "application/json") =
      .ok [123, 34, 49, 34, 58, 32, 34, 97, 34, 44, 32, 34, 49, 34, 58, 32, 34, 98, 34, 125] := by decide +kernel
  have hyaml : digits.toBytes Config.default (some "text/yaml") =
      .ok [49, 58, 32, 97, 10, 39, 49, 39, 58, 32, 98, 10] := by decide +kernel
  have hblanks : blanks.toBytes Config.default (some "text/yaml") = .ok [63, 32, 39, 97, 194, 133, 32, 32, 98, 39, 10,
      58, 32, 49, 10, 97, 32, 98, 58, 32, 50, 10] := by decide +kernel
  have hrefused {stated : Option Text} {bs : List UInt8} {doc : DocPath.Document}
      (h : (ofPayload Config.default stated (.bytes bs)).2.isOk = false) : ¬Rereads Config.default stated bs doc := by
    rintro ⟨doc', hdoc, -⟩
    rw [hdoc] at h
    cases h
  exact ⟨⟨_, hjson, hrefused (by decide +kernel)⟩, ⟨_, hyaml, hrefused (by decide +kernel)⟩, _, hblanks,
    hrefused (by decide +kernel)⟩

end Document

end DocPath
