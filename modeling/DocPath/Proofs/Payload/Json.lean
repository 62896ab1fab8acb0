import DocPath.Payload
import DocPath.Proofs.Charset.Transcode
import DocPath.Proofs.Json.RoundTrip

/-! Documents that are sent and received as JSON. -/

namespace DocPath.Payload

lemma format_eq_ok {contentType : Text} {format : ContentType.Format} (h : ContentType.format? contentType = some format) :
    ContentType.format contentType = .ok format := by
  rw [ContentType.format, h]

/-- What an encoded document went through: its normal form was written as a text of the format, and the text was
encoded in the character set. -/
lemma written_of_encode {style : Json.Style} {contentType : Text} {document : Value} {bs : List UInt8}
    (h : encode style contentType document = .ok bs) :
    ∃ format t charset, ContentType.format contentType = .ok format ∧
      writeText format style document.normalize = .ok t ∧
      ContentType.charsetFor true contentType = .ok charset ∧ charset.encode t = .ok bs := by
  obtain ⟨format, hformat, h⟩ := bind_eq_ok h
  rw [Value.normal?] at h
  split_ifs at h
  obtain ⟨t, ht, h⟩ := bind_eq_ok h
  obtain ⟨charset, hcharset, h⟩ := bind_eq_ok h
  exact ⟨format, t, charset, hformat, ht, hcharset, mapError_eq_ok h⟩

lemma charsetFor_eq_ok {contentType : Text} {charset : Charset} {toBytes : Bool}
    (h : ContentType.charsetFor toBytes contentType = .ok charset) (toBytes' : Bool) :
    ContentType.charsetFor toBytes' contentType = .ok charset := by
  rw [ContentType.charsetFor, Charset.named_eq_ok (mapError_eq_ok h) toBytes']
  rfl

/-- The bytes of an encoded document are decoded to what is read from its text. -/
theorem decode_of_encode {style : Json.Style} {contentType : Text} {document : Value}
    {bs : List UInt8} (h : encode style contentType document = .ok bs) :
    ∃ format t, ContentType.format contentType = .ok format ∧
      writeText format style document.normalize = .ok t ∧
      (t ≠ [] → decode contentType (.bytes bs) = readText format t) := by
  obtain ⟨format, t, charset, hformat, ht, hcharset, hencode⟩ := written_of_encode h
  refine ⟨format, t, hformat, ht, fun hne => ?_⟩
  have hread := charsetFor_eq_ok hcharset false
  have hbytes : bs.isEmpty = false := by simpa using Charset.ne_nil_of_encode hencode hne
  simp [decode, hformat, toText, hread, hbytes, Charset.decode_of_encode hencode, bind, Except.bind, Except.mapError]

/-- A document goes through JSON unharmed: what was encoded is decoded to the document in normal form, entry
by entry in the same order. -/
theorem decode_encode_json {style : Json.Style} {contentType : Text} {document : Value}
    {bs : List UInt8} (hjson : ContentType.format? contentType = some .json)
    (hkeys : document.TextKeyed) (hnan : ∀ x ∈ document.floats, x.isNaN = false)
    (hfloats : ∀ x ∈ document.floats,
      Numeral.readFloat (x.layout Binary64.plainLayout) = .ok x)
    (h : encode style contentType document = .ok bs) :
    decode contentType (.bytes bs) = .ok document.normalize.withoutAnchors := by
  obtain ⟨format, t, hf, ht, hd⟩ := decode_of_encode h
  obtain rfl : ContentType.Format.json = format := by
    simpa [ContentType.format, hjson] using hf
  have hw : Json.write style document.normalize = .ok t := by
    cases hw : Json.write style document.normalize with
    | error fault => simp [writeText, hw, Except.mapError] at ht
    | ok u => simpa [writeText, hw, Except.mapError] using ht
  have hfaithful : ∀ x ∈ document.floats, Json.Faithful x := fun x hx => ⟨hnan x hx, hfloats x hx⟩
  rw [hd (Json.ne_nil_of_write hw), readText, Json.read_write hw, Json.heard_normalize document hkeys hfaithful]
  rfl

/-- A tuple with the number 1.5, a text of Latin-1 and an empty mapping, sent on one line. -/
theorem decode_encode_json_tuple :
    decode "application/json; charset=Latin-1" (.bytes [123, 34, 107, 34, 58, 32, 91, 49, 46, 53, 44,
      32, 34, 233, 34, 44, 32, 123, 125, 93, 125]) =
      .ok (.map false [(.text "k", .list [.float ⟨0x3FF8000000000000⟩, .text [⟨233, by decide⟩],
        .map false []])]) := by
  have hread : ∀ x ∈ [(⟨0x3FF8000000000000⟩ : Binary64)],
      Numeral.readFloat (x.layout Binary64.plainLayout) = .ok x := by
    decide +kernel
  have hencode : encode .compact "application/json; charset=Latin-1" (.map true [(.text "k", .tuple
      [.float ⟨0x3FF8000000000000⟩, .text [⟨233, by decide⟩], .map true []])]) =
      .ok [123, 34, 107, 34, 58, 32, 91, 49, 46, 53, 44, 32, 34, 233, 34, 44, 32, 123, 125, 93, 125] := by
    decide +kernel
  refine decode_encode_json ?_ ?_ ?_ ?_ hencode
  · decide +kernel
  · simp [Value.TextKeyed, Value.TextKeyedAll, Value.TextKeyedEntries]
  · decide +kernel
  · exact hread

end DocPath.Payload
