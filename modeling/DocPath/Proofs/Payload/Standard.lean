import DocPath.Proofs.Json.Standard
import DocPath.Proofs.Payload.Json

/-! Documents that are sent as JSON in UTF-8: which of them are sent in the standard grammar. -/

namespace DocPath.Payload

variable {style : Json.Style} {contentType : Text} {document : Value} {bs : List UInt8}

/-- What is sent as JSON is text in UTF-8, and a text of the standard exactly if every number that is a value in the
document, at whatever depth, is finite. -/
theorem encode_standard (hjson : ContentType.format? contentType = some .json)
    (hcharset : ContentType.charsetFor true contentType = .ok (.utf8 false))
    (h : encode style contentType document = .ok bs) :
    ∃ t, (Charset.utf8 false).decode bs = .ok t ∧ (Json.IsStandard t ↔ ∀ x ∈ document.floats, x.IsFinite) := by
  obtain ⟨format, t, charset, hformat, hwrite, hc, hencode⟩ := written_of_encode h
  obtain rfl := Except.ok.inj ((format_eq_ok hjson).symm.trans hformat)
  obtain rfl := Except.ok.inj (hcharset.symm.trans hc)
  refine ⟨t, Charset.decode_of_encode hencode, ?_⟩
  rw [Json.isStandard_write_iff (mapError_eq_ok hwrite), Value.floats_normalize]

/-- A number that is a name stands between quotation marks and need not be finite. -/
theorem encode_standard_name :
    let document : Value := .map false [(.text "a", .tuple [.float ⟨0x3FF8000000000000⟩]),
      (.float .notANumber, .bool true)]
    ContentType.format? "application/json" = some .json ∧
      ContentType.charsetFor true "application/json" = .ok (.utf8 false) ∧
      ∃ bs t, encode .compact "application/json" document = .ok bs ∧ (Charset.utf8 false).decode bs = .ok t ∧
        Json.IsStandard t := by
  intro document
  have hjson : ContentType.format? "application/json" = some .json := by decide +kernel
  have hcharset : ContentType.charsetFor true "application/json" = .ok (.utf8 false) := by decide +kernel
  have hfinite : ∀ x ∈ document.floats, x.IsFinite :=
    List.forall_mem_singleton.mpr ⟨false, 6755399441055744, -52, by decide +kernel⟩
  have hok : (encode .compact "application/json" document).isOk = true := by decide +kernel
  cases hencode : encode .compact "application/json" document with
  | error fault => rw [hencode] at hok; cases hok
  | ok bs =>
    obtain ⟨t, hdecode, hstandard⟩ := encode_standard hjson hcharset hencode
    exact ⟨hjson, hcharset, bs, t, rfl, hdecode, hstandard.mpr hfinite⟩

/-- NaN is a word in the text that is sent for it. -/
theorem not_standard_of_notANumber :
    let bs : List UInt8 := [123, 34, 97, 34, 58, 32, 78, 97, 78, 125]
    let t := Text.ofString "\x7b\"a\": NaN\x7d"
    encode .compact "application/json" (.map false [(.text "a", .float .notANumber)]) = .ok bs ∧
      (Charset.utf8 false).decode bs = .ok t ∧ ¬Json.IsStandard t := by
  intro bs t
  exact ⟨by decide +kernel, by decide +kernel, fun h => absurd h.native (by decide)⟩

end DocPath.Payload
