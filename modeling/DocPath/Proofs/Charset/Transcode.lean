import DocPath.Charset.Transcode
import DocPath.Proofs.Charset.Utf8
import DocPath.Proofs.Charset.Wide

/-! What a character set writes it reads back. -/

namespace DocPath.Charset

/-- Every character set reads back the texts that it writes. -/
theorem decode_of_encode {charset : Charset} {t : Text} {bs : List UInt8}
    (h : charset.encode t = .ok bs) : charset.decode bs = .ok t := by
  cases charset with
  | ascii => exact decodeBy_of_encodeBy asciiPoint?_asciiByte? 0 h
  | latin1 => exact decodeBy_of_encodeBy latinPoint?_latinByte? 0 h
  | windows1252 => exact decodeBy_of_encodeBy windowsPoint?_windowsByte? 0 h
  | utf16 order => exact Utf16.decode_of_encode h
  | utf32 order => exact Utf32.decode_of_encode h
  | utf8 signed =>
    cases signed with
    | false => exact Utf8.decodeFrom_of_encodeFrom h 0
    | true =>
      rw [encode] at h
      cases ht : Utf8.encodeFrom 0 t with
      | error fault => simp [ht, Except.map] at h
      | ok tail =>
        simp only [ht, Except.map, Except.ok.injEq] at h
        subst h
        exact Utf8.decodeFrom_of_encodeFrom ht 0

/-- Only the empty text is written without a byte. -/
theorem ne_nil_of_encode {charset : Charset} {t : Text} {bs : List UInt8}
    (h : charset.encode t = .ok bs) (ht : t ≠ []) : bs ≠ [] := by
  rintro rfl
  have hd := decode_of_encode h
  have hnil : charset.decode [] = .ok [] := by
    cases charset with
    | utf8 signed => cases signed <;> rfl
    | utf16 order => cases order <;> rfl
    | utf32 order => cases order <;> rfl
    | _ => rfl
  rw [hnil] at hd
  exact ht (Except.ok.inj hd).symm

/-- A name gives the same character set for reading and for writing. -/
theorem named_eq_ok {name : Text} {charset : Charset} {toBytes : Bool}
    (h : named toBytes name = .ok charset) (toBytes' : Bool) : named toBytes' name = .ok charset := by
  unfold named at h ⊢
  split_ifs at h ⊢ with hn
  dsimp only at h ⊢
  cases hf : names.find? fun e => e.2.any fun n => canonical false false name == Text.ofString n with
  | none =>
    rw [hf] at h
    dsimp only at h
    split_ifs at h
  | some e =>
    rw [hf] at h
    exact h

end DocPath.Charset
