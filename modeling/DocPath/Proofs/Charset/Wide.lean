import DocPath.Charset.Wide
import DocPath.Proofs.Charset.SingleByte

/-! Reading back what was written in UTF-16 and UTF-32. -/

namespace DocPath.Charset

lemma isSurrogate_eq_false_iff {c : CodePoint} :
    c.isSurrogate = false ↔ ¬(0xD800 ≤ c.val ∧ c.val ≤ 0xDFFF) := by
  rw [CodePoint.isSurrogate, ← Bool.not_eq_true, Bool.and_eq_true, decide_eq_true_eq,
    decide_eq_true_eq]

namespace Utf16

lemma unitBytes_eq (order : ByteOrder) (n : Nat) : ∃ a b, unitBytes order n = [a, b] := by
  cases order with
  | little => exact ⟨_, _, rfl⟩
  | big => exact ⟨_, _, rfl⟩

lemma unit_of_unitBytes {order : ByteOrder} {n : Nat} (h : n < 0x10000) {a b : UInt8}
    (hb : unitBytes order n = [a, b]) : unit order a b = n := by
  have hlow : (n % 256).toUInt8.toNat = n % 256 := toNat_toUInt8 (Nat.mod_lt _ (by decide))
  have hhigh : (n / 256).toUInt8.toNat = n / 256 := toNat_toUInt8 (by omega)
  cases order with
  | little =>
    obtain ⟨rfl, rfl⟩ : (n % 256).toUInt8 = a ∧ (n / 256).toUInt8 = b := by simpa [unitBytes] using hb
    simp only [unit, hlow, hhigh]
    omega
  | big =>
    obtain ⟨rfl, rfl⟩ : (n / 256).toUInt8 = a ∧ (n % 256).toUInt8 = b := by simpa [unitBytes] using hb
    simp only [unit, hlow, hhigh]
    omega

lemma isHigh_iff {n : Nat} : isHigh n = true ↔ 0xD800 ≤ n ∧ n ≤ 0xDBFF := by
  rw [isHigh, Bool.and_eq_true, decide_eq_true_eq, decide_eq_true_eq]

lemma isLow_iff {n : Nat} : isLow n = true ↔ 0xDC00 ≤ n ∧ n ≤ 0xDFFF := by
  rw [isLow, Bool.and_eq_true, decide_eq_true_eq, decide_eq_true_eq]

/-- The units of a code point in front of bytes that are read give the code point in front of their
text. -/
theorem decodeFrom_pointBytes {order : ByteOrder} {c : CodePoint} (hc : c.isSurrogate = false)
    {rest : List UInt8} {t : Text} (hrest : ∀ place, decodeFrom order place rest = .ok t)
    (place : Nat) : decodeFrom order place (pointBytes order c ++ rest) = .ok (c :: t) := by
  have hs := isSurrogate_eq_false_iff.mp hc
  have hlt := c.isLt
  unfold pointBytes
  split_ifs with h
  · obtain ⟨a, b, hab⟩ := unitBytes_eq order c.val
    have hu := unit_of_unitBytes h hab
    rw [hab, List.cons_append, List.singleton_append, decodeFrom.eq_def]
    dsimp only
    rw [hu, if_neg (by rw [isHigh_iff]; omega), if_neg (by rw [isLow_iff]; omega), hrest,
      Except.map, CodePoint.ofNat_of_val]
  · obtain ⟨a, b, hab⟩ := unitBytes_eq order (0xD800 + (c.val - 0x10000) / 0x400)
    obtain ⟨d, e, hde⟩ := unitBytes_eq order (0xDC00 + (c.val - 0x10000) % 0x400)
    have hhigh := unit_of_unitBytes (by omega) hab
    have hlow := unit_of_unitBytes (by omega) hde
    dsimp only
    rw [hab, hde, List.append_assoc, List.cons_append, List.cons_append, List.nil_append,
      List.cons_append, List.cons_append, List.nil_append, decodeFrom.eq_def]
    dsimp only
    rw [hhigh, if_pos (by rw [isHigh_iff]; omega), hlow, if_pos (by rw [isLow_iff]; omega), hrest,
      Except.map]
    have hj : joined (0xD800 + (c.val - 0x10000) / 0x400) (0xDC00 + (c.val - 0x10000) % 0x400) = c := by
      rw [joined, show 0x10000 + (0xD800 + (c.val - 0x10000) / 0x400 - 0xD800) * 0x400 +
        (0xDC00 + (c.val - 0x10000) % 0x400 - 0xDC00) = c.val by omega, CodePoint.ofNat_of_val]
    rw [hj]

theorem decodeFrom_of_encodeFrom {name : Text} {order : ByteOrder} {t : Text} {bs : List UInt8}
    {place : Nat} (h : encodeFrom name order place t = .ok bs) (place' : Nat) :
    decodeFrom order place' bs = .ok t := by
  induction t generalizing bs place place' with
  | nil =>
    obtain rfl := Except.ok.inj h
    rfl
  | cons c rest ih =>
    rw [encodeFrom] at h
    split_ifs at h with hc
    cases hr : encodeFrom name order (place + 1) rest with
    | error fault => simp [hr, Except.map] at h
    | ok tail =>
      simp only [hr, Except.map, Except.ok.injEq] at h
      subst h
      exact decodeFrom_pointBytes (by simpa using hc) (ih hr) place'

lemma decode_mark (bs : List UInt8) :
    decode none (unitBytes .little 0xFEFF ++ bs) = decodeFrom .little 2 bs := by
  have hm : unitBytes .little 0xFEFF = [0xFF, 0xFE] := by decide
  rw [hm, List.cons_append, List.singleton_append, decode, if_pos (by decide)]

theorem decode_of_encode {order : Option ByteOrder} {t : Text} {bs : List UInt8}
    (h : encode order t = .ok bs) : decode order bs = .ok t := by
  cases order with
  | some o => exact decodeFrom_of_encodeFrom h 0
  | none =>
    rw [encode] at h
    cases ht : encodeFrom (charset none) .little 0 t with
    | error fault => simp [ht, Except.map] at h
    | ok tail =>
      simp only [ht, Except.map, Except.ok.injEq] at h
      rw [← h, decode_mark]
      exact decodeFrom_of_encodeFrom ht 2

end Utf16

namespace Utf32

lemma unitBytes_eq (order : ByteOrder) (n : Nat) :
    ∃ a b c d, unitBytes order n = [a, b, c, d] := by
  cases order with
  | little => exact ⟨_, _, _, _, rfl⟩
  | big => exact ⟨_, _, _, _, rfl⟩

lemma unit_of_unitBytes {order : ByteOrder} {n : Nat} (h : n < 0x110000) {a b c d : UInt8}
    (hb : unitBytes order n = [a, b, c, d]) : unit order a b c d = n := by
  have h0 : (n % 256).toUInt8.toNat = n % 256 := toNat_toUInt8 (Nat.mod_lt _ (by decide))
  have h1 : (n / 256 % 256).toUInt8.toNat = n / 256 % 256 :=
    toNat_toUInt8 (Nat.mod_lt _ (by decide))
  have h2 : (n / 65536 % 256).toUInt8.toNat = n / 65536 % 256 :=
    toNat_toUInt8 (Nat.mod_lt _ (by decide))
  have h3 : (n / 16777216).toUInt8.toNat = n / 16777216 := toNat_toUInt8 (by omega)
  cases order with
  | little =>
    simp only [unitBytes, List.cons.injEq, and_true] at hb
    obtain ⟨rfl, rfl, rfl, rfl⟩ := hb
    simp only [unit, h0, h1, h2, h3]
    omega
  | big =>
    simp only [unitBytes, List.reverse_cons, List.reverse_nil, List.nil_append, List.cons_append,
      List.cons.injEq, and_true] at hb
    obtain ⟨rfl, rfl, rfl, rfl⟩ := hb
    simp only [unit, h0, h1, h2, h3]
    omega

theorem decodeFrom_unitBytes {order : ByteOrder} {c : CodePoint} (hc : c.isSurrogate = false)
    {rest : List UInt8} {t : Text} (hrest : ∀ place, decodeFrom order place rest = .ok t)
    (place : Nat) : decodeFrom order place (unitBytes order c.val ++ rest) = .ok (c :: t) := by
  have hlt := c.isLt
  obtain ⟨a, b, d, e, hu⟩ := unitBytes_eq order c.val
  rw [hu, List.cons_append, List.cons_append, List.cons_append, List.singleton_append, decodeFrom,
    unit_of_unitBytes hlt hu, if_neg (by omega), CodePoint.ofNat_of_val, hc, if_neg (by decide), hrest, Except.map]

theorem decodeFrom_of_encodeFrom {name : Text} {order : ByteOrder} {t : Text} {bs : List UInt8}
    {place : Nat} (h : encodeFrom name order place t = .ok bs) (place' : Nat) :
    decodeFrom order place' bs = .ok t := by
  induction t generalizing bs place place' with
  | nil =>
    obtain rfl := Except.ok.inj h
    rfl
  | cons c rest ih =>
    rw [encodeFrom] at h
    split_ifs at h with hc
    cases hr : encodeFrom name order (place + 1) rest with
    | error fault => simp [hr, Except.map] at h
    | ok tail =>
      simp only [hr, Except.map, Except.ok.injEq] at h
      subst h
      exact decodeFrom_unitBytes (by simpa using hc) (ih hr) place'

lemma decode_mark (bs : List UInt8) :
    decode none (unitBytes .little 0xFEFF ++ bs) = decodeFrom .little 4 bs := by
  have hm : unitBytes .little 0xFEFF = [0xFF, 0xFE, 0, 0] := by decide
  rw [hm, List.cons_append, List.cons_append, List.cons_append, List.singleton_append, decode,
    if_pos (by decide)]

theorem decode_of_encode {order : Option ByteOrder} {t : Text} {bs : List UInt8}
    (h : encode order t = .ok bs) : decode order bs = .ok t := by
  cases order with
  | some o => exact decodeFrom_of_encodeFrom h 0
  | none =>
    rw [encode] at h
    cases ht : encodeFrom (charset none) .little 0 t with
    | error fault => simp [ht, Except.map] at h
    | ok tail =>
      simp only [ht, Except.map, Except.ok.injEq] at h
      rw [← h, decode_mark]
      exact decodeFrom_of_encodeFrom ht 4

end Utf32

end DocPath.Charset
