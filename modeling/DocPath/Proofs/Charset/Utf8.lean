import DocPath.Charset.Utf8
import DocPath.Proofs.Charset.SingleByte

/-! Reading back what was written in UTF-8. -/

namespace DocPath.Charset.Utf8

lemma lead?_one {b : Nat} (h : b < 0x80) : lead? b = some ⟨0, 0x80, 0xBF⟩ := if_pos h

lemma lead?_two {b : Nat} (h : 0xC2 ≤ b) (h' : b < 0xE0) : lead? b = some ⟨1, 0x80, 0xBF⟩ := by
  rw [lead?, if_neg (by omega), if_neg (by omega), if_pos h']

lemma lead?_three {b : Nat} (h : 0xE0 ≤ b) (h' : b < 0xF0) :
    lead? b = some ⟨2, if b = 0xE0 then 0xA0 else 0x80, if b = 0xED then 0x9F else 0xBF⟩ := by
  rw [lead?, if_neg (by omega), if_neg (by omega), if_neg (by omega), if_pos h']

lemma lead?_four {b : Nat} (h : 0xF0 ≤ b) (h' : b < 0xF5) :
    lead? b = some ⟨3, if b = 0xF0 then 0x90 else 0x80, if b = 0xF4 then 0x8F else 0xBF⟩ := by
  rw [lead?, if_neg (by omega), if_neg (by omega), if_neg (by omega), if_neg (by omega), if_pos h']

lemma toNat_tail (n : Nat) : (0x80 + n % 64).toUInt8.toNat = 0x80 + n % 64 :=
  toNat_toUInt8 (by omega)

lemma isTail_toUInt8 (n : Nat) : isTail (0x80 + n % 64).toUInt8 = true := by
  rw [isTail, toNat_tail, Bool.and_eq_true, decide_eq_true_eq, decide_eq_true_eq]
  omega

section Read

variable {a b c d : UInt8} {low high : Nat} {rest : List UInt8} {t : Text}

lemma decodeFrom_one (ha : lead? a.toNat = some ⟨0, low, high⟩)
    (hrest : ∀ place, decodeFrom place rest = .ok t) (place : Nat) :
    decodeFrom place (a :: rest) = .ok (point 0 a [] :: t) := by
  rw [decodeFrom, ha]
  simp only [hrest, Except.map]

lemma decodeFrom_two (ha : lead? a.toNat = some ⟨1, low, high⟩) (hb : low ≤ b.toNat)
    (hb' : b.toNat ≤ high) (hrest : ∀ place, decodeFrom place rest = .ok t) (place : Nat) :
    decodeFrom place (a :: b :: rest) = .ok (point 1 a [b] :: t) := by
  rw [decodeFrom, ha]
  simp [hrest, Except.map, Nat.not_lt.mpr hb, Nat.not_lt.mpr hb']

lemma decodeFrom_three (ha : lead? a.toNat = some ⟨2, low, high⟩) (hb : low ≤ b.toNat)
    (hb' : b.toNat ≤ high) (hc : isTail c = true)
    (hrest : ∀ place, decodeFrom place rest = .ok t) (place : Nat) :
    decodeFrom place (a :: b :: c :: rest) = .ok (point 2 a [b, c] :: t) := by
  rw [decodeFrom, ha]
  simp [hrest, hc, Except.map, Nat.not_lt.mpr hb, Nat.not_lt.mpr hb']

lemma decodeFrom_four (ha : lead? a.toNat = some ⟨3, low, high⟩) (hb : low ≤ b.toNat)
    (hb' : b.toNat ≤ high) (hc : isTail c = true) (hd : isTail d = true)
    (hrest : ∀ place, decodeFrom place rest = .ok t) (place : Nat) :
    decodeFrom place (a :: b :: c :: d :: rest) = .ok (point 3 a [b, c, d] :: t) := by
  rw [decodeFrom, ha]
  simp [hrest, hc, hd, Except.map, Nat.not_lt.mpr hb, Nat.not_lt.mpr hb']

end Read

lemma ofNat_eq {n : Nat} {c : CodePoint} (h : n = c.val) : CodePoint.ofNat n = c := by
  rw [h, CodePoint.ofNat_of_val]

/-- The bytes of a code point in front of bytes that are read give the code point in front of their
text. -/
theorem decodeFrom_bytes {c : CodePoint} (hc : c.isSurrogate = false) {rest : List UInt8} {t : Text}
    (hrest : ∀ place, decodeFrom place rest = .ok t) (place : Nat) :
    decodeFrom place (bytes c ++ rest) = .ok (c :: t) := by
  have hlt := c.isLt
  have hs : ¬(0xD800 ≤ c.val ∧ c.val ≤ 0xDFFF) := by
    intro h
    simp [CodePoint.isSurrogate, h.1, h.2] at hc
  unfold bytes
  dsimp only
  -- one case for each number of bytes
  split_ifs with h1 h2 h3
  · have ha : c.val.toUInt8.toNat = c.val := toNat_toUInt8 (by omega)
    have hp : point 0 c.val.toUInt8 [] = c := ofNat_eq ha
    have hl := lead?_one h1
    rw [← ha] at hl
    rw [List.singleton_append, decodeFrom_one hl hrest, hp]
  · have ha : (0xC0 + c.val / 64).toUInt8.toNat = 0xC0 + c.val / 64 := toNat_toUInt8 (by omega)
    have hb := toNat_tail c.val
    have hp : point 1 (0xC0 + c.val / 64).toUInt8 [(0x80 + c.val % 64).toUInt8] = c := by
      refine ofNat_eq ?_
      simp only [ha, hb, List.foldl_cons, List.foldl_nil, Nat.reduceEqDiff, reduceIte]
      omega
    have hl := lead?_two (b := 0xC0 + c.val / 64) (by omega) (by omega)
    rw [← ha] at hl
    rw [List.cons_append, List.singleton_append,
      decodeFrom_two hl (by omega) (by omega) hrest, hp]
  · have ha : (0xE0 + c.val / 4096).toUInt8.toNat = 0xE0 + c.val / 4096 := toNat_toUInt8 (by omega)
    have hb := toNat_tail (c.val / 64)
    have hd := toNat_tail c.val
    have hp : point 2 (0xE0 + c.val / 4096).toUInt8
        [(0x80 + c.val / 64 % 64).toUInt8, (0x80 + c.val % 64).toUInt8] = c := by
      refine ofNat_eq ?_
      simp only [ha, hb, hd, List.foldl_cons, List.foldl_nil, Nat.reduceEqDiff, reduceIte]
      omega
    have hl := lead?_three (b := 0xE0 + c.val / 4096) (by omega) (by omega)
    rw [← ha] at hl
    rw [List.cons_append, List.cons_append, List.singleton_append,
      decodeFrom_three hl (by split_ifs <;> omega) (by split_ifs <;> omega) (isTail_toUInt8 _) hrest,
      hp]
  · have ha : (0xF0 + c.val / 262144).toUInt8.toNat = 0xF0 + c.val / 262144 :=
      toNat_toUInt8 (by omega)
    have hb := toNat_tail (c.val / 4096)
    have hd := toNat_tail (c.val / 64)
    have he := toNat_tail c.val
    have hp : point 3 (0xF0 + c.val / 262144).toUInt8 [(0x80 + c.val / 4096 % 64).toUInt8,
        (0x80 + c.val / 64 % 64).toUInt8, (0x80 + c.val % 64).toUInt8] = c := by
      refine ofNat_eq ?_
      simp only [ha, hb, hd, he, List.foldl_cons, List.foldl_nil, Nat.reduceEqDiff, reduceIte]
      omega
    have hl := lead?_four (b := 0xF0 + c.val / 262144) (by omega) (by omega)
    rw [← ha] at hl
    rw [List.cons_append, List.cons_append, List.cons_append, List.singleton_append,
      decodeFrom_four hl (by split_ifs <;> omega) (by split_ifs <;> omega) (isTail_toUInt8 _)
        (isTail_toUInt8 _) hrest, hp]

theorem decodeFrom_of_encodeFrom {t : Text} {bs : List UInt8} {place : Nat}
    (h : encodeFrom place t = .ok bs) (place' : Nat) : decodeFrom place' bs = .ok t := by
  induction t generalizing bs place place' with
  | nil =>
    obtain rfl := Except.ok.inj h
    rfl
  | cons c rest ih =>
    rw [encodeFrom] at h
    split_ifs at h with hc
    cases hr : encodeFrom (place + 1) rest with
    | error fault => simp [hr, Except.map] at h
    | ok tail =>
      simp only [hr, Except.map, Except.ok.injEq] at h
      subst h
      exact decodeFrom_bytes (by simpa using hc) (ih hr) place'

end DocPath.Charset.Utf8
