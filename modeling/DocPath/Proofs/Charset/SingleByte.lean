import DocPath.Charset.SingleByte
import DocPath.Proofs.Text
import Mathlib.Tactic.SplitIfs

/-! Reading back what was written in a character set of one byte per character. -/

namespace DocPath.Charset

lemma toNat_toUInt8 {n : Nat} (h : n < 256) : n.toUInt8.toNat = n :=
  UInt8.toNat_ofNat'.trans (Nat.mod_eq_of_lt h)

/-- A map of bytes that inverts one of code points reads back whatever was written. -/
theorem decodeBy_of_encodeBy {byte? : CodePoint → Option UInt8} {point? : UInt8 → Option CodePoint}
    (hinv : ∀ c b, byte? c = some b → point? b = some c) {name name' : Text}
    {why : EncodeReason} {why' : DecodeReason} {t : Text} {bs : List UInt8} {place : Nat}
    (place' : Nat) (h : encodeBy name why byte? place t = .ok bs) :
    decodeBy name' why' point? place' bs = .ok t := by
  induction t generalizing bs place place' with
  | nil =>
    obtain rfl := Except.ok.inj h
    rfl
  | cons c rest ih =>
    rw [encodeBy] at h
    cases hb : byte? c with
    | none => simp [hb] at h
    | some b =>
      rw [hb] at h
      cases hr : encodeBy name why byte? (place + 1) rest with
      | error fault => simp [hr, Except.map] at h
      | ok tail =>
        simp only [hr, Except.map, Except.ok.injEq] at h
        subst h
        simp only [decodeBy, hinv c b hb, ih (place' + 1) hr, Except.map]

lemma asciiPoint?_asciiByte? (c : CodePoint) (b : UInt8) (h : asciiByte? c = some b) :
    asciiPoint? b = some c := by
  unfold asciiByte? at h
  split_ifs at h with hc
  obtain rfl := Option.some.inj h
  have hn : c.val.toUInt8.toNat = c.val := toNat_toUInt8 (by omega)
  rw [asciiPoint?, hn, if_pos hc, CodePoint.ofNat_of_val]

lemma latinPoint?_latinByte? (c : CodePoint) (b : UInt8) (h : latinByte? c = some b) :
    latinPoint? b = some c := by
  unfold latinByte? at h
  split_ifs at h with hc
  obtain rfl := Option.some.inj h
  rw [latinPoint?, toNat_toUInt8 hc, CodePoint.ofNat_of_val]

lemma windowsPoint?_special :
    ∀ e ∈ windowsSpecials, windowsPoint? e.1.toUInt8 = some (CodePoint.ofNat e.2) := by
  decide +kernel

lemma windowsPoint?_windowsByte? (c : CodePoint) (b : UInt8) (h : windowsByte? c = some b) :
    windowsPoint? b = some c := by
  unfold windowsByte? at h
  split_ifs at h with hc
  · obtain rfl := Option.some.inj h
    simp only [Bool.or_eq_true, Bool.and_eq_true, decide_eq_true_eq] at hc
    have hn : c.val.toUInt8.toNat = c.val := toNat_toUInt8 (by omega)
    rw [windowsPoint?, hn, if_pos (by simp; omega), CodePoint.ofNat_of_val]
  · obtain ⟨e, he, rfl⟩ := Option.map_eq_some_iff.mp h
    have hval : e.2 = c.val := by simpa using List.find?_some he
    rw [windowsPoint?_special e (List.mem_of_find?_eq_some he), hval, CodePoint.ofNat_of_val]

end DocPath.Charset
