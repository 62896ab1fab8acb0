import DocPath.Proofs.Charset.WellFormed
import DocPath.Proofs.Json.Keys
import DocPath.Proofs.Value.Normal

/-! Writing what was read: every value of JSON has a text, whose surrogates are those of the texts in the value. -/

namespace DocPath

namespace Value

mutual

/-- The texts in a value, keys among them. -/
def texts : Value → List Text
  | .text t => [t]
  | .list xs => textsAll xs
  | .tuple xs => textsAll xs
  | .sequence _ xs => textsAll xs
  | .map _ es => textsEntries es
  | .set _ xs => textsAll xs
  | .anchor _ v => texts v
  | _ => []

def textsAll : List Value → List Text
  | [] => []
  | v :: vs => texts v ++ textsAll vs

def textsEntries : List (Value × Value) → List Text
  | [] => []
  | (k, v) :: es => texts k ++ texts v ++ textsEntries es

end

lemma textsAll_eq (vs : List Value) : textsAll vs = vs.flatMap texts := by
  induction vs with
  | nil => rfl
  | cons v vs ih => rw [textsAll, ih, List.flatMap_cons]

lemma textsEntries_eq (es : List (Value × Value)) : textsEntries es = es.flatMap fun e => texts e.1 ++ texts e.2 := by
  induction es with
  | nil => rfl
  | cons e es ih => rw [textsEntries, ih, List.flatMap_cons]

end Value

namespace Json

open Charset.Utf8

section Signs

variable {t sep : Text} {c : CodePoint}

lemma wellFormed_escaped : WellFormed (escaped c) ↔ c.isSurrogate = false := by
  unfold escaped
  split_ifs with h1 h2 h3 h4 h5 h6 h7 h8
  · subst h1; decide
  · subst h2; decide
  · subst h3; decide
  · subst h4; decide
  · subst h5; decide
  · subst h6; decide
  · subst h7; decide
  · have hc : c.isSurrogate = false := by
      rw [CodePoint.isSurrogate, Bool.and_eq_false_iff, decide_eq_false_iff_not]
      exact .inl (by omega)
    have hdigits := wellFormed_hexDigits (Text.isHexDigit_hex 4 c.val)
    exact iff_of_true (wellFormed_cons.mpr ⟨by decide, wellFormed_cons.mpr ⟨by decide, hdigits⟩⟩) hc
  · rw [wellFormed_cons, and_iff_left wellFormed_nil]

lemma wellFormed_quote : WellFormed (quote t) ↔ WellFormed t := by
  have hmarks : WellFormed (Text.ofString "\"") := by decide
  have hbody : WellFormed (t.flatMap escaped) ↔ WellFormed t := by
    induction t with
    | nil => rfl
    | cons c t ih => rw [List.flatMap_cons, wellFormed_append, wellFormed_escaped, ih, wellFormed_cons]
  rw [quote, Text.concat]
  simp [hmarks, hbody]

lemma wellFormed_join (hsep : WellFormed sep) {ts : List Text} :
    WellFormed (Text.join sep ts) ↔ ∀ t ∈ ts, WellFormed t := by
  induction ts with
  | nil => simp [Text.join]
  | cons t ts ih =>
    cases ts with
    | nil => simp [Text.join]
    | cons u ts =>
      rw [Text.join, wellFormed_append, wellFormed_append, ih, List.forall_mem_cons (a := t), and_iff_left hsep]

lemma wellFormed_bracketed {style : Style} {level : Nat} {opening closing : CodePoint} {parts : List Text}
    (ho : opening.isSurrogate = false) (hc : closing.isSurrogate = false) :
    WellFormed (bracketed style level opening closing parts) ↔ ∀ t ∈ parts, WellFormed t := by
  have hline (n : Nat) : WellFormed (CodePoint.ofChar '\n' :: List.replicate (2 * n) (CodePoint.ofChar ' ')) :=
    wellFormed_cons.mpr ⟨by decide, wellFormed_replicate _ (by decide)⟩
  have hcomma (n : Nat) : WellFormed (CodePoint.ofChar ',' :: CodePoint.ofChar '\n' ::
      List.replicate (2 * n) (CodePoint.ofChar ' ')) := wellFormed_cons.mpr ⟨by decide, hline n⟩
  have hblank : WellFormed (Text.ofString ", ") := by decide
  cases parts with
  | nil => simp [bracketed, ho, hc]
  | cons t ts =>
    cases style with
    | compact => simp [bracketed, Text.concat, wellFormed_join hblank, ho, hc]
    | indented =>
      have hlead := wellFormed_cons.mp (hline (level + 1))
      have htrail := wellFormed_cons.mp (hline level)
      simp [bracketed, Text.concat, wellFormed_join (hcomma (level + 1)), ho, hc, hlead, htrail]

end Signs

/-- A value is written, and surrogates come up in its text only if they do in the texts in it. -/
def Writes (style : Style) (level : Nat) (v : Value) : Prop :=
  ∃ t, writeAt style level v = .ok t ∧ (WellFormed t ↔ ∀ u ∈ v.texts, WellFormed u)

section Containers

variable {style : Style} {level : Nat}

lemma writes_of_wellFormed {v : Value} {t : Text} (h : writeAt style level v = .ok t) (ht : WellFormed t)
    (hv : v.texts = []) : Writes style level v :=
  ⟨t, h, iff_of_true ht (by simp [hv])⟩

lemma writeItems_writes {vs : List Value} (h : ∀ v ∈ vs, Writes style level v) :
    ∃ ts, writeItems style level vs = .ok ts ∧ ((∀ t ∈ ts, WellFormed t) ↔ ∀ v ∈ vs, ∀ u ∈ v.texts, WellFormed u) := by
  induction vs with
  | nil => exact ⟨[], rfl, by simp⟩
  | cons v vs ih =>
    obtain ⟨⟨t, ht, hiff⟩, hvs⟩ := List.forall_mem_cons.mp h
    obtain ⟨ts, hts, hall⟩ := ih hvs
    refine ⟨t :: ts, ?_, ?_⟩
    · rw [writeItems, ht, hts]
      rfl
    · rw [List.forall_mem_cons, List.forall_mem_cons, hiff, hall]

lemma writeMembers_writes {es : List (Text × Value)} (h : ∀ e ∈ es, Writes style level e.2) :
    ∃ ts, writeMembers style level (es.map fun e => (.text e.1, e.2)) = .ok ts ∧
      ((∀ t ∈ ts, WellFormed t) ↔ ∀ e ∈ es, WellFormed e.1 ∧ ∀ u ∈ e.2.texts, WellFormed u) := by
  induction es with
  | nil => exact ⟨[], rfl, by simp⟩
  | cons e es ih =>
    obtain ⟨⟨t, ht, hiff⟩, hes⟩ := List.forall_mem_cons.mp h
    obtain ⟨ts, hts, hall⟩ := ih hes
    have hcolon : WellFormed (Text.ofString ": ") := by decide
    refine ⟨.concat [quote e.1, ": ", t] :: ts, ?_, ?_⟩
    · rw [List.map_cons, writeMembers, name, ht, hts]
      rfl
    · rw [List.forall_mem_cons, List.forall_mem_cons, hall]
      simp [Text.concat, wellFormed_quote, hcolon, hiff]

end Containers

/-- Every value of JSON is written. -/
theorem IsJson.writes {v : Value} (h : IsJson v) (style : Style) (level : Nat) : Writes style level v := by
  induction h generalizing level with
  | null => exact writes_of_wellFormed rfl (by decide) rfl
  | bool b =>
    refine writes_of_wellFormed rfl ?_ rfl
    cases b <;> decide
  | int i bounded =>
    obtain ⟨t, ht⟩ := Numeral.writeInteger_isOk_iff.mpr bounded
    refine writes_of_wellFormed ?_ (wellFormed_integer ht) rfl
    simp [writeAt, bare, ht, Except.mapError]
  | float x => exact writes_of_wellFormed rfl (wellFormed_layout (by decide) (by decide) rfl x) rfl
  | text t => exact ⟨quote t, rfl, by simp [wellFormed_quote, Value.texts]⟩
  | @array vs _ ih =>
    obtain ⟨ts, hts, hiff⟩ := @writeItems_writes style (level + 1) vs fun v hv => ih v hv _
    refine ⟨bracketed style level '[' ']' ts, ?_, ?_⟩
    · rw [writeAt, hts]
      rfl
    · rw [wellFormed_bracketed (by decide) (by decide), hiff, Value.texts, Value.textsAll_eq]
      rw [List.forall_mem_flatMap]
  | @object es _ _ ih =>
    obtain ⟨ts, hts, hiff⟩ := @writeMembers_writes style (level + 1) es fun e he => ih e he _
    refine ⟨bracketed style level '\x7b' '\x7d' ts, ?_, ?_⟩
    · rw [writeAt, hts]
      rfl
    · rw [wellFormed_bracketed (by decide) (by decide), hiff, Value.texts, Value.textsEntries_eq,
        List.forall_mem_flatMap, List.forall_mem_map]
      exact forall₂_congr fun e _ => List.forall_mem_cons.symm

lemma IsJson.normalize {v : Value} (h : IsJson v) : v.normalize = v := by
  induction h with
  | @array vs _ ih =>
    rw [Value.normalize, Value.normalizeAll_eq, List.map_congr_left ih, List.map_id']
  | @object es _ _ ih =>
    rw [Value.normalize, Value.normalizeEntries_eq, List.map_map]
    exact congrArg _ (List.map_congr_left fun e he => congrArg _ (ih e he))
  | _ => rfl

end Json

end DocPath
