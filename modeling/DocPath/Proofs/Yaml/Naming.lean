import DocPath.Proofs.Text
import DocPath.Proofs.Value.Plain
import DocPath.Yaml.Meaning
import Mathlib.Algebra.Ring.Nat
import Mathlib.Tactic.Lemma
import Mathlib.Tactic.SplitIfs

/-! What scalars mean, and what is wrong with texts that do not suit their tag. What a scalar means has no links to other
parts, so that its name does not depend on what else is known. -/

namespace DocPath

/-- A value without parts that could be linked. -/
def Value.IsUnlinked : Value → Prop
  | .null | .scalar _ => True
  | .anchor _ v => IsUnlinked v
  | _ => False

namespace Value.IsUnlinked

variable {v : Value}

lemma substitute (h : v.IsUnlinked) (f : Nat → Value) : v.substitute f = v := by
  induction v using Value.IsUnlinked.induct with
  | case1 => rfl
  | case2 s => rfl
  | case3 l v ih => rw [Value.substitute, ih h]
  | case4 v => exact absurd h (by simp [IsUnlinked])

lemma unfold (h : v.IsUnlinked) (contents : List (Nat × Value)) : v.unfold contents = v := h.substitute _

lemma textKeyed (h : v.IsUnlinked) : v.TextKeyed := by
  induction v using Value.IsUnlinked.induct with
  | case1 => trivial
  | case2 s => trivial
  | case3 l v ih => exact ih h
  | case4 v => exact absurd h (by simp [IsUnlinked])

end Value.IsUnlinked

namespace Yaml

/-- Whether a fault is about a key that is there twice. -/
def Fault.isRepetition : Fault → Bool
  | .duplicateKey .. => true
  | _ => false

/-- Whether a fault is about a place. -/
def Fault.isMarked : Fault → Bool
  | .marked .. => true
  | _ => false

/-- A text is a date, or a date with a time. -/
def Scalar.IsTime (t : Text) : Prop :=
  ∃ date rest, Plain.date? (Plain.dropFinalBreak t) = some (date, rest) ∧ (rest = [] ∨ (Plain.clock? rest).isSome = true)

/-- A tag does not suit a text. -/
inductive Misread : Text → Text → Fault → Prop
  /-- No word for a truth value. -/
  | boolean {t : Text} (true' : Text.lower t ∉ Plain.trueWords) (false' : Text.lower t ∉ Plain.falseWords) :
      Misread Tag.boolean t (.notABoolean (Text.lower t))
  | time {t : Text} (time : ¬Scalar.IsTime t) : Misread Tag.timestamp t .notATime
  /-- Nothing behind the sign. -/
  | integer {t : Text} (unsigned : (Numeral.splitSign (Scalar.ungrouped t)).2 = []) : Misread Tag.integer t .emptyNumber
  | float {t : Text} (empty : Text.lower (Scalar.ungrouped t) = []) : Misread Tag.float t .emptyNumber
  /-- More places in base 60 than a floating-point number has room for. -/
  | places {t : Text} (many : 174 ≤ (Text.lower (Scalar.ungrouped t)).count (CodePoint.ofChar ':')) :
      Misread Tag.float t .tooManyPlaces

/-- What can be wrong with a node and the text that is found for it. -/
inductive ScalarFault (n : Node) (tag t : Text) : Fault → Prop
  | marked {fault : Fault} (h : fault.isMarked = true) : ScalarFault n tag t fault
  | number (fault : NumeralFault) : ScalarFault n tag t (.number fault)
  | time (fault : TimeFault) : ScalarFault n tag t (.time fault)
  | misread {fault : Fault} (h : Misread tag t fault) : ScalarFault n tag t fault
  /-- A mapping is no time, whatever text it has. -/
  | timeWithoutText (htag : tag = Tag.timestamp) (hkind : n.kind = .mapping) : ScalarFault n tag t .timeWithoutText

section Scalars

variable {n : Node} {tag t : Text} {fault : Fault}

lemma Misread.ne_string (h : Misread tag t fault) : tag ≠ Tag.string := by
  cases h <;> decide

lemma ScalarFault.isRepetition (h : ScalarFault n tag t fault) : fault.isRepetition = false := by
  cases h with
  | marked h =>
    cases fault with
    | marked => rfl
    | _ => cases h
  | misread h => cases h <;> rfl
  | _ => rfl

lemma settles_numeral (base : Nat) (t' : Text) :
    Settles (ScalarFault n tag t) (fun _ => True) (Scalar.numeral base t') :=
  .mapError .number

lemma settles_number (t' : Text) : Settles (ScalarFault n tag t) (fun _ => True) (Scalar.number t') := .mapError .number

lemma settles_signed (t : Text) :
    Settles (fun fault => t = [] ∧ fault = .emptyNumber) (· = Numeral.splitSign t) (Scalar.signed t) := by
  rw [Scalar.signed]
  split_ifs with hempty
  · exact ⟨List.isEmpty_iff.mp hempty, rfl⟩
  · exact rfl

lemma settles_boolean : Settles (ScalarFault n Tag.boolean t) Value.IsUnlinked (Scalar.boolean t) := by
  rw [Scalar.boolean]
  split_ifs with htrue hfalse
  · trivial
  · trivial
  · exact .misread
      (.boolean (fun h => htrue (List.contains_iff_mem.mpr h)) fun h => hfalse (List.contains_iff_mem.mpr h))

lemma settles_unsignedInteger (n : Node) (tag t : Text) {t' : Text} :
    Settles (fun fault => ScalarFault n tag t fault ∨ t' = [] ∧ fault = .emptyNumber) (fun _ => True)
      (Scalar.unsignedInteger t') := by
  have hnumeral (base : Nat) (u : Text) :
      Settles (fun fault => ScalarFault n tag t fault ∨ t' = [] ∧ fault = .emptyNumber) (fun _ => True)
        (Scalar.numeral base u) :=
    (settles_numeral base u).expect fun _ => .inl
  rw [Scalar.unsignedInteger]
  split_ifs with _ _ _ hempty
  · trivial
  · exact hnumeral _ _
  · exact hnumeral _ _
  · exact .inr ⟨List.isEmpty_iff.mp hempty, rfl⟩
  · exact hnumeral _ _
  · exact (Settles.mapM (hnumeral 10) _).bind fun _ _ => trivial
  · exact hnumeral _ _

lemma settles_integer : Settles (ScalarFault n Tag.integer t) Value.IsUnlinked (Scalar.integer t) := by
  refine ((settles_signed _).expect ?_).bind ?_
  · rintro fault ⟨hempty, rfl⟩
    exact .misread (.integer (by rw [hempty]; rfl))
  · rintro p rfl
    refine ((settles_unsignedInteger n Tag.integer t).expect fun fault => ?_).bind fun _ _ => trivial
    rintro (hfault | ⟨hempty, rfl⟩)
    · exact hfault
    · exact .misread (.integer hempty)

lemma ofInt_pow_ne {k : Nat} (hk : k < 174) : Binary64.ofInt ((60 ^ k : Nat) : Int) ≠ Binary64.infinity false := by
  revert k
  decide +kernel

lemma settles_sumSixties (places : Nat) {sum : Binary64} {ds : List Binary64} :
    Settles (fun fault => fault = .tooManyPlaces ∧ 174 < places + ds.length) (fun _ => True)
      (Scalar.sumSixties (60 ^ places) sum ds) := by
  induction ds generalizing places sum with
  | nil => trivial
  | cons d ds ih =>
    rw [Scalar.sumSixties, List.length_cons]
    split_ifs with hweight
    · have hplaces : 174 ≤ places := not_lt.mp fun hlt => ofInt_pow_ne hlt hweight
      exact ⟨rfl, by omega⟩
    · rw [← Nat.pow_succ]
      refine (ih (places + 1)).expect fun fault h => ⟨h.1, ?_⟩
      have hmany := h.2
      omega

lemma count_splitSign (t : Text) (c : CodePoint) : (Numeral.splitSign t).2.count c ≤ t.count c := by
  cases t with
  | nil => exact le_rfl
  | cons d rest =>
    rw [Numeral.splitSign]
    split_ifs
    · exact List.count_le_count_cons
    · exact List.count_le_count_cons
    · exact le_rfl

lemma settles_unsignedFloat (n : Node) (tag t : Text) {t' : Text} :
    Settles (fun fault => ScalarFault n tag t fault ∨
      fault = .tooManyPlaces ∧ 174 ≤ t'.count (CodePoint.ofChar ':')) (fun _ => True) (Scalar.unsignedFloat t') := by
  rw [Scalar.unsignedFloat]
  split_ifs
  · trivial
  · trivial
  · refine (((Settles.mapM settles_number _).expect fun _ => .inl).bind fun ds hds => ?_)
    refine (settles_sumSixties 0).expect fun fault h => .inr ⟨h.1, ?_⟩
    have hmany := h.2
    rw [List.length_reverse, hds, Text.length_splitOn] at hmany
    omega
  · exact (settles_number _).expect fun _ => .inl

lemma settles_float : Settles (ScalarFault n Tag.float t) Value.IsUnlinked (Scalar.float t) := by
  refine ((settles_signed _).expect ?_).bind ?_
  · rintro fault ⟨hempty, rfl⟩
    exact .misread (.float hempty)
  · rintro p rfl
    refine ((settles_unsignedFloat n Tag.float t).expect fun fault => ?_).bind fun _ _ => trivial
    rintro (hfault | ⟨rfl, hmany⟩)
    · exact hfault
    · exact .misread (.places (le_trans hmany (count_splitSign _ _)))

lemma settles_bytes (start : Mark) : Settles (ScalarFault n tag t) Value.IsUnlinked (Scalar.bytes start t) := by
  rw [Scalar.bytes]
  split
  · exact .marked rfl
  · split
    · exact .marked rfl
    · trivial

lemma settles_timestamp : Settles (ScalarFault n Tag.timestamp t) Value.IsUnlinked (Scalar.timestamp t) := by
  rw [Scalar.timestamp]
  split
  · next hdate =>
    refine .misread (.time ?_)
    rintro ⟨date, rest, h, -⟩
    rw [hdate] at h
    cases h
  · next year month day rest hdate =>
    split_ifs with hempty
    · split
      · exact .time _
      · trivial
    · split
      · next hclock =>
        refine .misread (.time ?_)
        rintro ⟨date, rest', h, hrest⟩
        rw [hdate] at h
        cases h
        rcases hrest with rfl | hsome
        · exact hempty rfl
        · rw [hclock] at hsome
          cases hsome
      · split
        · exact .time _
        · trivial

/-- A text with a tag means something without links, or it is known what is wrong with it. -/
theorem settles_scalarOf (n : Node) (tag t : Text) :
    Settles (ScalarFault n tag t) Value.IsUnlinked (Make.scalarOf n tag t) := by
  rw [Make.scalarOf.eq_def]
  split_ifs with hnull hboolean hinteger hfloat hbinary htime
  · trivial
  · exact hboolean ▸ settles_boolean
  · exact hinteger ▸ settles_integer
  · exact hfloat ▸ settles_float
  · exact settles_bytes _
  · subst htime
    split
    · exact .timeWithoutText rfl rfl
    · cases hr : Scalar.timestamp t with
      | error fault => exact settles_timestamp.of_error hr
      | ok v =>
        have hv : v.IsUnlinked := (settles_timestamp (n := n)).of_ok hr
        exact hv
  · trivial

end Scalars

namespace Make

/-- The tag of a scalar as a key: what stands for values counts as text. -/
def keyTag (h : Head) : Text := if h.tag = Tag.value then Tag.string else h.tag

/-- The name that a scalar has as a key. -/
def nameOf? : Node → Option Text
  | .scalar h t =>
    if isScalarTag (keyTag h) then
      (scalarOf (.scalar h t) (keyTag h) t).toOption.bind fun v => v.asName.toOption
    else none
  | _ => none

/-- A value that has the name of a node, if the node has one by itself, whatever else is known. -/
def HasName (n : Node) (v : Value) : Prop :=
  ∀ name, nameOf? n = some name → ∀ contents, (v.unfold contents).asName = .ok name

lemma hasName_scalar {h : Head} {t tag : Text} {v : Value} (htag : keyTag h = tag)
    (hv : scalarOf (.scalar h t) tag t = .ok v) : HasName (.scalar h t) v := by
  subst htag
  intro name hname contents
  rw [((settles_scalarOf _ _ _).of_ok hv).unfold]
  rw [nameOf?] at hname
  split_ifs at hname
  rw [hv] at hname
  exact ok_of_toOption hname

end Make

end Yaml

end DocPath
