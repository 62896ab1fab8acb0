import DocPath.Proofs.Yaml.Compose
import DocPath.Proofs.Yaml.Meaning

/-! Which texts are heard as they were written, and what a tree means whose texts are not. -/

namespace DocPath.Yaml

open Layout Yaml.Tree

section Scalars

variable {split : Bool} {inner : Nat} {tag t : Text}

/-- Single quotation marks keep all code points but the next line. -/
lemma heardSingle_eq_self_iff {before : Option CodePoint} : heardSingle before t = t ↔ ∀ c ∈ t, c.val ≠ 0x85 := by
  have hkept (before : Option CodePoint) (t : Text) : ∀ c ∈ heardSingle before t, c.val ≠ 0x85 := by
    induction t generalizing before with
    | nil => simp [heardSingle]
    | cons d t ih =>
      rw [heardSingle]
      refine List.forall_mem_append.mpr ⟨fun c hc => ?_, ih _⟩
      by_cases hbreak : isTextBreak d = true
      · rw [if_pos hbreak, heardBreak] at hc
        split_ifs at hc with h
        · rw [List.mem_singleton.mp hc]; decide
        · cases hc
        · rw [List.mem_singleton.mp hc]; decide
        · rwa [List.mem_singleton.mp hc]
      · rw [if_neg hbreak, List.mem_singleton] at hc
        rw [hc]
        exact fun h => hbreak (Token.isTextBreak_iff.mpr (.inr (.inl h)))
  refine ⟨fun h => h ▸ hkept before t, fun h => ?_⟩
  induction t generalizing before with
  | nil => rfl
  | cons d t ih =>
    obtain ⟨hd, ht⟩ := List.forall_mem_cons.mp h
    rw [heardSingle, ih ht, heardBreak, if_neg hd, ite_self]
    rfl

/-- Whether a blank stands behind a special code point other than the first, and is not the last. -/
def hasGuardedBlank (begun : Bool) : Text → Bool
  | [] => false
  | c :: t => (begun ∧ isDoublePlain c = false ∧ t.head? = some (CodePoint.ofChar ' ') ∧ 1 < t.length) ||
      hasGuardedBlank true t

lemma length_le_heardDouble (begun : Bool) : t.length ≤ (heardDouble begun t).length := by
  induction t generalizing begun with
  | nil => exact Nat.le_refl _
  | cons c t ih =>
    rw [heardDouble, List.length_cons, List.length_cons, List.length_append]
    have := ih true
    omega

/-- Between double quotation marks on lines that are all too long, guarded blanks are doubled. -/
lemma heardDouble_eq_self_iff {begun : Bool} : heardDouble begun t = t ↔ hasGuardedBlank begun t = false := by
  induction t generalizing begun with
  | nil => simp [heardDouble, hasGuardedBlank]
  | cons c t ih =>
    rw [heardDouble, hasGuardedBlank, List.cons_inj_right, Bool.or_eq_false_iff, decide_eq_false_iff_not]
    split_ifs with hguard
    · refine iff_of_false (fun h => ?_) fun h => h.1 hguard
      have hlength := congrArg List.length h
      have hle := @length_le_heardDouble t true
      simp only [List.length_append, List.length_cons, List.length_nil] at hlength
      omega
    · rw [List.nil_append, ih]
      exact (and_iff_right hguard).symm

theorem heard_eq_self_iff : heard split inner tag t = t ↔
    (style (!split) tag t = .single → ∀ c ∈ t, c.val ≠ 0x85) ∧
    (style (!split) tag t = .double → split = true → width ≤ inner → hasGuardedBlank false t = false) := by
  unfold heard
  cases style (!split) tag t with
  | plain => simp
  | single => simp [heardSingle_eq_self_iff]
  | double =>
    by_cases h : split = true ∧ width ≤ inner
    · simp [h, heardDouble_eq_self_iff]
    · rw [if_neg h]
      simp only [reduceCtorEq, IsEmpty.forall_iff, true_and, forall_true_left]
      tauto

lemma heard_of_ne_string (ho : IsOrdinary tag t) (h : tag ≠ Tag.string) : heard split inner tag t = t := by
  rw [heard, style_of_ne_string ho h]

lemma isReadable_heard (ho : IsOrdinary tag t) (hr : IsReadable tag t) : IsReadable tag (heard split inner tag t) := by
  by_cases h : tag = Tag.string
  · subst h
    exact (isName_string _).readable
  · rwa [heard_of_ne_string ho h]

lemma isName_heard (ho : IsOrdinary tag t) (hn : IsName tag t) : IsName tag (heard split inner tag t) := by
  by_cases h : tag = Tag.string
  · subst h
    exact isName_string _
  · rwa [heard_of_ne_string ho h]

lemma heard_eq_iff {α : Type} {f : Text → α} (ho : IsOrdinary tag t) (hf : tag = Tag.string → f.Injective) :
    f (heard split inner tag t) = f t ↔ heard split inner tag t = t := by
  by_cases h : tag = Tag.string
  · exact (hf h).eq_iff
  · rw [heard_of_ne_string ho h]
    exact iff_of_true rfl rfl

lemma meaning_heard (ho : IsOrdinary tag t) :
    (Tree.scalar tag (heard split inner tag t)).meaning = (Tree.scalar tag t).meaning ↔ heard split inner tag t = t := by
  refine heard_eq_iff (f := fun t => (Tree.scalar tag t).meaning) ho ?_
  rintro rfl t u h
  exact (Scalar.text.inj (Value.scalar.inj h))

lemma scalarName_heard (ho : IsOrdinary tag t) :
    scalarName tag (heard split inner tag t) = scalarName tag t ↔ heard split inner tag t = t := by
  refine heard_eq_iff ho ?_
  rintro rfl t u h
  exact h

end Scalars

mutual

theorem readable_heardTree : (t : Tree) → Ordinary t → Readable t → (indent : Nat) → (fresh : Bool) →
    Readable (heardTree indent fresh t)
  | .scalar _ _, ho, hr, _, _ => isReadable_heard ho hr
  | .sequence ts, ho, hr, _, _ => readable_heardItems ts ho hr _
  | .mapping _ es, ho, hr, _, _ => ⟨ho.1, readable_heardEntries es ho.2 hr.2 _⟩

theorem readable_heardItems : (ts : List Tree) → OrdinaryAll ts → ReadableAll ts → (indent : Nat) →
    ReadableAll (heardItems indent ts)
  | [], _, _, _ => trivial
  | t :: ts, ho, hr, _ => ⟨readable_heardTree t ho.1 hr.1 _ _, readable_heardItems ts ho.2 hr.2 _⟩

theorem readable_heardEntries : (es : List (Tree × Tree)) → OrdinaryEntries es → ReadableEntries es → (indent : Nat) →
    ReadableEntries (heardEntries indent es)
  | [], _, _, _ => trivial
  | (k, v) :: es, ho, hr, _ => by
    obtain ⟨⟨tag, key, rfl, hkey⟩, hv, hes⟩ := ho
    obtain ⟨⟨_, _, heq, hname⟩, hrv, hres⟩ := hr
    cases heq
    exact ⟨⟨_, _, rfl, isName_heard hkey hname⟩, readable_heardTree v hv hrv _ _, readable_heardEntries es hes hres _⟩

end

lemma length_heardEntries (es : List (Tree × Tree)) (indent : Nat) : (heardEntries indent es).length = es.length := by
  induction es with
  | nil => rfl
  | cons e es ih =>
    obtain ⟨k, v⟩ := e
    cases k <;> simp [heardEntries, ih]

mutual

/-- A tree that is misheard does not mean the same. -/
theorem meaning_heardTree : (t : Tree) → Ordinary t → (indent : Nat) → (fresh : Bool) →
    ((heardTree indent fresh t).meaning = t.meaning ↔ heardTree indent fresh t = t)
  | .scalar _ _, ho, _, _ => (meaning_heard ho).trans (by simp [heardTree])
  | .sequence ts, ho, indent, fresh => by
    simpa [heardTree, Tree.meaning] using meaning_heardItems ts ho (if fresh then indent + indentStep else indent)
  | .mapping _ es, ho, indent, _ => by
    simpa [heardTree, Tree.meaning] using meaning_heardEntries es ho.2 (indent + indentStep)

theorem meaning_heardItems : (ts : List Tree) → OrdinaryAll ts → (indent : Nat) →
    (meanings (heardItems indent ts) = meanings ts ↔ heardItems indent ts = ts)
  | [], _, _ => by simp [heardItems]
  | t :: ts, ho, indent => by
    rw [heardItems, meanings, meanings, List.cons.injEq, List.cons.injEq, meaning_heardTree t ho.1,
      meaning_heardItems ts ho.2]

theorem meaning_heardEntries : (es : List (Tree × Tree)) → OrdinaryEntries es → (indent : Nat) →
    (meaningEntries (heardEntries indent es) = meaningEntries es ↔ heardEntries indent es = es)
  | [], _, _ => by simp [heardEntries]
  | (k, v) :: es, ho, indent => by
    obtain ⟨⟨tag, key, rfl, hkey⟩, hv, hes⟩ := ho
    rw [heardEntries, meaningEntries, meaningEntries, List.cons.injEq, List.cons.injEq, Prod.mk.injEq, Prod.mk.injEq,
      meaning_heardTree v hv, meaning_heardEntries es hes, Value.text, Value.text, Value.scalar.injEq, Scalar.text.injEq,
      keyName, keyName, scalarName_heard hkey]
    simp

end

end DocPath.Yaml
