import DocPath.Proofs.Yaml.Coming
import DocPath.Proofs.Yaml.Reached

/-! Scalars by either rule: which node spells which text, how far the spelling of a mapping goes, and what kind of
value each tag gives. -/

namespace DocPath.Yaml.Make

/-- A value of the kind that a scalar tag asks for. Times are known by the number of their node. -/
inductive IsScalar (id : Nat) : Text → Value → Prop
  | null : IsScalar id Tag.null .null
  | boolean (b : Bool) : IsScalar id Tag.boolean (.bool b)
  | integer (i : Int) : IsScalar id Tag.integer (.int i)
  | float (x : Binary64) : IsScalar id Tag.float (.float x)
  | bytes (bs : List UInt8) : IsScalar id Tag.binary (.bytes bs)
  | date (d : Date) : IsScalar id Tag.timestamp (.anchor id (.scalar (.date d)))
  | dateTime (d : DateTime) : IsScalar id Tag.timestamp (.anchor id (.scalar (.dateTime d)))
  | text (t : Text) : IsScalar id Tag.string (.text t)

/-- A scalar spells its text, and a mapping that at its first `=` key, which is so many steps away. -/
inductive Spells (d : Document) : Nat → Node → Text → Prop
  | scalar (h : Head) (t : Text) : Spells d 0 (.scalar h t) t
  | mapping {k : Nat} {h : Head} {own : List (Node × Node)} {e : Node × Node} {t : Text}
      (he : own.find? (fun e => (follow d.source e.1).head.tag == Tag.value) = some e)
      (ht : Spells d k (follow d.source e.2) t) : Spells d (k + 1) (.mapping h own) t

/-- A node spells a text. -/
def Spelled (d : Document) (n : Node) (t : Text) : Prop := ∃ k, Spells d k n t

/-- A node with a scalar tag means a value. -/
def Means (d : Document) (n : Node) (v : Value) : Prop := ∃ t, Spelled d n t ∧ scalarOf n n.head.tag t = .ok v

section Scalars

variable {n : Node} {tag t : Text} {v : Value} {id : Nat}

lemma isScalar_boolean (h : Scalar.boolean t = .ok v) : IsScalar id Tag.boolean v := by
  simp only [Scalar.boolean] at h
  split_ifs at h
  all_goals
    cases h
    exact .boolean _

lemma isScalar_timestamp (h : Scalar.timestamp t = .ok v) : IsScalar id Tag.timestamp (.anchor id v) := by
  rw [Scalar.timestamp] at h
  split at h
  · cases h
  · split_ifs at h
    all_goals
      split at h
      · cases h
    · cases h
      exact .date _
    · split at h
      · cases h
      · cases h
        exact .dateTime _

/-- What a tag says of the value. -/
theorem isScalar_of_ok (htag : isScalarTag tag = true) (h : scalarOf n tag t = .ok v) : IsScalar n.head.id tag v := by
  rw [scalarOf.eq_def] at h
  split_ifs at h with hnull hbool hint hfloat hbinary htime
  · subst hnull
    cases h
    exact .null
  · subst hbool
    exact isScalar_boolean h
  · subst hint
    obtain ⟨_, -, h⟩ := bind_eq_ok h
    obtain ⟨_, -, h⟩ := bind_eq_ok h
    cases h
    exact .integer _
  · subst hfloat
    obtain ⟨_, -, h⟩ := bind_eq_ok h
    obtain ⟨_, -, h⟩ := bind_eq_ok h
    cases h
    exact .float _
  · subst hbinary
    rw [Scalar.bytes] at h
    split at h
    · cases h
    · split at h
      · cases h
      · cases h
        exact .bytes _
  · subst htime
    split at h
    · cases h
    · obtain ⟨w, hw, rfl⟩ := map_eq_ok h
      exact isScalar_timestamp hw
  · cases h
    obtain rfl : tag = Tag.string := by
      have hin := List.contains_iff_mem.mp htag
      simpa [hnull, hbool, hint, hfloat, hbinary, htime] using hin
    exact .text t

end Scalars

section Spelling

variable {d : Document} {root n : Node} {k k' : Nat} {t t' : Text}

lemma Spells.unique (h : Spells d k n t) (h' : Spells d k' n t') : k = k' ∧ t = t' := by
  induction h generalizing k' t' with
  | scalar h t =>
    cases h'
    exact ⟨rfl, rfl⟩
  | mapping he _ ih =>
    cases h' with
    | mapping he' ht' =>
      rw [he] at he'
      cases he'
      obtain ⟨rfl, rfl⟩ := ih ht'
      exact ⟨rfl, rfl⟩

lemma Spelled.unique (h : Spelled d n t) (h' : Spelled d n t') : t = t' := by
  obtain ⟨k, h⟩ := h
  obtain ⟨k', h'⟩ := h'
  exact (h.unique h').2

/-- On the way to its text a node passes one at every distance. -/
lemma Spells.passes (hd : Numbered d root) (hn : n ∈ root.parts) (h : Spells d k n t) :
    ∀ j ≤ k, ∃ m ∈ root.parts, m.isSolid = true ∧ Spells d j m t := by
  induction h with
  | scalar h t =>
    intro j hj
    obtain rfl := Nat.le_zero.mp hj
    exact ⟨_, hn, rfl, .scalar h t⟩
  | @mapping k h own e t he ht ih =>
    intro j hj
    rcases Nat.lt_or_eq_of_le hj with hj | rfl
    · have hentry : IsEntry root e := ⟨h, own, hn, List.mem_of_find?_eq_some he⟩
      exact ih (follow_mem hd hentry.parts.2) j (Nat.lt_succ_iff.mp hj)
    · exact ⟨_, hn, rfl, .mapping he ht⟩

/-- No node is passed twice, so the text is nearer than there are nodes. -/
theorem Spells.lt_size (hd : Numbered d root) (hn : n ∈ root.parts) (h : Spells d k n t) : k < d.size := by
  choose! node hpart hsolid hspells using h.passes hd hn
  have hmaps : ∀ j ∈ Finset.range (k + 1), (node j).head.id ∈ Finset.range d.size := by
    intro j hj
    have hle := Nat.lt_succ_iff.mp (Finset.mem_range.mp hj)
    exact Finset.mem_range.mpr (hd.bounded _ (hpart j hle) (hsolid j hle))
  have hinj : Set.InjOn (fun j => (node j).head.id) (Finset.range (k + 1)) := by
    intro i hi j hj heq
    have hi := Nat.lt_succ_iff.mp (Finset.mem_range.mp hi)
    have hj := Nat.lt_succ_iff.mp (Finset.mem_range.mp hj)
    have hnode := hd.unique _ (hpart i hi) (hsolid i hi) _ (hpart j hj) (hsolid j hj) heq
    exact ((hspells i hi).unique (hnode ▸ hspells j hj)).1
  have hcard := Finset.card_le_card_of_injOn _ hmaps hinj
  rw [Finset.card_range, Finset.card_range] at hcard
  exact hcard

end Spelling

section Runs

variable {d : Document} {root n : Node} {rule : KeyRule} {s : Making} {fuel k : Nat} {t : Text}

lemma isValue_eq (htexts : s.texts = []) : (fun e : Node × Node =>
      (follow (d.under rule) e.1).head.tag == Tag.value && !s.texts.contains (follow (d.under rule) e.1).head.id) =
    fun e => (follow d.source e.1).head.tag == Tag.value := by
  funext e
  rw [htexts, follow_under]
  simp

/-- The text of a node is the one that it spells, and nothing changes. -/
lemma textOf_spelled (hd : Numbered d root) (hn : n ∈ root.parts) (hs : Sourced d root s)
    (htexts : Clear d root → s.texts = []) :
    Yields (fun _ => True) (textOf (d.under rule) fuel n s) fun t s' =>
      s' = s ∧ (Clear d root → Spelled d (follow d.source n) t) := by
  induction fuel generalizing n with
  | zero => trivial
  | succ fuel ih =>
    have hm := follow_mem hd hn
    rw [textOf, follow_under]
    cases heq : follow d.source n with
    | scalar h u => exact .of_eq rfl ⟨rfl, fun _ => ⟨0, .scalar h u⟩⟩
    | mapping h own =>
      rw [heq] at hm
      refine .step (a := entriesNow s h own) (t := s) rfl (.step (a := s) (t := s) rfl ?_)
      dsimp only
      cases hfound : (entriesNow s h own).find? _ with
      | none => trivial
      | some e =>
        have hentry : IsEntry root e := (hs.comes h own hm e (List.mem_of_find?_eq_some hfound)).isEntry hd hm
        refine (ih hentry.parts.2).mono fun t s' ht => ⟨ht.1, fun hclear => ?_⟩
        obtain ⟨k, hk⟩ := ht.2 hclear
        rw [isValue_eq (htexts hclear), hs.entriesNow_plain hm (hclear.unmerged _ hm)] at hfound
        exact ⟨k + 1, .mapping hfound hk⟩
    | _ => trivial

/-- With fuel for the way to it, the text is found. -/
lemma textOf_spells (hd : Numbered d root) (hclear : Clear d root) (hs : Sourced d root s) (htexts : s.texts = [])
    (hn : n ∈ root.parts) (h : Spells d k (follow d.source n) t) (hfuel : k < fuel) :
    textOf (d.under rule) fuel n s = .ok (t, s) := by
  induction k generalizing n fuel with
  | zero =>
    obtain ⟨f, rfl⟩ : ∃ f, fuel = f + 1 := ⟨fuel - 1, by omega⟩
    rw [textOf, follow_under]
    generalize follow d.source n = m at h
    cases h
    rfl
  | succ k ih =>
    obtain ⟨f, rfl⟩ : ∃ f, fuel = f + 1 := ⟨fuel - 1, by omega⟩
    have hm := follow_mem hd hn
    rw [textOf, follow_under]
    generalize follow d.source n = m at h hm
    cases h with
    | @mapping _ h own e _ he ht =>
      have hnow : entriesOf h own s = .ok (own, s) :=
        congrArg (fun es => Except.ok (es, s)) (hs.entriesNow_plain hm (hclear.unmerged _ hm))
      dsimp only
      rw [bind_ok hnow, bind_ok (a := s) (t := s) rfl]
      rw [isValue_eq htexts, he]
      have hentry : IsEntry root e := ⟨h, own, hm, List.mem_of_find?_eq_some he⟩
      exact ih hentry.parts.2 ht (by omega)

end Runs

end DocPath.Yaml.Make
