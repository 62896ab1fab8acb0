import DocPath.Failure
import DocPath.Proofs.Text

/-! Paths and lists of segments. Joining refuses exactly the lists with an empty segment or an escape
mark; on all others parsing is its inverse, and what parsing gives can always be joined again. -/

namespace DocPath.Path

/-- What can stand in a path as a segment. -/
def IsSegment (s : Text) : Prop := s ≠ [] ∧ escapeMark ∉ s

lemma withFirst_isSegment {p : Text × List Text} (hp : escapeMark ∉ p.1)
    (hs : ∀ s ∈ p.2, IsSegment s) : ∀ s ∈ withFirst p, IsSegment s := by
  unfold withFirst
  split_ifs with he
  · exact hs
  · intro s hm
    rcases List.mem_cons.mp hm with rfl | hm
    · exact ⟨by simpa using he, hp⟩
    · exact hs s hm

/-- The current segment never takes in an escape mark, and only what is not empty is left behind it. -/
lemma split_isSegment (escaped : Bool) (t : Text) :
    escapeMark ∉ (split escaped t).1 ∧ ∀ s ∈ (split escaped t).2, IsSegment s := by
  fun_induction split escaped t with
  | case1 => exact ⟨List.not_mem_nil, fun _ h => absurd h List.not_mem_nil⟩
  | case2 _ rest ih => exact ih
  | case3 rest segment more hs hne ih =>
    rw [hs] at ih
    exact ⟨List.not_mem_cons_of_ne_of_not_mem (Ne.symm hne) ih.1, ih.2⟩
  | case4 _ rest _ _ ih => exact ⟨List.not_mem_nil, withFirst_isSegment ih.1 ih.2⟩
  | case5 _ c rest hne _ segment more hs ih =>
    rw [hs] at ih
    exact ⟨List.not_mem_cons_of_ne_of_not_mem (Ne.symm hne) ih.1, ih.2⟩

theorem parse_isSegment (path : Text) : ∀ s ∈ parse path, IsSegment s :=
  withFirst_isSegment (split_isSegment false path).1 (split_isSegment false path).2

lemma separator_ne_escapeMark : separator ≠ escapeMark := by decide

@[simp] lemma escape_nil : escape [] = [] := rfl

lemma escape_cons_separator (s : Text) :
    escape (separator :: s) = escapeMark :: separator :: escape s := by
  simp [escape]

lemma escape_cons {c : CodePoint} (h : c ≠ separator) (s : Text) :
    escape (c :: s) = c :: escape s := by
  simp [escape, h]

/-- An escaped text is read as one piece of the current segment. Its marks are all spent on its own
separators, so none is in force behind it. -/
lemma split_escape (s rest : Text) (h : escapeMark ∉ s) :
    split false (escape s ++ rest) = (s ++ (split false rest).1, (split false rest).2) := by
  induction s with
  | nil => rfl
  | cons c s ih =>
    obtain ⟨hc, hs⟩ : escapeMark ≠ c ∧ escapeMark ∉ s := by simpa using h
    by_cases he : c = separator
    · subst he
      rw [escape_cons_separator]
      simp [split, separator_ne_escapeMark, ih hs]
    · rw [escape_cons he]
      simp [split, Ne.symm hc, he, ih hs]

lemma split_separator (rest : Text) :
    split false (separator :: rest) = ([], parse rest) := by
  simp [split, separator_ne_escapeMark, parse]

/-- Segments that are escaped and joined come back one by one. -/
lemma parse_join_escape (segments : List Text) (h : ∀ s ∈ segments, IsSegment s) :
    parse (Text.join [separator] (segments.map escape)) = segments := by
  match segments with
  | [] => rfl
  | [s] =>
    obtain ⟨hne, hs⟩ := h s (by simp)
    have := split_escape s [] hs
    simp only [List.append_nil] at this
    simp [parse, Text.join, this, withFirst, split, hne]
  | s :: u :: more =>
    obtain ⟨hne, hs⟩ := h s (by simp)
    have ih := parse_join_escape (u :: more) fun x hx => h x (List.mem_cons_of_mem s hx)
    have split_rest := split_separator (Text.join [separator] ((u :: more).map escape))
    rw [ih] at split_rest
    have split_all := split_escape s (separator :: Text.join [separator] ((u :: more).map escape)) hs
    rw [split_rest] at split_all
    simp only [List.map_cons] at split_all ⊢
    simp only [parse, Text.join, List.append_assoc, List.singleton_append, split_all]
    simp [withFirst, hne]

lemma escape_eq_self {s : Text} (h : separator ∉ s) : escape s = s := by
  induction s with
  | nil => rfl
  | cons c s ih =>
    rw [List.mem_cons, not_or] at h
    rw [escape_cons (Ne.symm h.1), ih h.2]

lemma parse_segment {s : Text} (h : IsSegment s) (hs : separator ∉ s) : parse s = [s] := by
  have hjoin := parse_join_escape [s] (by simpa using h)
  rwa [List.map_singleton, escape_eq_self hs] at hjoin

lemma fault?_eq_none {s : Text} : fault? s = none ↔ IsSegment s := by
  unfold fault? IsSegment
  rw [← Text.contains_singleton]
  split_ifs with he hc <;> simp_all

lemma join_ok {segments : List Text} (h : ∀ s ∈ segments, IsSegment s) :
    join segments = .ok (Text.join [separator] (segments.map escape)) := by
  have : segments.findSome? fault? = none :=
    List.findSome?_eq_none_iff.mpr fun s hs => fault?_eq_none.mpr (h s hs)
  simp [join, this]

lemma join_error {segments : List Text} {s : Text} (hs : s ∈ segments) (h : ¬ IsSegment s) :
    ∃ fault, join segments = .error fault := by
  cases hf : segments.findSome? fault? with
  | some fault => exact ⟨fault, by simp [join, hf]⟩
  | none =>
    have := List.findSome?_eq_none_iff.mp hf s hs
    exact absurd (fault?_eq_none.mp this) h

/-- Joining fails, with an error of an unsuitable value, exactly on lists with an empty segment or one that
holds an escape mark. Every other list is what parsing its path gives, and everything that parsing gives
can be joined and parsed again. -/
theorem parse_join_correspond :
    (∀ segments : List Text,
      ((∃ fault, join segments = .error fault ∧ (Failure.path fault).kind = .value) ↔
        ∃ s ∈ segments, s = [] ∨ escapeMark ∈ s) ∧
      ((∀ s ∈ segments, s ≠ [] ∧ escapeMark ∉ s) →
        ∃ path, join segments = .ok path ∧ parse path = segments)) ∧
    ∀ path : Text,
      (∀ s ∈ parse path, s ≠ [] ∧ escapeMark ∉ s) ∧
      ∃ again, join (parse path) = .ok again ∧ parse again = parse path := by
  refine ⟨fun segments => ⟨⟨?_, ?_⟩, ?_⟩, fun path => ⟨parse_isSegment path, ?_⟩⟩
  · rintro ⟨fault, hj, -⟩
    by_contra hn
    have hs : ∀ s ∈ segments, IsSegment s := by
      intro s hm
      exact ⟨fun he => hn ⟨s, hm, .inl he⟩, fun he => hn ⟨s, hm, .inr he⟩⟩
    rw [join_ok hs] at hj
    cases hj
  · rintro ⟨s, hm, hs⟩
    obtain ⟨fault, hj⟩ := join_error hm fun h => hs.elim h.1 h.2
    exact ⟨fault, hj, rfl⟩
  · intro hs
    exact ⟨_, join_ok hs, parse_join_escape segments hs⟩
  · exact ⟨_, join_ok (parse_isSegment path), parse_join_escape _ (parse_isSegment path)⟩

end DocPath.Path
