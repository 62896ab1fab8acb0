import DocPath.Proofs.Json.Heard
import DocPath.Proofs.Value.Keys

/-! The trees that JSON texts stand for before objects are given a meaning: an object has all its members, in the order
of the text, also if two of them have one name. A rule for objects gives a tree its value; where no name is repeated,
the rule that refuses repeated names and the one by which the last member wins agree. -/

namespace DocPath.Json

/-- The parts of a document as they stand in its text. -/
inductive Tree where
  /-- A text, a number, or a word. -/
  | leaf (v : Value)
  | array (items : List Tree)
  | object (members : List (Text × Tree))

namespace Tree

mutual

/-- The value of a tree; `finish` gives objects their meaning, those that end first before the others. -/
def meaning (finish : Finish) : Tree → Except Fault Value
  | .leaf v => .ok v
  | .array items => do pure (.list (← meanings finish items))
  | .object members => do finish (← memberMeanings finish members)

def meanings (finish : Finish) : List Tree → Except Fault (List Value)
  | [] => .ok []
  | x :: xs => do
    let v ← meaning finish x
    pure (v :: (← meanings finish xs))

def memberMeanings (finish : Finish) : List (Text × Tree) → Except Fault (List (Text × Value))
  | [] => .ok []
  | (name, x) :: members => do
    let v ← meaning finish x
    pure ((name, v) :: (← memberMeanings finish members))

end

mutual

/-- The tree as a value: mappings have the members of the text as their entries, in the same order. -/
def plain : Tree → Value
  | .leaf v => v
  | .array items => .list (plainAll items)
  | .object members => .map false (plainMembers members)

def plainAll : List Tree → List Value
  | [] => []
  | x :: xs => plain x :: plainAll xs

def plainMembers : List (Text × Tree) → List (Value × Value)
  | [] => []
  | (name, x) :: members => (.text name, plain x) :: plainMembers members

end

/-- In some object, at any depth, two members have the name. -/
inductive Repeats (name : Text) : Tree → Prop
  | here {members : List (Text × Tree)} (h : 2 ≤ (members.map (·.1)).count name) : Repeats name (.object members)
  | item {items : List Tree} {x : Tree} (hx : x ∈ items) (h : Repeats name x) : Repeats name (.array items)
  | member {members : List (Text × Tree)} {m : Text × Tree} (hm : m ∈ members) (h : Repeats name m.2) :
      Repeats name (.object members)

/-- In no object two members have one name. -/
def Distinct (x : Tree) : Prop := ∀ name, ¬Repeats name x

lemma distinct_leaf (v : Value) : Distinct (.leaf v) := fun _ => nofun

lemma distinct_array {items : List Tree} : Distinct (.array items) ↔ ∀ x ∈ items, x.Distinct := by
  refine ⟨fun h x hx name hrep => h name (.item hx hrep), fun h name hrep => ?_⟩
  cases hrep with
  | item hx hrep => exact h _ hx name hrep

lemma distinct_object {members : List (Text × Tree)} :
    Distinct (.object members) ↔ (members.map (·.1)).Nodup ∧ ∀ m ∈ members, m.2.Distinct := by
  constructor
  · refine fun h => ⟨List.nodup_iff_count_le_one.mpr fun name => ?_, fun m hm name hrep => h name (.member hm hrep)⟩
    exact Nat.le_of_not_lt fun hcount => h name (.here hcount)
  · rintro ⟨hnodup, hmembers⟩ name hrep
    cases hrep with
    | here h => exact absurd (List.nodup_iff_count_le_one.mp hnodup name) (Nat.not_le.mpr h)
    | member hm hrep => exact hmembers _ hm name hrep

end Tree

/-- A rule by which an object without repeated names has all its members, in their order. -/
def KeepsMembers (finish : Finish) : Prop :=
  ∀ entries, (entries.map (·.1)).Nodup → finish entries = .ok (.map false (entries.map fun e => (.text e.1, e.2)))

lemma keepsMembers_unique : KeepsMembers unique := fun _ h => unique_eq_ok_iff.mpr ⟨h, rfl⟩

lemma keepsMembers_lastWins : KeepsMembers lastWins := fun entries h => by
  rw [lastWins, Value.entriesOf_texts h]

/-- The first repeated name is there twice, or is one of those that were there before. -/
lemma repeated?_eq_some {seen names : List Text} {name : Text} (h : repeated? seen names = some name) :
    name ∈ names ∧ (name ∈ seen ∨ 2 ≤ names.count name) := by
  induction names generalizing seen with
  | nil => cases h
  | cons n names ih =>
    rw [repeated?] at h
    split_ifs at h with hseen
    · obtain rfl := Option.some.inj h
      exact ⟨List.mem_cons_self, .inl (by simpa using hseen)⟩
    · obtain ⟨hmem, hcount⟩ := ih h
      refine ⟨List.mem_cons_of_mem _ hmem, ?_⟩
      rw [List.mem_cons] at hcount
      rcases hcount with (rfl | hseen) | hcount
      · have hpos := List.count_pos_iff.mpr hmem
        exact .inr (by rw [List.count_cons_self]; omega)
      · exact .inl hseen
      · exact .inr (Nat.le_trans hcount List.count_le_count_cons)

lemma unique_of_not_nodup {entries : List (Text × Value)} (h : ¬(entries.map (·.1)).Nodup) :
    ∃ name, 2 ≤ (entries.map (·.1)).count name ∧ unique entries = .error (.duplicateName name) := by
  cases hrep : repeated? [] (entries.map (·.1)) with
  | none => exact absurd (repeated?_eq_none_iff.mp hrep).1 h
  | some name =>
    refine ⟨name, (repeated?_eq_some hrep).2.resolve_left List.not_mem_nil, ?_⟩
    rw [unique, hrep]

namespace Tree

lemma plainMembers_eq_map (members : List (Text × Tree)) :
    plainMembers members = (members.map fun m => (m.1, m.2.plain)).map fun e => (.text e.1, e.2) := by
  induction members with
  | nil => rfl
  | cons m members ih => rw [plainMembers, ih, List.map_cons, List.map_cons]

section Distinct

variable {finish : Finish}

mutual

/-- A tree without repeated names means what stands in the text. -/
theorem meaning_of_distinct (hf : KeepsMembers finish) : (x : Tree) → x.Distinct → x.meaning finish = .ok x.plain
  | .leaf _, _ => rfl
  | .array items, h => by
    rw [meaning, meanings_of_distinct hf items (distinct_array.mp h)]
    rfl
  | .object members, h => by
    obtain ⟨hnodup, hmembers⟩ := distinct_object.mp h
    have hnames : ((members.map fun m => (m.1, m.2.plain)).map (·.1)).Nodup := by
      rwa [List.map_map]
    rw [meaning, memberMeanings_of_distinct hf members hmembers, plain, plainMembers_eq_map]
    exact hf _ hnames

theorem meanings_of_distinct (hf : KeepsMembers finish) :
    (xs : List Tree) → (∀ x ∈ xs, x.Distinct) → meanings finish xs = .ok (plainAll xs)
  | [], _ => rfl
  | x :: xs, h => by
    rw [meanings, meaning_of_distinct hf x (h x List.mem_cons_self),
      meanings_of_distinct hf xs fun y hy => h y (List.mem_cons_of_mem _ hy)]
    rfl

theorem memberMeanings_of_distinct (hf : KeepsMembers finish) :
    (members : List (Text × Tree)) → (∀ m ∈ members, m.2.Distinct) →
      memberMeanings finish members = .ok (members.map fun m => (m.1, m.2.plain))
  | [], _ => rfl
  | (name, x) :: members, h => by
    rw [memberMeanings, meaning_of_distinct hf x (h (name, x) List.mem_cons_self),
      memberMeanings_of_distinct hf members fun m hm => h m (List.mem_cons_of_mem _ hm)]
    rfl

end

end Distinct

mutual

/-- A tree with repeated names has no value by the rule that refuses them; the error is about one of them. -/
theorem distinct_or_refused : (x : Tree) →
    x.Distinct ∨ ∃ name, Repeats name x ∧ x.meaning unique = .error (.duplicateName name)
  | .leaf v => .inl (distinct_leaf v)
  | .array items => by
    rcases distinct_or_refused_items items with h | ⟨x, hx, name, hrep, herror⟩
    · exact .inl (distinct_array.mpr h)
    · refine .inr ⟨name, .item hx hrep, ?_⟩
      rw [meaning, herror]
      rfl
  | .object members => by
    rcases distinct_or_refused_members members with h | ⟨m, hm, name, hrep, herror⟩
    · by_cases hnodup : (members.map (·.1)).Nodup
      · exact .inl (distinct_object.mpr ⟨hnodup, h⟩)
      · have hnames : (members.map fun m => (m.1, m.2.plain)).map (·.1) = members.map (·.1) := List.map_map ..
        obtain ⟨name, hcount, herror⟩ := unique_of_not_nodup (hnames.symm ▸ hnodup)
        refine .inr ⟨name, .here (hnames ▸ hcount), ?_⟩
        rw [meaning, memberMeanings_of_distinct keepsMembers_unique members h]
        exact herror
    · refine .inr ⟨name, .member hm hrep, ?_⟩
      rw [meaning, herror]
      rfl

theorem distinct_or_refused_items : (xs : List Tree) →
    (∀ x ∈ xs, x.Distinct) ∨
      ∃ x ∈ xs, ∃ name, Repeats name x ∧ meanings unique xs = .error (.duplicateName name)
  | [] => .inl (List.forall_mem_nil _)
  | x :: xs => by
    rcases distinct_or_refused x with hx | ⟨name, hrep, herror⟩
    · rcases distinct_or_refused_items xs with hxs | ⟨y, hy, name, hrep, herror⟩
      · exact .inl (List.forall_mem_cons.mpr ⟨hx, hxs⟩)
      · refine .inr ⟨y, List.mem_cons_of_mem _ hy, name, hrep, ?_⟩
        rw [meanings, meaning_of_distinct keepsMembers_unique x hx, herror]
        rfl
    · refine .inr ⟨x, List.mem_cons_self, name, hrep, ?_⟩
      rw [meanings, herror]
      rfl

theorem distinct_or_refused_members : (members : List (Text × Tree)) →
    (∀ m ∈ members, m.2.Distinct) ∨
      ∃ m ∈ members, ∃ name, Repeats name m.2 ∧ memberMeanings unique members = .error (.duplicateName name)
  | [] => .inl (List.forall_mem_nil _)
  | (n, x) :: members => by
    rcases distinct_or_refused x with hx | ⟨name, hrep, herror⟩
    · rcases distinct_or_refused_members members with hmembers | ⟨m, hm, name, hrep, herror⟩
      · exact .inl (List.forall_mem_cons.mpr ⟨hx, hmembers⟩)
      · refine .inr ⟨m, List.mem_cons_of_mem _ hm, name, hrep, ?_⟩
        rw [memberMeanings, meaning_of_distinct keepsMembers_unique x hx, herror]
        rfl
    · refine .inr ⟨(n, x), List.mem_cons_self, name, hrep, ?_⟩
      rw [memberMeanings, herror]
      rfl

end

end Tree

end DocPath.Json
