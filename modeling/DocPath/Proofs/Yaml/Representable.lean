import DocPath.Proofs.Value.Name
import DocPath.Proofs.Yaml.Hereditary
import DocPath.Value.Normal
import DocPath.Yaml.Tree

/-! Which values have a tree: those of the types that YAML has, if no part contains itself and every integer can be
written. All values that are read are of these types. -/

namespace DocPath

open Numeral

/-- A value of a type that YAML has, with collections of such values. -/
inductive Yaml.IsYaml : Value → Prop
  | null : IsYaml .null
  | bool (b : Bool) : IsYaml (.bool b)
  | int (i : Int) : IsYaml (.int i)
  | float (x : Binary64) : IsYaml (.float x)
  | text (t : Text) : IsYaml (.text t)
  | bytes (bs : List UInt8) : IsYaml (.bytes bs)
  | date (d : Date) : IsYaml (.scalar (.date d))
  | dateTime (d : DateTime) : IsYaml (.scalar (.dateTime d))
  | list {vs : List Value} (items : ∀ v ∈ vs, IsYaml v) : IsYaml (.list vs)
  | tuple {vs : List Value} (items : ∀ v ∈ vs, IsYaml v) : IsYaml (.tuple vs)
  | map {o : Bool} {es : List (Value × Value)} (keys : ∀ e ∈ es, IsYaml e.1) (values : ∀ e ∈ es, IsYaml e.2) :
      IsYaml (.map o es)
  | set {vs : List Value} (elements : ∀ v ∈ vs, IsYaml v) : IsYaml (.set false vs)
  | anchor {l : Nat} {v : Value} (content : IsYaml v) : IsYaml (.anchor l v)
  | link (l : Nat) : IsYaml (.alias l)

namespace Value

open Yaml

variable {v : Value}

/-- Changes that go into collections keep the types if they do so where they come to a label. -/
theorem Descends.isYaml {g : Value → Value} (hg : Descends g) (anchor : ∀ l v, IsYaml (g v) → IsYaml (g (.anchor l v)))
    (link : ∀ l, IsYaml (g (.alias l))) (h : IsYaml v) : IsYaml (g v) := by
  induction h with
  | null => rw [hg.null]; exact .null
  | bool b => rw [hg.scalar]; exact .bool b
  | int i => rw [hg.scalar]; exact .int i
  | float x => rw [hg.scalar]; exact .float x
  | text t => rw [hg.scalar]; exact .text t
  | bytes bs => rw [hg.scalar]; exact .bytes bs
  | date d => rw [hg.scalar]; exact .date d
  | dateTime d => rw [hg.scalar]; exact .dateTime d
  | list _ ih => rw [hg.list]; exact .list (List.forall_mem_map.mpr ih)
  | tuple _ ih => rw [hg.tuple]; exact .tuple (List.forall_mem_map.mpr ih)
  | map _ _ ihk ihv => rw [hg.map]; exact .map (List.forall_mem_map.mpr ihk) (List.forall_mem_map.mpr ihv)
  | set _ ih => rw [hg.set]; exact .set (List.forall_mem_map.mpr ih)
  | anchor _ ih => exact anchor _ _ ih
  | link l => exact link l

lemma isYaml_substitute {f : Nat → Value} (hf : ∀ l, IsYaml (f l)) (h : IsYaml v) : IsYaml (v.substitute f) :=
  (descends_substitute f).isYaml (fun _ _ hv => .anchor hv) hf h

lemma isYaml_unfold {contents : List (Nat × Value)} (hc : ∀ e ∈ contents, IsYaml e.2) (h : IsYaml v) :
    IsYaml (v.unfold contents) := by
  have label (fuel : Nat) (above : List Nat) (l : Nat) : IsYaml (unfoldLabel contents fuel above l) := by
    induction fuel generalizing above l with
    | zero => exact .link l
    | succ fuel ih =>
      rw [unfoldLabel]
      split_ifs
      · exact .link l
      · split
        · exact .link l
        · next w hw => exact .anchor (isYaml_substitute (ih (l :: above)) (hc (l, w) (mem_of_lookup hw)))
  exact isYaml_substitute (label _ _) h

lemma isYaml_pruned (h : IsYaml v) : IsYaml v.pruned := by
  refine (descends_prune _).isYaml (fun l w hw => ?_) (fun l => .link l) h
  simp only [prune]
  split_ifs
  · exact .anchor hw
  · exact hw
  · exact .anchor hw
  · exact hw

lemma mem_insertElement {vs : List Value} {x : Value} (h : v ∈ insertElement vs x) : v ∈ vs ∨ v = x := by
  rw [insertElement] at h
  split_ifs at h
  · exact .inl h
  · exact (List.mem_append.mp h).imp_right List.mem_singleton.mp

lemma mem_foldl_insertElement {seen vs : List Value} (h : v ∈ vs.foldl insertElement seen) : v ∈ seen ∨ v ∈ vs := by
  induction vs generalizing seen with
  | nil => exact .inl h
  | cons x vs ih =>
    rcases ih h with h | h
    · exact (mem_insertElement h).imp_right fun heq : v = x => heq ▸ List.mem_cons_self
    · exact .inr (List.mem_cons_of_mem _ h)

lemma mem_elementsOf {vs : List Value} (h : v ∈ elementsOf vs) : v ∈ vs ∨ ∃ i, v = .int i := by
  rw [elementsOf] at h
  split_ifs at h
  · obtain ⟨i, -, rfl⟩ := List.mem_map.mp h
    exact .inr ⟨i, rfl⟩
  · exact .inl ((mem_foldl_insertElement h).resolve_left List.not_mem_nil)

lemma mem_insertEntry {es : List (Value × Value)} {k x : Value} {e : Value × Value} (h : e ∈ insertEntry es k x) :
    (e.1 = k ∨ ∃ e' ∈ es, e'.1 = e.1) ∧ (e.2 = x ∨ ∃ e' ∈ es, e'.2 = e.2) := by
  induction es with
  | nil =>
    rw [insertEntry, List.mem_singleton] at h
    exact h ▸ ⟨.inl rfl, .inl rfl⟩
  | cons d es ih =>
    rw [insertEntry] at h
    split_ifs at h
    · rcases List.mem_cons.mp h with rfl | h
      · exact ⟨.inr ⟨d, List.mem_cons_self, rfl⟩, .inl rfl⟩
      · exact ⟨.inr ⟨e, List.mem_cons_of_mem _ h, rfl⟩, .inr ⟨e, List.mem_cons_of_mem _ h, rfl⟩⟩
    · rcases List.mem_cons.mp h with rfl | h
      · exact ⟨.inr ⟨_, List.mem_cons_self, rfl⟩, .inr ⟨_, List.mem_cons_self, rfl⟩⟩
      · have hlater {f : Value × Value → Value} : (∃ e' ∈ es, f e' = f e) → ∃ e' ∈ d :: es, f e' = f e := by
          rintro ⟨e', he', heq⟩
          exact ⟨e', List.mem_cons_of_mem _ he', heq⟩
        exact ⟨(ih h).1.imp_right hlater, (ih h).2.imp_right hlater⟩

/-- The keys and values of a mapping are those of the entries it is made from. -/
lemma isYaml_entriesOf {o : Bool} {es : List (Value × Value)} (hes : ∀ e ∈ es, IsYaml e.1 ∧ IsYaml e.2) :
    IsYaml (.map o (entriesOf es)) := by
  have hall : ∀ e ∈ entriesOf es, IsYaml e.1 ∧ IsYaml e.2 := by
    induction es using List.reverseRecOn with
    | nil => exact nofun
    | append_singleton es e ih =>
      obtain ⟨hbefore, hlast⟩ := List.forall_mem_append.mp hes
      rw [List.forall_mem_singleton] at hlast
      intro d hd
      rw [entriesOf, List.foldl_append] at hd
      obtain ⟨hkey, hvalue⟩ := mem_insertEntry hd
      constructor
      · rcases hkey with h | ⟨e', he', h⟩
        · exact h ▸ hlast.1
        · exact h ▸ (ih hbefore e' he').1
      · rcases hvalue with h | ⟨e', he', h⟩
        · exact h ▸ hlast.2
        · exact h ▸ (ih hbefore e' he').2
  exact .map (fun e he => (hall e he).1) fun e he => (hall e he).2

end Value

namespace Yaml

lemma isYaml_timestamp {t : Text} {v : Value} (h : Scalar.timestamp t = .ok v) : IsYaml v := by
  rw [Scalar.timestamp] at h
  split at h
  · cases h
  · split_ifs at h
    · split at h
      · cases h
      · cases h
        exact .date _
    · split at h
      · cases h
      · split at h
        · cases h
        · cases h
          exact .dateTime _

lemma isYaml_scalarOf {n : Node} {tag t : Text} {v : Value} (h : Make.scalarOf n tag t = .ok v) : IsYaml v := by
  rw [Make.scalarOf.eq_def] at h
  split_ifs at h
  · cases h
    exact .null
  · rw [Scalar.boolean] at h
    split_ifs at h <;> cases h <;> exact .bool _
  · obtain ⟨p, -, h⟩ := bind_eq_ok h
    obtain ⟨i, -, h⟩ := bind_eq_ok h
    cases h
    exact .int _
  · obtain ⟨p, -, h⟩ := bind_eq_ok h
    obtain ⟨x, -, h⟩ := bind_eq_ok h
    cases h
    exact .float _
  · rw [Scalar.bytes] at h
    split at h
    · cases h
    · split at h
      · cases h
      · cases h
        exact .bytes _
  · split at h
    · cases h
    · obtain ⟨w, hw, rfl⟩ := map_eq_ok h
      exact .anchor (isYaml_timestamp hw)
  · cases h
    exact .text _

lemma hereditary_isYaml : Hereditary IsYaml where
  scalar _ _ _ _ h := isYaml_scalarOf h
  link l := .link l
  list _ h := .list h
  pair k v hk hv := .tuple (by simp [hk, hv])
  set vs h := .set fun v hv => by
    rcases Value.mem_elementsOf hv with hv | ⟨i, rfl⟩
    · exact h v (List.mem_eraseDups.mp hv)
    · exact .int i
  map es h := Value.isYaml_entriesOf fun e he => by
    obtain ⟨⟨t, ht⟩, hv⟩ := h e he
    exact ⟨ht ▸ .text t, hv⟩
  unfold _ _ hc hv := Value.isYaml_unfold hc hv
  pruned _ h := Value.isYaml_pruned h

namespace Tree

mutual

/-- Tuples have the trees of lists, and all mappings those of plain ones. -/
theorem ofValue_normalize : (v : Value) → ofValue v.normalize = ofValue v
  | .null | .scalar _ | .range .. | .sequence .. | .set false _ | .set true _ | .alias _ => rfl
  | .list xs => by rw [Value.normalize, ofValue, ofValue, ofItems_normalizeAll xs]
  | .tuple xs => by rw [Value.normalize, ofValue, ofValue, ofItems_normalizeAll xs]
  | .map o es => by rw [Value.normalize, ofValue, ofValue, ofEntries_normalizeEntries es]
  | .anchor l v => by
    have hidentity : v.normalize.hasIdentity = v.hasIdentity := by cases v <;> rfl
    rw [Value.normalize, ofValue, ofValue, ofValue_normalize v, hidentity]

theorem ofItems_normalizeAll : (vs : List Value) → ofItems (Value.normalizeAll vs) = ofItems vs
  | [] => rfl
  | v :: vs => by rw [Value.normalizeAll, ofItems, ofItems, ofValue_normalize v, ofItems_normalizeAll vs]

theorem ofEntries_normalizeEntries : (es : List (Value × Value)) → ofEntries (Value.normalizeEntries es) = ofEntries es
  | [] => rfl
  | (k, v) :: es => by
    rw [Value.normalizeEntries, ofEntries, ofEntries, ofValue_normalize v, ofEntries_normalizeEntries es]

end

section Success

variable {vs : List Value} {es : List (Value × Value)}

lemma ofItems_isOk_iff : (∃ ts, ofItems vs = .ok ts) ↔ ∀ v ∈ vs, ∃ t, ofValue v = .ok t := by
  induction vs with
  | nil => exact iff_of_true ⟨_, rfl⟩ nofun
  | cons v vs ih =>
    rw [List.forall_mem_cons, ← ih, ofItems, isOk_bind_iff, ← exists_and_right]
    exact exists_congr fun t => and_congr_right fun _ => isOk_map_iff

lemma ofEntries_isOk_iff : (∃ ts, ofEntries es = .ok ts) ↔
    ∀ e ∈ es, (∃ t, ofValue e.1 = .ok t) ∧ ∃ t, ofValue e.2 = .ok t := by
  induction es with
  | nil => exact iff_of_true ⟨_, rfl⟩ nofun
  | cons e es ih =>
    rw [List.forall_mem_cons, ← ih, ofEntries, isOk_bind_iff, and_assoc, ← exists_and_right]
    refine exists_congr fun k => and_congr_right fun _ => ?_
    rw [isOk_bind_iff, ← exists_and_right]
    exact exists_congr fun t => and_congr_right fun _ => isOk_map_iff

end Success

/-- What keeps a value from having a tree: a part that contains itself, or an integer with too many digits. -/
def Finite (v : Value) : Prop := v.isCyclic = false ∧ Value.Writable v.integers

section Finite

variable {vs : List Value} {es : List (Value × Value)}

lemma finite_all : (Value.anyCyclic vs = false ∧ Value.Writable (Value.integersAll vs)) ↔ ∀ v ∈ vs, Finite v := by
  induction vs with
  | nil => simp [Value.anyCyclic, Value.integersAll, Value.Writable]
  | cons v vs ih =>
    rw [List.forall_mem_cons, ← ih, Value.anyCyclic, Value.integersAll, Bool.or_eq_false_iff, Value.writable_append,
      Finite]
    tauto

lemma finite_entries : (Value.anyEntryCyclic es = false ∧ Value.Writable (Value.integersEntries es)) ↔
    ∀ e ∈ es, Finite e.1 ∧ Finite e.2 := by
  induction es with
  | nil => simp [Value.anyEntryCyclic, Value.integersEntries, Value.Writable]
  | cons e es ih =>
    rw [List.forall_mem_cons, ← ih, Value.anyEntryCyclic, Value.integersEntries, Bool.or_eq_false_iff,
      Bool.or_eq_false_iff, Value.writable_append, Value.writable_append, Finite, Finite]
    tauto

end Finite

/-- A value of a type that YAML has is represented by a tree unless some part contains itself or some integer has too
many digits. -/
theorem ofValue_isOk_iff {v : Value} (h : IsYaml v) : (∃ t, ofValue v = .ok t) ↔ Finite v := by
  have hplain {v : Value} {t : Tree} (ht : ofValue v = .ok t) (hc : v.isCyclic = false) (hi : v.integers = []) :
      (∃ t, ofValue v = .ok t) ↔ Finite v :=
    iff_of_true ⟨t, ht⟩ ⟨hc, by simp [hi, Value.Writable]⟩
  induction h with
  | int i =>
    have hwrite : (∃ t, ofValue (.int i) = .ok t) ↔ ∃ t, Numeral.writeInteger i = .ok t := by
      rw [ofValue, ofScalar]
      cases Numeral.writeInteger i with
      | error fault => exact iff_of_false (fun h => nomatch h.choose_spec) fun h => nomatch h.choose_spec
      | ok t => exact iff_of_true ⟨_, rfl⟩ ⟨_, rfl⟩
    rw [hwrite, Numeral.writeInteger_isOk_iff, Finite, Value.integers]
    simp [Value.Writable, Value.isCyclic]
  | list _ ih =>
    rw [ofValue, isOk_map_iff, ofItems_isOk_iff, forall₂_congr ih, ← finite_all]
    rfl
  | tuple _ ih =>
    rw [ofValue, isOk_map_iff, ofItems_isOk_iff, forall₂_congr ih, ← finite_all]
    rfl
  | map _ _ ihk ihv =>
    rw [ofValue, isOk_map_iff, ofEntries_isOk_iff, forall₂_congr fun e he => and_congr (ihk e he) (ihv e he),
      ← finite_entries]
    rfl
  | set _ ih =>
    rw [ofValue, isOk_map_iff, ofItems_isOk_iff, forall₂_congr ih, ← finite_all]
    rfl
  | anchor _ ih =>
    rw [ofValue, isOk_map_iff]
    exact ih
  | link l => exact iff_of_false (fun h => nomatch h.choose_spec) fun h => nomatch h.1
  | _ => exact hplain rfl rfl rfl

end Tree

end Yaml

end DocPath
