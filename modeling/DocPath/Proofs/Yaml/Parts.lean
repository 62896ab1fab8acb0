import DocPath.Proofs.Yaml.Compose
import DocPath.Proofs.Yaml.Nodes
import DocPath.Yaml.Meaning
import Mathlib.Data.List.Nodup

/-! The parts of a composed document. Their numbers tell them apart, and a part inside another has a greater
one. -/

namespace DocPath.Yaml

open Yaml.Node

mutual

/-- The parts of a node are numbered in order. -/
theorem Shape.ids (t : Tree) {lo hi : Nat} {n : Node} (h : Shape lo n t hi) :
    n.parts.map (·.head.id) = List.range' lo (hi - lo) ∧ lo < hi := by
  cases t with
  | scalar tag t =>
    obtain ⟨m, rfl, rfl⟩ := h
    simp [parts, head]
  | sequence ts =>
    obtain ⟨m, ns, rfl, hs⟩ := h
    obtain ⟨hids, hle⟩ := ShapeAll.ids ts hs
    refine ⟨?_, hle⟩
    rw [parts, List.map_cons, hids, show hi - lo = (hi - (lo + 1)) + 1 by omega, List.range'_succ]
    rfl
  | mapping tag es =>
    obtain ⟨m, ns, rfl, hs⟩ := h
    obtain ⟨hids, hle⟩ := ShapeEntries.ids es hs
    refine ⟨?_, hle⟩
    rw [parts, List.map_cons, hids, show hi - lo = (hi - (lo + 1)) + 1 by omega, List.range'_succ]
    rfl
  | literal tag lines => exact absurd h id
  | shared l t => exact absurd h id

theorem ShapeAll.ids (ts : List Tree) {lo hi : Nat} {ns : List Node} (h : ShapeAll lo ns ts hi) :
    (partsAll ns).map (·.head.id) = List.range' lo (hi - lo) ∧ lo ≤ hi := by
  cases ts with
  | nil =>
    obtain ⟨rfl, rfl⟩ := h
    simp [partsAll]
  | cons t ts =>
    obtain ⟨n, ms, mid, rfl, hn, hms⟩ := h
    obtain ⟨hids, hlt⟩ := Shape.ids t hn
    obtain ⟨hids', hle⟩ := ShapeAll.ids ts hms
    refine ⟨?_, by omega⟩
    rw [partsAll, List.map_append, hids, hids', show mid = lo + (mid - lo) by omega, Nat.add_sub_cancel_left,
      List.range'_append_1]
    congr 1
    omega

theorem ShapeEntries.ids (es : List (Tree × Tree)) {lo hi : Nat} {ns : List (Node × Node)}
    (h : ShapeEntries lo ns es hi) :
    (partsEntries ns).map (·.head.id) = List.range' lo (hi - lo) ∧ lo ≤ hi := by
  match es, h with
  | [], h =>
    obtain ⟨rfl, rfl⟩ := h
    simp [partsEntries]
  | (k, v) :: es, h =>
    obtain ⟨n, m, ms, a, b, rfl, hn, hm, hms⟩ := h
    obtain ⟨hids, hlt⟩ := Shape.ids k hn
    obtain ⟨hids', hlt'⟩ := Shape.ids v hm
    obtain ⟨hids'', hle⟩ := ShapeEntries.ids es hms
    refine ⟨?_, by omega⟩
    rw [partsEntries, List.map_append, List.map_append, hids, hids', hids'']
    rw [show b = a + (b - a) by omega, Nat.add_sub_cancel_left, List.range'_append_1,
      show a = lo + (a - lo) by omega, Nat.add_sub_cancel_left, List.range'_append_1]
    congr 1
    omega

end

/-- The tags of null, truth values, numbers and texts. -/
def plainTags : List Text := [Tag.null, Tag.boolean, Tag.integer, Tag.float, Tag.string]

/-- The value of a scalar with such a tag. -/
def plainScalar (tag t : Text) : Except Fault Value :=
  if tag = Tag.null then .ok .null
  else if tag = Tag.boolean then Scalar.boolean t
  else if tag = Tag.integer then Scalar.integer t
  else if tag = Tag.float then Scalar.float t
  else .ok (.text t)

/-- A scalar that has such a value. -/
def IsReadable (tag t : Text) : Prop := tag ∈ plainTags ∧ ∃ v, plainScalar tag t = .ok v

/-- A scalar whose value has a name. -/
structure IsName (tag t : Text) : Prop where
  readable : IsReadable tag t
  name : ∃ v name, plainScalar tag t = .ok v ∧ v.asName = .ok name

/-- The name of the value of a scalar. -/
def scalarName (tag t : Text) : Text := ((plainScalar tag t).toOption.bind fun v => v.asName.toOption).getD []

lemma isName_string (t : Text) : IsName Tag.string t := ⟨⟨by simp [plainTags], .text t, rfl⟩, .text t, t, rfl, rfl⟩

lemma eq_of_plainScalar {tag t : Text} {v : Value} (h : plainScalar tag t = .ok v) : v = .null ∨ ∃ s, v = .scalar s := by
  unfold plainScalar at h
  split_ifs at h
  · exact .inl (Except.ok.inj h).symm
  · unfold Scalar.boolean at h
    dsimp only at h
    split_ifs at h
    · exact .inr ⟨_, (Except.ok.inj h).symm⟩
    · exact .inr ⟨_, (Except.ok.inj h).symm⟩
  · obtain ⟨p, -, h⟩ := bind_eq_ok h
    obtain ⟨i, -, h⟩ := bind_eq_ok h
    exact .inr ⟨_, (Except.ok.inj h).symm⟩
  · obtain ⟨p, -, h⟩ := bind_eq_ok h
    obtain ⟨x, -, h⟩ := bind_eq_ok h
    exact .inr ⟨_, (Except.ok.inj h).symm⟩
  · exact .inr ⟨_, (Except.ok.inj h).symm⟩

mutual

/-- All scalars in a tree have values, and all keys have names. -/
def Readable : Tree → Prop
  | .scalar tag t => IsReadable tag t
  | .sequence ts => ReadableAll ts
  | .mapping tag es => tag = Tag.mapping ∧ ReadableEntries es
  | _ => False

def ReadableAll : List Tree → Prop
  | [] => True
  | t :: ts => Readable t ∧ ReadableAll ts

def ReadableEntries : List (Tree × Tree) → Prop
  | [] => True
  | (k, v) :: es => (∃ tag t, k = .scalar tag t ∧ IsName tag t) ∧ Readable v ∧ ReadableEntries es

end

/-- What a node is by itself: a scalar that has a value, a sequence, or a mapping whose keys have names. -/
def Node.Sound : Node → Prop
  | .scalar h t => IsReadable h.tag t
  | .sequence h _ => h.tag = Tag.sequence
  | .mapping h es => h.tag = Tag.mapping ∧ ∀ e ∈ es, ∃ g t, e.1 = .scalar g t ∧ IsName g.tag t
  | .alias _ => False

/-- The parts of a document, told apart by their numbers. -/
structure Whole (root : Node) (size : Nat) : Prop where
  sound : ∀ m ∈ root.parts, m.Sound
  later : ∀ m ∈ root.parts, ∀ c ∈ m.children, m.head.id < c.head.id
  unique : ∀ m ∈ root.parts, ∀ m' ∈ root.parts, m.head.id = m'.head.id → m = m'
  bounded : ∀ m ∈ root.parts, m.head.id < size

lemma le_of_ids {ns : List Node} {lo n : Nat} (h : ns.map (·.head.id) = List.range' lo n) :
    ∀ m ∈ ns, lo ≤ m.head.id ∧ m.head.id < lo + n := by
  intro m hm
  have := List.mem_map_of_mem (f := (·.head.id)) hm
  rw [h, List.mem_range'_1] at this
  exact this

mutual

theorem Shape.sound (t : Tree) (ht : Readable t) {lo hi : Nat} {n : Node} (h : Shape lo n t hi) :
    ∀ m ∈ n.parts, m.Sound ∧ ∀ c ∈ m.children, m.head.id < c.head.id := by
  cases t with
  | scalar tag t =>
    obtain ⟨m, rfl, rfl⟩ := h
    intro m hm
    obtain rfl := List.mem_singleton.mp hm
    exact ⟨ht, by simp [children]⟩
  | sequence ts =>
    obtain ⟨m, ns, rfl, hs⟩ := h
    intro m hm
    rcases List.mem_cons.mp hm with rfl | hm
    · refine ⟨rfl, fun c hc => ?_⟩
      exact (le_of_ids (ShapeAll.ids ts hs).1 c (mem_partsAll.mpr ⟨c, hc, mem_parts_self c⟩)).1
    · exact ShapeAll.sound ts ht hs m hm
  | mapping tag es =>
    obtain ⟨m, ns, rfl, hs⟩ := h
    obtain ⟨rfl, ht⟩ := ht
    obtain ⟨hkeys, hsound⟩ := ShapeEntries.sound es ht hs
    intro m hm
    rcases List.mem_cons.mp hm with rfl | hm
    · refine ⟨⟨rfl, hkeys⟩, fun c hc => ?_⟩
      obtain ⟨e, he, hc⟩ := List.mem_flatMap.mp hc
      have hpart : c ∈ partsEntries ns := by
        rw [mem_partsEntries]
        rcases List.mem_pair.mp hc with rfl | rfl
        · exact ⟨e, he, .inl (mem_parts_self _)⟩
        · exact ⟨e, he, .inr (mem_parts_self _)⟩
      exact (le_of_ids (ShapeEntries.ids es hs).1 c hpart).1
    · exact hsound m hm
  | literal tag lines => exact absurd h id
  | shared l t => exact absurd h id

theorem ShapeAll.sound (ts : List Tree) (ht : ReadableAll ts) {lo hi : Nat} {ns : List Node}
    (h : ShapeAll lo ns ts hi) : ∀ m ∈ partsAll ns, m.Sound ∧ ∀ c ∈ m.children, m.head.id < c.head.id := by
  cases ts with
  | nil =>
    obtain ⟨rfl, rfl⟩ := h
    simp [partsAll]
  | cons t ts =>
    obtain ⟨n, ms, mid, rfl, hn, hms⟩ := h
    intro m hm
    rcases List.mem_append.mp hm with hm | hm
    · exact Shape.sound t ht.1 hn m hm
    · exact ShapeAll.sound ts ht.2 hms m hm

theorem ShapeEntries.sound (es : List (Tree × Tree)) (ht : ReadableEntries es) {lo hi : Nat}
    {ns : List (Node × Node)} (h : ShapeEntries lo ns es hi) :
    (∀ e ∈ ns, ∃ g t, e.1 = .scalar g t ∧ IsName g.tag t) ∧
      ∀ m ∈ partsEntries ns, m.Sound ∧ ∀ c ∈ m.children, m.head.id < c.head.id := by
  match es, ht, h with
  | [], _, h =>
    obtain ⟨rfl, rfl⟩ := h
    simp [partsEntries]
  | (k, v) :: es, ht, h =>
    obtain ⟨⟨tag, t, rfl, hname⟩, hv, hes⟩ := ht
    obtain ⟨n, m, ms, a, b, rfl, ⟨start, rfl, rfl⟩, hm, hms⟩ := h
    obtain ⟨hkeys, hsound⟩ := ShapeEntries.sound es hes hms
    have hvalue := Shape.sound v hv hm
    constructor
    · intro e he
      rcases List.mem_cons.mp he with rfl | he
      · exact ⟨_, _, rfl, hname⟩
      · exact hkeys e he
    · intro c hc
      rcases List.mem_append.mp hc with hc | hc
      · obtain rfl := List.mem_singleton.mp hc
        exact ⟨hname.readable, by simp [children]⟩
      · rcases List.mem_append.mp hc with hc | hc
        · exact hvalue c hc
        · exact hsound c hc

end

theorem Shape.whole {t : Tree} (ht : Readable t) {lo hi : Nat} {n : Node} (h : Shape lo n t hi) : Whole n hi := by
  obtain ⟨hids, hlt⟩ := Shape.ids t h
  refine ⟨fun m hm => (Shape.sound t ht h m hm).1, fun m hm => (Shape.sound t ht h m hm).2, ?_, ?_⟩
  · have hnodup : (n.parts.map (·.head.id)).Nodup := by
      rw [hids]
      exact List.nodup_range'
    exact fun m hm m' hm' he => List.inj_on_of_nodup_map hnodup hm hm' he
  · intro m hm
    have := (le_of_ids hids m hm).2
    omega

end DocPath.Yaml
