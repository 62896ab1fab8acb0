import DocPath.Yaml.Node
import Mathlib.Data.List.Basic

/-! The parts of a node: itself and all that lies in it. -/

namespace DocPath.Yaml

namespace Node

/-- The nodes directly inside a node. -/
def children : Node → List Node
  | .sequence _ ns => ns
  | .mapping _ es => es.flatMap fun e => [e.1, e.2]
  | _ => []

mutual

/-- A node and all nodes inside it, in order. -/
def parts : Node → List Node
  | .sequence h ns => .sequence h ns :: partsAll ns
  | .mapping h es => .mapping h es :: partsEntries es
  | n => [n]

def partsAll : List Node → List Node
  | [] => []
  | n :: ns => parts n ++ partsAll ns

def partsEntries : List (Node × Node) → List Node
  | [] => []
  | (k, v) :: es => parts k ++ (parts v ++ partsEntries es)

end

lemma mem_parts_self (n : Node) : n ∈ n.parts := by
  cases n <;> simp [parts]

lemma mem_partsAll {ns : List Node} {m : Node} : m ∈ partsAll ns ↔ ∃ n ∈ ns, m ∈ n.parts := by
  induction ns with
  | nil => simp [partsAll]
  | cons n ns ih => simp [partsAll, ih]

lemma mem_partsEntries {es : List (Node × Node)} {m : Node} :
    m ∈ partsEntries es ↔ ∃ e ∈ es, m ∈ e.1.parts ∨ m ∈ e.2.parts := by
  induction es with
  | nil => simp [partsEntries]
  | cons e es ih =>
    obtain ⟨k, v⟩ := e
    simp [partsEntries, ih, or_assoc]

/-- The parts of a node are itself and those of its children. -/
lemma mem_parts {n m : Node} : m ∈ n.parts ↔ m = n ∨ ∃ c ∈ n.children, m ∈ c.parts := by
  cases n with
  | sequence h ns => simp [parts, children, mem_partsAll]
  | mapping h es =>
    simp only [parts, children, List.mem_cons, mem_partsEntries, List.mem_flatMap, List.not_mem_nil, or_false]
    constructor
    · rintro (rfl | ⟨e, he, hm | hm⟩)
      · exact .inl rfl
      · exact .inr ⟨_, ⟨e, he, .inl rfl⟩, hm⟩
      · exact .inr ⟨_, ⟨e, he, .inr rfl⟩, hm⟩
    · rintro (rfl | ⟨c, ⟨e, he, rfl | rfl⟩, hm⟩)
      · exact .inl rfl
      · exact .inr ⟨e, he, .inl hm⟩
      · exact .inr ⟨e, he, .inr hm⟩
  | _ => simp [parts, children]

end Node

open Yaml.Node

mutual

/-- The children of a part are parts. -/
theorem Node.parts_trans (n : Node) {m c : Node} (hm : m ∈ n.parts) (hc : c ∈ m.children) : c ∈ n.parts := by
  cases n with
  | sequence h ns =>
    rcases List.mem_cons.mp hm with rfl | hm
    · exact List.mem_cons_of_mem _ (mem_partsAll.mpr ⟨c, hc, mem_parts_self c⟩)
    · exact List.mem_cons_of_mem _ (partsAll_trans ns hm hc)
  | mapping h es =>
    rcases List.mem_cons.mp hm with rfl | hm
    · refine mem_parts.mpr (.inr ⟨c, hc, mem_parts_self c⟩)
    · exact List.mem_cons_of_mem _ (partsEntries_trans es hm hc)
  | scalar h t =>
    obtain rfl := List.mem_singleton.mp hm
    exact absurd hc (List.not_mem_nil)
  | «alias» id =>
    obtain rfl := List.mem_singleton.mp hm
    exact absurd hc (List.not_mem_nil)

theorem Node.partsAll_trans (ns : List Node) {m c : Node} (hm : m ∈ partsAll ns) (hc : c ∈ m.children) :
    c ∈ partsAll ns := by
  cases ns with
  | nil => exact absurd hm (List.not_mem_nil)
  | cons n ns =>
    rcases List.mem_append.mp hm with hm | hm
    · exact List.mem_append_left _ (Node.parts_trans n hm hc)
    · exact List.mem_append_right _ (partsAll_trans ns hm hc)

theorem Node.partsEntries_trans (es : List (Node × Node)) {m c : Node} (hm : m ∈ partsEntries es)
    (hc : c ∈ m.children) : c ∈ partsEntries es := by
  match es, hm with
  | [], hm => exact absurd hm (List.not_mem_nil)
  | (k, v) :: es, hm =>
    rcases List.mem_append.mp hm with hm | hm
    · exact List.mem_append_left _ (Node.parts_trans k hm hc)
    · rcases List.mem_append.mp hm with hm | hm
      · exact List.mem_append_right _ (List.mem_append_left _ (Node.parts_trans v hm hc))
      · exact List.mem_append_right _ (List.mem_append_right _ (partsEntries_trans es hm hc))

end

end DocPath.Yaml
