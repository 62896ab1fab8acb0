import DocPath.Failure
import DocPath.Proofs.Yaml.Coming

/-! Nodes whose tag does not suit them. Where a value is made of such a node, the error may be of a kind that callers are
not told of. -/

namespace DocPath

/-- The kinds of errors that callers who decode are told of: those of YAML, and those about an unsuitable value. -/
def ErrorKind.IsDocumented (k : ErrorKind) : Prop := k.isA .yaml = true ∨ k.isA .value = true

instance (k : ErrorKind) : Decidable k.IsDocumented := inferInstanceAs (Decidable (_ ∨ _))

namespace Yaml

lemma isDocumented_of_isMarked {fault : Fault} (h : fault.isMarked = true) : fault.errorKind.IsDocumented := by
  cases fault with
  | marked stage => cases stage <;> exact .inl rfl
  | _ => cases h

namespace Make

open Relation

/-- A mapping has a node at a `=` key that comes to it, so that the text of this node may count as its own. -/
inductive Signs (d : Document) : Node → Node → Prop
  | key {h : Head} {own : List (Node × Node)} {e : Node × Node} (comes : Comes d (.mapping h own) e)
      (sign : (follow d.source e.1).head.tag = Tag.value) : Signs d (.mapping h own) (follow d.source e.2)

/-- A text may count as that of a node. -/
def Tells (d : Document) (n : Node) (t : Text) : Prop := ∃ h, ReflTransGen (Signs d) n (.scalar h t)

/-- A node with a tag that does not suit it, so that there may be a fault. -/
inductive Misfit (d : Document) : Node → Fault → Prop
  | text {n : Node} {t : Text} {fault : Fault} (tells : Tells d n t) (misread : Misread n.head.tag t fault) :
      Misfit d n fault
  /-- A mapping is no time, whatever text it has. -/
  | time {h : Head} {own : List (Node × Node)} {t : Text} (tells : Tells d (.mapping h own) t)
      (tag : h.tag = Tag.timestamp) : Misfit d (.mapping h own) .timeWithoutText
  /-- A sequence whose items would have to be entries. -/
  | items {h : Head} {item : Node} {items : List Node} (tag : h.tag = Tag.mapping) :
      Misfit d (.sequence h (item :: items)) (.itemAsEntry (follow d.source item).kind)
  /-- Whose text would be its own text. -/
  | endless {n : Node} (loop : TransGen (Signs d) n n) : Misfit d n .endless

/-- A fault of a kind that callers are told of, or of a node whose tag does not suit it. -/
def Expected (d : Document) (root : Node) (fault : Fault) : Prop :=
  fault.errorKind.IsDocumented ∨ ∃ n ∈ root.parts, Misfit d n fault

section Texts

variable {d : Document} {root n : Node} {s : Making} {fuel : Nat}

/-- There is fuel to find the text of a node: it goes through its own text, or through some nodes before it comes to `n`
and through no more than there are. -/
def Roomy (d : Document) (root : Node) (fuel : Nat) (n : Node) : Prop :=
  (∃ m ∈ root.parts, TransGen (Signs d) m m) ∨ ∃ seen : List Node, seen.Nodup ∧
    (∀ m ∈ seen, m ∈ root.parts ∧ m.isSolid = true ∧ TransGen (Signs d) m (follow d.source n)) ∧
    d.size < seen.length + fuel

lemma roomy_of_lt (h : d.size < fuel) : Roomy d root fuel n :=
  .inr ⟨[], List.nodup_nil, by simp, by rwa [List.length_nil, Nat.zero_add]⟩

lemma Roomy.next {m : Node} (h : Roomy d root (fuel + 1) n) (hn : follow d.source n ∈ root.parts)
    (hsolid : (follow d.source n).isSolid = true) (hsigns : Signs d (follow d.source n) (follow d.source m)) :
    Roomy d root fuel m := by
  rcases h with hloop | ⟨seen, hnodup, hseen, hfuel⟩
  · exact .inl hloop
  · by_cases hmem : follow d.source n ∈ seen
    · exact .inl ⟨_, hn, (hseen _ hmem).2.2⟩
    · refine .inr ⟨_ :: seen, List.nodup_cons.mpr ⟨hmem, hnodup⟩, ?_, by rw [List.length_cons]; omega⟩
      refine List.forall_mem_cons.mpr ⟨⟨hn, hsolid, .single hsigns⟩, fun m hm => ?_⟩
      obtain ⟨hpart, hsolid', hpath⟩ := hseen m hm
      exact ⟨hpart, hsolid', hpath.tail hsigns⟩

lemma Roomy.loop (hd : Numbered d root) (h : Roomy d root 0 n) : ∃ m ∈ root.parts, TransGen (Signs d) m m := by
  rcases h with hloop | ⟨seen, hnodup, hseen, hfuel⟩
  · exact hloop
  · have hids : (seen.map (·.head.id)).Nodup := hnodup.map_on fun m hm m' hm' heq =>
      hd.unique m (hseen m hm).1 (hseen m hm).2.1 m' (hseen m' hm').1 (hseen m' hm').2.1 heq
    have hlength := length_le_of_bounded hids
      (List.forall_mem_map.mpr fun m hm => hd.bounded m (hseen m hm).1 (hseen m hm).2.1)
    rw [List.length_map] at hlength
    exact absurd hfuel (by omega)

lemma expected_of_isMarked {fault : Fault} (h : fault.isMarked = true) : Expected d root fault :=
  .inl (isDocumented_of_isMarked h)

/-- The text that is found for a node may count as its own, and nothing changes. -/
theorem textOf_tells (hd : Numbered d root) (hn : n ∈ root.parts) (hs : Sourced d root s) (hroom : Roomy d root fuel n) :
    Yields (Expected d root) (textOf d.source fuel n s) fun t s' => s' = s ∧ Tells d (follow d.source n) t := by
  induction fuel generalizing n with
  | zero =>
    obtain ⟨m, hm, hloop⟩ := hroom.loop hd
    exact .inr ⟨m, hm, .endless hloop⟩
  | succ fuel ih =>
    have hm := follow_mem hd hn
    rw [textOf]
    cases heq : follow d.source n with
    | scalar h u => exact .of_eq rfl ⟨rfl, h, .refl⟩
    | mapping h own =>
      refine .step (a := entriesNow s h own) (t := s) rfl (.step (a := s) (t := s) rfl ?_)
      dsimp only
      cases hfound : (entriesNow s h own).find? _ with
      | none => exact expected_of_isMarked rfl
      | some e =>
        rw [heq] at hm
        have hcomes := hs.comes h own hm e (List.mem_of_find?_eq_some hfound)
        have hsign := List.find?_some hfound
        rw [Bool.and_eq_true, beq_iff_eq] at hsign
        have hsigns : Signs d (.mapping h own) (follow d.source e.2) := .key hcomes hsign.1
        refine (ih (hcomes.isEntry hd hm).parts.2 (hroom.next (heq ▸ hm) (heq ▸ rfl) (heq ▸ hsigns))).mono ?_
        rintro t s' ⟨rfl, g, hpath⟩
        exact ⟨rfl, g, .head hsigns hpath⟩
    | _ => exact expected_of_isMarked rfl

end Texts

end Make

end Yaml

end DocPath
