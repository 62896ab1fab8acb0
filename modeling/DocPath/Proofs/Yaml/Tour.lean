import DocPath.Proofs.Yaml.Objects
import Mathlib.Logic.Relation

/-! The order in which the collections of a document are made, as far as the nodes alone tell: the entries of a mapping are
gone through as soon as it is met, and all other collections wait. The keys of mappings lie beside the way. A mapping that
is looked through takes up all that it merges. What is merged before it is met itself is met with the entries that it has
come to have, with their names. -/

namespace DocPath.Yaml.Make

/-- The nodes that are in a collection, in order, but for the keys of mappings. -/
def inside (d : Document) : Node → List Node
  | .sequence h items =>
    if h.tag = Tag.sequence then items else items.flatMap fun n => sides (flatOf d (follow d.source n).entries)
  | .mapping h own => if h.tag = Tag.mapping then (flatOf d own).map (·.2) else sides (flatOf d own)
  | _ => []

/-- A place on the way through a document. -/
structure Tour where
  /-- The nodes that are met next. -/
  ahead : List Node
  /-- The collections that are filled after that. -/
  waiting : List Node
  /-- The numbers of the collections that have been met. -/
  visited : List Nat
  /-- The collections that have been looked through. -/
  opened : List Node

namespace Tour

def start (root : Node) : Tour := ⟨[root], [], [], []⟩

/-- What comes after a node is met: nothing new if it is no collection or has been met before. -/
def visit (d : Document) (t : Tour) (n : Node) (ahead : List Node) : Tour :=
  if isCollectionTag n.head.tag = true ∧ n.head.id ∉ t.visited then
    if n.head.tag = Tag.mapping then ⟨inside d n ++ ahead, t.waiting, n.head.id :: t.visited, n :: t.opened⟩
    else ⟨ahead, t.waiting ++ [n], n.head.id :: t.visited, t.opened⟩
  else { t with ahead := ahead }

def next? (d : Document) (t : Tour) : Option Tour :=
  match t.ahead, t.waiting with
  | n :: ahead, _ => some (t.visit d (follow d.source n) ahead)
  | [], n :: waiting => some ⟨inside d n, waiting, t.visited, n :: t.opened⟩
  | [], [] => none

/-- A node is met for the first time. -/
def Meets (d : Document) (t : Tour) (n : Node) : Prop :=
  ∃ c ahead, t.ahead = c :: ahead ∧ follow d.source c = n ∧ n.head.id ∉ t.visited

/-- A node has been merged into a collection that has been looked through. -/
def Absorbed (d : Document) (t : Tour) (n : Node) : Prop := ∃ x ∈ t.opened, Absorbs d.source x n

/-- If a mapping is met that has been merged before, no name is there twice once what it merges has come in. -/
def Good (d : Document) (root : Node) (t : Tour) : Prop :=
  ∀ n, t.Meets d n → n.head.tag = Tag.mapping → t.Absorbed d n → (names d root (flatOf d n.entries)).Nodup

/-- The next place, if the present one is good. -/
def Passes (d : Document) (root : Node) (t t' : Tour) : Prop := t.next? d = some t' ∧ t.Good d root

end Tour

/-- The places that are come to from a node. -/
def OnTour (d : Document) (root : Node) : Tour → Prop :=
  Relation.ReflTransGen (fun t t' => t.next? d = some t') (.start root)

/-- The places that are come to past good ones only. -/
def Passed (d : Document) (root : Node) : Tour → Prop := Relation.ReflTransGen (Tour.Passes d root) (.start root)

/-- Some mapping is merged before it is met itself, and a name is there twice once what it merges has come in. -/
def Collides (d : Document) (root : Node) : Prop := ∃ t, OnTour d root t ∧ ¬t.Good d root

section Places

variable {d : Document} {root n c : Node} {t t' : Tour} {ahead waiting : List Node}

lemma Tour.next?_cons (h : t.ahead = c :: ahead) : t.next? d = some (t.visit d (follow d.source c) ahead) := by
  rw [Tour.next?, h]

lemma Tour.next?_nil (h : t.ahead = []) (hw : t.waiting = n :: waiting) :
    t.next? d = some ⟨inside d n, waiting, t.visited, n :: t.opened⟩ := by
  rw [Tour.next?, h, hw]

lemma Tour.good_of_nil (h : t.ahead = []) : t.Good d root := by
  rintro n ⟨c, ahead, hahead, -⟩
  rw [h] at hahead
  cases hahead

lemma Tour.good_of_cons (h : t.ahead = c :: ahead)
    (hgood : (follow d.source c).head.id ∉ t.visited → (follow d.source c).head.tag = Tag.mapping →
      t.Absorbed d (follow d.source c) → (names d root (flatOf d (follow d.source c).entries)).Nodup) :
    t.Good d root := by
  rintro n ⟨c', ahead', hahead, rfl, hnew⟩
  rw [h] at hahead
  cases hahead
  exact hgood hnew

/-- On the way to the end past good places there are no others, since one place comes after another. -/
lemma good_of_passes {u : Tour} (hpasses : Relation.ReflTransGen (Tour.Passes d root) u t) (hend : t.next? d = none)
    (hcomes : Relation.ReflTransGen (fun t t' => t.next? d = some t') u t') : t'.Good d root := by
  -- step by step along both ways, which cannot part
  induction hpasses using Relation.ReflTransGen.head_induction_on with
  | refl =>
    rcases hcomes.cases_head with rfl | ⟨u, hnext, -⟩
    · cases hahead : t.ahead with
      | nil => exact Tour.good_of_nil hahead
      | cons c ahead =>
        rw [Tour.next?_cons hahead] at hend
        cases hend
    · rw [hend] at hnext
      cases hnext
  | head hpass _ ih =>
    rcases hcomes.cases_head with rfl | ⟨u, hnext, hcomes⟩
    · exact hpass.2
    · obtain rfl := Option.some.inj (hpass.1.symm.trans hnext)
      exact ih hcomes

theorem Passed.not_collides (h : Passed d root t) (hend : t.next? d = none) : ¬Collides d root :=
  fun ⟨_, hcomes, hbad⟩ => hbad (good_of_passes h hend hcomes)

lemma Passed.onTour (h : Passed d root t) : OnTour d root t :=
  Relation.ReflTransGen.mono (fun _ _ hpasses => hpasses.1) _ _ h

lemma Passed.good (h : Passed d root t) (hno : ¬Collides d root) : t.Good d root :=
  Classical.not_not.mp fun hbad => hno ⟨t, h.onTour, hbad⟩

end Places

section Sources

variable {d : Document} {root n c : Node} {t t' : Tour}

lemma inside_mem (hd : Numbered d root) (hn : n ∈ root.parts) (hc : c ∈ inside d n) : c ∈ root.parts := by
  cases n with
  | sequence h items =>
    rw [inside] at hc
    split_ifs at hc
    · exact Node.parts_trans root hn hc
    · obtain ⟨m, hm, hc⟩ := List.mem_flatMap.mp hc
      exact sides_mem (isEntry_flatOf hd (follow_mem hd (Node.parts_trans root hn hm))) hc
  | mapping h own =>
    rw [inside] at hc
    split_ifs at hc
    · obtain ⟨e, he, rfl⟩ := List.mem_map.mp hc
      exact (isEntry_flatOf hd hn e he).parts.2
    · exact sides_mem (isEntry_flatOf hd hn) hc
  | _ => exact absurd hc List.not_mem_nil

/-- A place in a document: mappings do not wait, and have been met if they have been looked through. -/
structure Tour.Within (root : Node) (t : Tour) : Prop where
  ahead : ∀ n ∈ t.ahead, n ∈ root.parts
  waiting : ∀ n ∈ t.waiting, n ∈ root.parts ∧ n.head.tag ≠ Tag.mapping
  opened : ∀ n ∈ t.opened, n ∈ root.parts ∧ (n.head.tag = Tag.mapping → n.head.id ∈ t.visited)

lemma Tour.Within.next (hd : Numbered d root) (h : t.Within root) (hnext : t.next? d = some t') : t'.Within root := by
  have hopened (id : Nat) : ∀ n ∈ t.opened, n ∈ root.parts ∧ (n.head.tag = Tag.mapping → n.head.id ∈ id :: t.visited) :=
    fun n hn => (h.opened n hn).imp_right fun hmet htag => List.mem_cons_of_mem _ (hmet htag)
  cases hahead : t.ahead with
  | cons c ahead =>
    have hall := h.ahead
    rw [hahead, List.forall_mem_cons] at hall
    obtain ⟨hc, hall⟩ := hall
    have hn := follow_mem hd hc
    rw [Tour.next?_cons hahead, Tour.visit] at hnext
    split_ifs at hnext with hnew htag
    · cases hnext
      exact ⟨List.forall_mem_append.mpr ⟨fun m => inside_mem hd hn, hall⟩, h.waiting,
        List.forall_mem_cons.mpr ⟨⟨hn, fun _ => List.mem_cons_self⟩, hopened _⟩⟩
    · cases hnext
      exact ⟨hall, List.forall_mem_append.mpr ⟨h.waiting, List.forall_mem_singleton.mpr ⟨hn, htag⟩⟩, hopened _⟩
    · cases hnext
      exact ⟨hall, h.waiting, h.opened⟩
  | nil =>
    cases hwaiting : t.waiting with
    | nil =>
      rw [Tour.next?, hahead, hwaiting] at hnext
      cases hnext
    | cons n waiting =>
      have hall := h.waiting
      rw [hwaiting, List.forall_mem_cons] at hall
      obtain ⟨⟨hn, htag⟩, hall⟩ := hall
      rw [Tour.next?_nil hahead hwaiting] at hnext
      cases hnext
      exact ⟨fun m => inside_mem hd hn, hall,
        List.forall_mem_cons.mpr ⟨⟨hn, fun hmapping => absurd hmapping htag⟩, h.opened⟩⟩

lemma OnTour.within (hd : Numbered d root) (h : OnTour d root t) : t.Within root := by
  induction h with
  | refl => exact ⟨by simp [Tour.start, Node.mem_parts_self], by simp [Tour.start], by simp [Tour.start]⟩
  | tail _ hnext ih => exact ih.next hd hnext

/-- If what is merged never writes a name in place of a merged one, it does not matter when it is met. -/
theorem not_collides_of_distinct (hd : Numbered d root) (h : ∀ n ∈ mergedNodes d root, n.head.tag = Tag.mapping →
    (names d root (flatOf d n.entries)).Nodup) : ¬Collides d root := by
  rintro ⟨t, hcomes, hbad⟩
  refine hbad ?_
  rintro n ⟨c, ahead, -, rfl, hnew⟩ htag ⟨x, hx, habsorbs⟩
  obtain ⟨hpart, hmet⟩ := (hcomes.within hd).opened x hx
  rcases (habsorbs.mem hd hpart).2 with heq | hmerged
  · rw [heq] at hnew htag
    exact absurd (hmet htag) hnew
  · exact h _ hmerged htag

end Sources

end DocPath.Yaml.Make
