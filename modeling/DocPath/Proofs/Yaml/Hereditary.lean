import DocPath.Proofs.Value.Keys
import DocPath.Proofs.Yaml.Keeps
import DocPath.Proofs.Yaml.Naming
import DocPath.Yaml.Reader
import Mathlib.Tactic.SplitIfs

/-! Properties that the values of a document have because the values of its scalars do, in whatever collections they
are and however those are merged. Keys are read as names, so all mappings have texts as keys. -/

namespace DocPath.Yaml

/-- A property that scalars have, that collections have if what lies in them does, and that resolving labels keeps. -/
structure Hereditary (P : Value → Prop) : Prop where
  scalar : ∀ n tag t v, Make.scalarOf n tag t = .ok v → P v
  link : ∀ l, P (.alias l)
  list : ∀ vs, (∀ v ∈ vs, P v) → P (.list vs)
  pair : ∀ k v, P k → P v → P (.tuple [k, v])
  set : ∀ vs : List Value, (∀ v ∈ vs, P v) → P (.set false (Value.elementsOf vs.eraseDups))
  map : ∀ es, (∀ e ∈ es, (∃ t, e.1 = .text t) ∧ P e.2) → P (.map false (Value.entriesOf es))
  unfold : ∀ contents v, (∀ e ∈ contents, P e.2) → P v → P (v.unfold contents)
  pruned : ∀ v, P v → P v.pruned

namespace Hereditary

variable {P : Value → Prop}

lemma null (h : Hereditary P) : P .null := h.scalar (.alias 0) Tag.null [] .null rfl

lemma emptyContent (h : Hereditary P) (tag : Text) : P (Make.emptyContent tag) := by
  rw [Make.emptyContent]
  split_ifs
  · exact h.set [] (by simp)
  · exact h.map [] (by simp)
  · exact h.list [] (by simp)

end Hereditary

namespace Make

variable {P : Value → Prop}

/-- What is made and what collections contain has the property, and no mapping waits to be filled. -/
structure Inherits (P : Value → Prop) (s : Making) : Prop where
  done : ∀ e ∈ s.done, P e.2
  contents : ∀ e ∈ s.contents, P e.2
  pending : ∀ n ∈ s.pending, n.head.tag ≠ Tag.mapping

section Entries

variable {src : Source} {n : Node} {h : Head} {own es : List (Node × Node)} {id : Nat} {v : Value} {α : Type}
  {post : α → Prop}

lemma keeps_failAt {m : Mark} {problem : Problem} : Keeps (Inherits P) (failAt m problem : Make α) post := .fail trivial

lemma keeps_failWithin {context : Context} {start m : Mark} {problem : Problem} :
    Keeps (Inherits P) (failWithin context start m problem : Make α) post := .fail trivial

lemma keeps_tagOf : Keeps (Inherits P) (tagOf n) fun tag => tag = Tag.mapping ↔ n.head.tag = Tag.mapping := by
  have hstring : Tag.string ≠ Tag.mapping := by decide
  have hvalue : Tag.value ≠ Tag.mapping := by decide
  rw [tagOf]
  refine .bind .read fun s _ => ?_
  split_ifs with h
  · exact .pure (by simp [h.1, hstring, hvalue])
  · exact .pure Iff.rfl

lemma keeps_entriesOf : Keeps (Inherits P) (entriesOf h own) fun _ => True :=
  .bind .read fun _ _ => .pure trivial

lemma keeps_setEntries : Keeps (Inherits P) (setEntries h es) fun _ => True :=
  .update fun _ hs => ⟨hs.done, hs.contents, hs.pending⟩

lemma keeps_noteTexts : Keeps (Inherits P) (noteTexts src es) fun _ => True :=
  .update fun _ hs => ⟨hs.done, hs.contents, hs.pending⟩

lemma keeps_setContent (hv : P v) : Keeps (Inherits P) (setContent id v) fun _ => True :=
  .update fun _ hs => ⟨hs.done, List.forall_mem_cons.mpr ⟨hv, hs.contents⟩, hs.pending⟩

lemma keeps_current (hP : Hereditary P) (hv : P v) : Keeps (Inherits P) (current v) P :=
  .bind .read fun _ hs => .pure (hP.unfold _ _ hs.contents hv)

lemma keeps_nameOf : Keeps (Inherits P) (nameOf v) fun _ => True := by
  rw [nameOf]
  have hcurrent : Keeps (Inherits P) (current v) fun _ => True := .bind .read fun _ _ => .pure trivial
  refine .bind hcurrent fun w _ => ?_
  split
  · exact .pure trivial
  · exact .fail trivial

lemma keeps_canBeKey : Keeps (Inherits P) (canBeKey v) fun _ => True := by
  rw [canBeKey.eq_def]
  split <;> exact .pure trivial

lemma keeps_newPart {id place : Nat} (hP : Hereditary P) (hv : P v) : Keeps (Inherits P) (newPart id place v) P :=
  .bind .read fun _ _ => .bind (keeps_setContent hv) fun _ _ => .pure (hP.link _)

end Entries

section Merging

variable {src : Source} {h : Head} {own es : List (Node × Node)} {ns : List Node} {n : Node} {fuel : Nat}
  {flat : Head → List (Node × Node) → Make (List (Node × Node))}

lemma keeps_mergeAll (hflat : ∀ g own, Keeps (Inherits P) (flat g own) fun _ => True) :
    Keeps (Inherits P) (mergeAll src flat h ns) fun _ => True := by
  induction ns with
  | nil => exact .pure trivial
  | cons n ns ih =>
    rw [mergeAll]
    split
    · exact .bind (hflat _ _) fun _ _ => .bind ih fun _ _ => .pure trivial
    · exact keeps_failWithin

lemma keeps_merge (hflat : ∀ g own, Keeps (Inherits P) (flat g own) fun _ => True) :
    Keeps (Inherits P) (merge src flat h n) fun _ => True := by
  rw [merge]
  split
  · exact hflat _ _
  · exact keeps_mergeAll hflat
  · exact keeps_failWithin

lemma keeps_flattenFrom {merged : List (Node × Node)} {passed : Nat} :
    Keeps (Inherits P) (flattenFrom src fuel h own merged passed) fun _ => True := by
  induction fuel generalizing h own merged passed with
  | zero => exact .fail trivial
  | succ fuel ih =>
    rw [flattenFrom]
    refine .bind keeps_entriesOf fun es _ => ?_
    split
    · refine .bind keeps_noteTexts fun _ _ => ?_
      split_ifs
      · exact .pure trivial
      · exact .bind keeps_setEntries fun _ _ => .pure trivial
    · exact .bind keeps_setEntries fun _ _ => .bind (keeps_merge fun _ _ => ih) fun _ _ => ih

lemma keeps_textOf : Keeps (Inherits P) (textOf src fuel n) fun _ => True := by
  induction fuel generalizing n with
  | zero => exact .fail trivial
  | succ fuel ih =>
    rw [textOf]
    split
    · exact .pure trivial
    · refine .bind keeps_entriesOf fun es _ => .bind .read fun s _ => ?_
      dsimp only
      split
      · exact ih
      · exact keeps_failAt
    · exact keeps_failAt

end Merging

section Collections

variable {src : Source} {n : Node} {h : Head} {es : List (Node × Node)} {ns : List Node} {fuel : Nat}
  {key value : Node → Make Value}

lemma keeps_checkNames {seen : List Text} (hkey : ∀ n, Keeps (Inherits P) (key n) P) :
    Keeps (Inherits P) (checkNames src key seen es) fun _ => True := by
  induction es generalizing seen with
  | nil => exact .pure trivial
  | cons e es ih =>
    rw [checkNames]
    refine .bind keeps_tagOf fun tag _ => ?_
    split_ifs
    · exact ih
    · refine .bind (hkey _) fun v _ => .bind keeps_nameOf fun name _ => ?_
      split_ifs
      · exact .fail trivial
      · exact ih

lemma keeps_namedEntries (hkey : ∀ n, Keeps (Inherits P) (key n) P) (hvalue : ∀ n, Keeps (Inherits P) (value n) P) :
    Keeps (Inherits P) (namedEntries key value es) fun es => ∀ e ∈ es, (∃ t, e.1 = .text t) ∧ P e.2 := by
  induction es with
  | nil => exact .pure (by simp)
  | cons e es ih =>
    rw [namedEntries]
    refine .bind (hkey _) fun _ _ => .bind keeps_nameOf fun name _ => .bind (hvalue _) fun x hx => ?_
    exact .bind ih fun es hes => .pure (List.forall_mem_cons.mpr ⟨⟨⟨name, rfl⟩, hx⟩, hes⟩)

lemma keeps_namedMapping (hP : Hereditary P) (hkey : ∀ n, Keeps (Inherits P) (key n) P) (hvalue : ∀ n, Keeps (Inherits P) (value n) P) :
    Keeps (Inherits P) (namedMapping src fuel key value n) P := by
  have hempty : P (.map false []) := hP.map [] (by simp)
  rw [namedMapping.eq_def]
  split
  · refine .bind keeps_entriesOf fun _ _ => .bind (keeps_checkNames hkey) fun _ _ =>
      .bind keeps_flattenFrom fun _ _ => .bind (keeps_namedEntries hkey hvalue) fun es hes => ?_
    exact .pure (hP.map es hes)
  · exact .pure hempty
  · exact .fail trivial
  · exact .pure hempty
  · exact .fail trivial

lemma keeps_keyedEntries (hvalue : ∀ n, Keeps (Inherits P) (value n) P) :
    Keeps (Inherits P) (keyedEntries src value h es) fun es => ∀ e ∈ es, P e.1 := by
  induction es with
  | nil => exact .pure (by simp)
  | cons e es ih =>
    rw [keyedEntries]
    refine .bind (hvalue _) fun k hk => .bind keeps_canBeKey fun b _ => ?_
    split_ifs
    · exact keeps_failWithin
    · exact .bind (hvalue _) fun _ _ => .bind ih fun es hes => .pure (List.forall_mem_cons.mpr ⟨hk, hes⟩)

lemma keeps_fillPairs {context : Context} {before : List Value} (hP : Hereditary P) (hvalue : ∀ n, Keeps (Inherits P) (value n) P)
    (hbefore : ∀ v ∈ before, P v) : Keeps (Inherits P) (fillPairs src value context h before ns) fun _ => True := by
  induction ns generalizing before with
  | nil => exact .pure trivial
  | cons n ns ih =>
    rw [fillPairs]
    split
    · refine .bind keeps_entriesOf fun es _ => ?_
      split
      · refine .bind (hvalue _) fun k hk => .bind (hvalue _) fun x hx => ?_
        refine .bind (keeps_newPart hP (hP.pair k x hk hx)) fun pair hpair => ?_
        have hpairs : ∀ v ∈ before ++ [pair], P v :=
          List.forall_mem_append.mpr ⟨hbefore, List.forall_mem_singleton.mpr hpair⟩
        exact .bind (keeps_setContent (hP.list _ hpairs)) fun _ _ => ih hpairs
      · exact keeps_failWithin
    · exact keeps_failWithin

/-- Whatever is filled later than it is made is no mapping. -/
lemma keeps_fill (hP : Hereditary P) (hn : n.head.tag ≠ Tag.mapping) (hvalue : ∀ n, Keeps (Inherits P) (value n) P) :
    Keeps (Inherits P) (fill src fuel value n) fun _ => True := by
  rw [fill.eq_def]
  refine .bind keeps_tagOf fun tag htag => ?_
  have hmapping : tag ≠ Tag.mapping := fun h => hn (htag.mp h)
  split
  · split
    · exact .bind (.mapM fun n _ => hvalue n) fun vs hvs => keeps_setContent (hP.list vs hvs)
    · exact keeps_failAt
  · split
    · next hcollection =>
      split
      · refine .bind keeps_flattenFrom fun _ _ => .bind (keeps_keyedEntries hvalue) fun es hes => ?_
        rw [if_pos (hcollection.resolve_right hmapping)]
        exact keeps_setContent (hP.set _ (List.forall_mem_map.mpr hes))
      · exact keeps_failAt
    · split
      · exact keeps_fillPairs hP hvalue (by simp)
      · exact keeps_failWithin

end Collections

section Values

variable {src : Source} {fuel : Nat}

/-- The values of all nodes have the property: a node takes one unit of fuel from what makes its value. -/
lemma keeps_value (hP : Hereditary P) (hrule : src.rule = .names) (fuel : Nat) :
    (∀ deep n, Keeps (Inherits P) (value src fuel deep n) P) ∧
    ∀ deep n tag, (n.head.tag = Tag.mapping → tag = Tag.mapping) → Keeps (Inherits P) (make src fuel deep n tag) P := by
  induction fuel with
  | zero =>
    refine ⟨fun deep n => ?_, fun deep n tag _ => ?_⟩
    · rw [value]; exact .fail trivial
    · rw [make]; exact .fail trivial
  | succ fuel ih =>
    obtain ⟨hvalue, hmake⟩ := ih
    refine ⟨fun deep n => ?_, fun deep n tag htag => ?_⟩
    · rw [value]
      refine .bind .read fun s hs => ?_
      split
      · next v hv => exact .pure (hs.done _ (mem_of_lookup hv))
      · refine .bind .read fun s _ => ?_
        split
        · exact keeps_failAt
        · refine .bind (.update fun s hs => ⟨hs.done, hs.contents, hs.pending⟩) fun _ _ =>
            .bind keeps_tagOf fun tag htag => .bind (hmake _ _ _ htag.mpr) fun v hv =>
              .bind (.update fun s hs => ?_) fun _ _ => .pure hv
          exact ⟨List.forall_mem_cons.mpr ⟨hv, hs.done⟩, hs.contents, hs.pending⟩
    · rw [make]
      split
      · refine .bind keeps_textOf fun t _ => ?_
        split
        · next h => exact .pure (hP.scalar _ _ _ _ h)
        · exact .fail trivial
      · split
        · next hfilled =>
          have hn : n.head.tag ≠ Tag.mapping := fun h => by
            rw [htag h, hrule] at hfilled
            exact absurd hfilled (by decide)
          refine .bind (keeps_setContent (hP.emptyContent tag)) fun _ _ => ?_
          split
          · exact .bind (keeps_fill hP hn (hvalue true)) fun _ _ => .pure (hP.link _)
          · refine .bind (.update fun s hs => ⟨hs.done, hs.contents, ?_⟩) fun _ _ => .pure (hP.link _)
            exact List.forall_mem_append.mpr ⟨hs.pending, List.forall_mem_singleton.mpr hn⟩
        · split
          · exact .bind (keeps_namedMapping hP (hvalue true) (hvalue deep)) fun v hv =>
              .bind (keeps_setContent hv) fun _ _ => .pure (hP.link _)
          · exact keeps_failAt

lemma keeps_fillPending (hP : Hereditary P) (hrule : src.rule = .names) (left : Nat) :
    Keeps (Inherits P) (fillPending src fuel left) fun _ => True := by
  induction left with
  | zero => exact .pure trivial
  | succ left ih =>
    rw [fillPending]
    refine .bind .read fun s hs => ?_
    split
    · exact .pure trivial
    · next n rest hp =>
      have hall := hs.pending
      rw [hp, List.forall_mem_cons] at hall
      refine .bind (.update fun s hs' => ⟨hs'.done, hs'.contents, hall.2⟩) fun _ _ =>
        .bind (keeps_fill hP hall.1 ((keeps_value hP hrule fuel).1 false)) fun _ _ => ih

end Values

end Make

/-- The value of a document has every such property, if its keys are read as names. -/
theorem Document.hereditary_of_value {P : Value → Prop} (hP : Hereditary P) {d : Document} {v : Value}
    (h : d.value .names = .ok v) : P v := by
  rw [Document.value.eq_def] at h
  split at h
  · cases h
    exact hP.null
  · next root _ =>
    obtain ⟨⟨w, t⟩, hrun, rfl⟩ := map_eq_ok h
    have hkeeps : Make.Keeps (Make.Inherits P) (do
        let v ← Make.value ⟨.names, d.anchored⟩ d.depth false root
        Make.fillPending ⟨.names, d.anchored⟩ d.depth (d.size + 1)
        Make.current v) P :=
      .bind ((Make.keeps_value hP rfl _).1 _ _) fun v hv => .bind (Make.keeps_fillPending hP rfl _) fun _ _ =>
        Make.keeps_current hP hv
    exact hP.pruned w ((hkeeps _ ⟨by simp, by simp, by simp⟩).of_ok hrun).2

/-- And so has every text that is read as YAML. -/
theorem hereditary_of_read {P : Value → Prop} (hP : Hereditary P) {t : Text} {v : Value} (h : read t = .ok v) : P v := by
  obtain ⟨d, -, hd⟩ := bind_eq_ok h
  exact d.hereditary_of_value hP hd

lemma hereditary_textKeyed : Hereditary Value.TextKeyed where
  scalar _ _ _ _ h := ((settles_scalarOf _ _ _).of_ok h).textKeyed
  link _ := trivial
  list _ h := Value.textKeyed_list.mpr h
  pair k v hk hv := Value.textKeyed_tuple.mpr (by simp [hk, hv])
  set _ _ := trivial
  map _ h := Value.textKeyed_entriesOf h
  unfold _ _ hc hv := Value.textKeyed_unfold hc hv
  pruned _ h := h.pruned

/-- A text that is read as YAML has texts as keys. -/
theorem textKeyed_of_read {t : Text} {v : Value} (h : read t = .ok v) : v.TextKeyed :=
  hereditary_of_read hereditary_textKeyed h

end DocPath.Yaml
