import DocPath.Proofs.Yaml.Numbering

/-! Composing comes to a document only at the end of the text. -/

namespace DocPath.Yaml.Compose

/-- What is composed takes tokens from the front only. -/
def Shrinks {α : Type} (m : Compose α) : Prop :=
  ∀ (s : Composition) (a : α) (s' : Composition), m s = .ok (a, s') → s'.tokens <:+ s.tokens

lemma Adds.shrinks {α : Type} {x : Compose α} {rs : α → List (Nat × Bool)} {ns : α → List Node} (h : Adds [] [] x rs ns) :
    Shrinks x :=
  fun s a s' hrun => (h s.tokens s.anchored (s.anchors.map (·.2.1)) s a s'
    ⟨List.suffix_refl _, List.nodup_nil, by simp, Nat.zero_le _, fun _ he => .inl he, fun _ ha => .inl (List.mem_map_of_mem ha), by simp⟩
    hrun).tokens

/-- The end of the text is among the tokens if something of a kind is composed. -/
def Ends {α : Type} (p : α → Prop) (m : Compose α) : Prop :=
  ∀ (s : Composition) (a : α) (s' : Composition), m s = .ok (a, s') → p a → ∃ t ∈ s.tokens, t.kind = .streamEnd

namespace Ends

variable {α β : Type} {p : β → Prop} {q : α → Prop} {x : Compose α} {f : α → Compose β}

lemma pure {b : β} (h : ¬p b) : Ends p (Pure.pure b) := by
  intro s b' s' h' hp
  cases h'
  exact absurd hp h

lemma throw (fault : Fault) : Ends p (throw fault) := by
  intro s b s' h
  cases h

lemma bind (hx : Shrinks x) (hq : Ends q x) (hf : ∀ a, ¬q a → Ends p (f a)) : Ends p (x >>= f) := by
  intro s b s' h hp
  obtain ⟨a, s₁, hrun, h⟩ := run_bind_eq_ok h
  by_cases hqa : q a
  · exact hq s a s₁ hrun hqa
  · obtain ⟨t, ht, hend⟩ := hf a hqa s₁ b s' h hp
    exact ⟨t, (hx s a s₁ hrun).subset ht, hend⟩

lemma bind_right (hx : Shrinks x) (hf : ∀ a, Ends p (f a)) : Ends p (x >>= f) :=
  bind (q := fun _ => False) hx (fun _ _ _ _ h => h.elim) fun a _ => hf a

lemma peek {f : Token → Compose β} (hf : ∀ t, t.kind ≠ .streamEnd → Ends p (f t)) : Ends p (peek >>= f) := by
  refine bind (q := fun t => t.kind = .streamEnd) Adds.peek.shrinks (fun s t s' h hend => ⟨t, ?_, hend⟩) hf
  rw [Compose.peek] at h
  cases hs : s.tokens with
  | nil =>
    rw [hs] at h
    cases h
  | cons u rest =>
    rw [hs] at h
    cases h
    exact List.mem_cons_self

end Ends

lemma ends_documentStart (fuel : Nat) : Ends (· = none) (documentStart fuel) := by
  have hhandles (handles : List (Text × Text)) :
      Shrinks (modify fun s => { s with handles := handles } : Compose Unit) :=
    Adds.shrinks (.update fun _ => ⟨rfl, rfl, rfl, rfl⟩)
  rw [documentStart]
  refine .bind_right (adds_skipEnds fuel).shrinks fun _ => .peek fun t ht => ?_
  rw [if_neg ht]
  refine .bind_right (adds_directives _ _ _).shrinks fun own => .bind_right (hhandles _) fun _ => .peek fun sign _ => ?_
  split_ifs
  · exact .bind_right Adds.take.shrinks fun _ => .pure (by simp)
  · exact .throw _

lemma ends_root (fuel : Nat) : Ends (· = none) (root fuel) := by
  have hnode := ((AllAdd.all fuel).node .block [] []).shrinks
  rw [root]
  refine .peek fun t ht => ?_
  split_ifs
  · refine .bind (adds_documentStart fuel).shrinks (ends_documentStart fuel) fun m hm => ?_
    split
    · exact absurd rfl hm
    · refine .peek fun content _ => ?_
      split_ifs
      · exact .bind_right (adds_emptyScalar _ _ _).shrinks fun _ => .pure (by simp)
      · exact .bind_right hnode fun _ => .pure (by simp)
  · exact .bind_right hnode fun _ => .pure (by simp)

/-- A document is composed only if the end of the text is among the tokens. -/
theorem ends_document (fuel : Nat) : Ends (fun _ => True) (document fuel) := by
  rw [document]
  refine .bind_right Adds.take.shrinks fun _ => .bind (adds_root fuel).shrinks (ends_root fuel) fun n hn => ?_
  split
  · exact absurd rfl hn
  · have hstart (f : Option Mark → Compose Document) (hf : ∀ m, ∃ fault, f (some m) = throw fault) :
        Ends (fun _ => True) (documentStart fuel >>= f) := by
      refine .bind (adds_documentStart fuel).shrinks (ends_documentStart fuel) fun m hm => ?_
      cases m with
      | none => exact absurd rfl hm
      | some m =>
        obtain ⟨fault, hfault⟩ := hf m
        rw [hfault]
        exact .throw _
    refine .peek fun t _ => ?_
    split_ifs
    · exact .bind_right Adds.discard.shrinks fun _ =>
        .bind_right Adds.read.shrinks fun s => hstart _ fun m => ⟨_, rfl⟩
    · exact .bind_right Adds.read.shrinks fun s => hstart _ fun m => ⟨_, rfl⟩

end DocPath.Yaml.Compose

namespace DocPath.Yaml

/-- Tokens without the end of the text make no document. -/
theorem ofTokens_ne_ok {t : Tokens} (h : ∀ x ∈ t.tokens, x.kind ≠ .streamEnd) (d : Document) :
    Document.ofTokens t ≠ .ok d := by
  intro hd
  rw [Document.ofTokens] at hd
  cases hr : Compose.document (4 * t.tokens.length + 4) ⟨t.tokens, t.fault, Compose.defaultHandles, 0, [], []⟩ with
  | error fault =>
    rw [hr] at hd
    cases hd
  | ok r =>
    obtain ⟨x, hx, hend⟩ := Compose.ends_document _ _ r.1 r.2 hr trivial
    exact h x hx hend

end DocPath.Yaml
