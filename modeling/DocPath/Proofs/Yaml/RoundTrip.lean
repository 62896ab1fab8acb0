import DocPath.Proofs.Yaml.Ending
import DocPath.Proofs.Yaml.Heard
import DocPath.Proofs.Yaml.Hereditary
import DocPath.Proofs.Yaml.Values
import DocPath.Proofs.Yaml.Visible
import DocPath.Yaml.Reader

/-! Reading what was written: the text of a mapping means the mapping exactly if all keys are short enough and
all scalars are heard as they were written. -/

namespace DocPath.Yaml

open Layout Yaml.Tree

lemma isAcceptable_of_not_special {c : CodePoint} (h : isSpecial c = false) : isAcceptable c = true := by
  simp only [isSpecial, isAcceptable, Bool.not_eq_false', Bool.or_eq_true, Bool.and_eq_true, beq_iff_eq,
    decide_eq_true_eq, bne_iff_ne] at h ⊢
  omega

lemma unacceptable?_eq_none {t : Text} (h : ∀ c ∈ t, isAcceptable c = true) (place : Nat) :
    unacceptable? place t = none := by
  induction t generalizing place with
  | nil => rfl
  | cons c t ih =>
    obtain ⟨hc, ht⟩ := List.forall_mem_cons.mp h
    rw [unacceptable?, if_pos hc, ih ht]

lemma visible_ofString {t : Text} (h : (t.all fun c => !isSpecial c) = true) : Visible True t := by
  intro c hc
  exact ⟨by simpa using List.all_eq_true.mp h c hc, fun _ => trivial⟩

mutual

/-- All code points of what is written are visible, breaks included. -/
theorem visible_node : (t : Tree) → {indent : Nat} → {fresh : Bool} → {w : Text} → NodeText indent fresh t w →
    Visible True w
  | .scalar _ _, _, _, _, h => by
    obtain ⟨b, hb, rfl⟩ := h
    exact .cons (by decide) (fun _ => trivial) ((visible_scalar hb).mono fun _ => trivial)
  | .sequence ts, indent, fresh, w, h => by
    rw [NodeText] at h
    split_ifs at h
    · exact h ▸ visible_ofString (by decide)
    · obtain ⟨b, hb, rfl⟩ := h
      have hitems := visible_items ts hb
      exact .cons (by decide) (fun _ => trivial) fun d hd => hitems d (List.mem_append_right _ hd)
    · exact visible_items ts h
  | .mapping _ es, indent, fresh, w, h => by
    rw [NodeText] at h
    split_ifs at h
    · exact h ▸ visible_ofString (by decide)
    · obtain ⟨b, hb, rfl⟩ := h
      have hentries := visible_entries es hb
      exact .cons (by decide) (fun _ => trivial) fun d hd => hentries d (List.mem_append_right _ hd)
    · exact visible_entries es h

theorem visible_items : (ts : List Tree) → {indent : Nat} → {w : Text} → ItemsText indent ts w → Visible True w
  | [], _, _, h => by
    rw [h]
    exact .nil
  | t :: ts, _, _, h => by
    obtain ⟨a, more, ha, hmore, rfl⟩ := h
    exact .append (.newLine trivial _) (.cons (by decide) (fun _ => trivial)
      (.append (visible_node t ha) (visible_items ts hmore)))

theorem visible_entries : (es : List (Tree × Tree)) → {indent : Nat} → {w : Text} → EntriesText indent es w →
    Visible True w
  | [], _, _, h => by
    rw [h]
    exact .nil
  | (.scalar tag t, v) :: es, indent, _, h => by
    obtain ⟨key, a, more, hkey, ha, hmore, rfl⟩ := h
    have hbody : Visible True key := (visible_scalar hkey).mono fun _ => trivial
    have hsign : Visible True (keyText indent (isShortKey tag t) key) := by
      rw [keyText]
      split_ifs
      · exact hbody
      · exact .cons (by decide) (fun _ => trivial) (.cons (by decide) (fun _ => trivial)
          (.append hbody (.newLine trivial _)))
    exact .append (.newLine trivial _) (.append hsign (.cons (by decide) (fun _ => trivial)
      (.append (visible_node v ha) (visible_entries es hmore))))

end

/-- Every key is short enough to be read, and every scalar is heard as it was written. -/
def Recovers (es : List (Tree × Tree)) : Prop := FitsEntries es ∧ heardEntries 0 es = es

lemma read_of_visible {t : Text} (h : Visible True t) :
    read t = Document.ofTokens (Tokens.scan t) >>= fun d => d.value .names := by
  have hnone := unacceptable?_eq_none (fun c hc => isAcceptable_of_not_special (h c hc).1) 0
  rw [read, readWith, compose, hnone]

/-- The entries of a document with the tokens of its text mean what is heard of them, if their names are different. -/
lemma read_of_fits {es : List (Tree × Tree)} (ho : OrdinaryEntries es) (hr : ReadableEntries es) {t : Tokens}
    (hts : t.tokens.map (·.kind) =
      .streamStart :: .blockMappingStart :: (entriesKinds 0 es ++ [.blockEnd, .streamEnd])) {v : Value} :
    (Document.ofTokens t >>= fun d => d.value .names) = .ok v ↔
      (Tree.mapping Tag.mapping (heardEntries 0 es)).Distinct ∧
        v = (Tree.mapping Tag.mapping (heardEntries 0 es)).meaning := by
  obtain ⟨n, hi, hn, hshape⟩ := compose_of_entries ho hts
  have hreadable : Readable (.mapping Tag.mapping (heardEntries 0 es)) := ⟨rfl, readable_heardEntries es ho hr 0⟩
  obtain ⟨honly, hok⟩ := Document.value_of_shape hreadable hshape
  rw [hn]
  show Document.value .names ⟨some n, [], hi⟩ = .ok v ↔ _
  refine ⟨fun hv => ⟨?_, honly v hv⟩, fun ⟨hd, hv⟩ => hv ▸ hok hd⟩
  -- the keys of what is made are different texts
  rw [distinct_iff_textKeyed _ hreadable, ← honly v hv]
  exact Document.hereditary_of_value hereditary_textKeyed hv

lemma document_ne_nil {es : List (Tree × Tree)} (ho : OrdinaryEntries es) :
    document (.mapping Tag.mapping es) ≠ [] := by
  rcases eq_or_ne es [] with rfl | hne
  · decide +kernel
  · obtain ⟨w, hdocument, -⟩ := document_run ho hne
    rw [hdocument]
    exact List.append_ne_nil_of_right_ne_nil _ (List.cons_ne_nil _ _)

/-- What is written for a mapping is read exactly if its keys are short enough and are heard with different names. It means
what is heard of it. -/
theorem read_document_eq_ok_iff {es : List (Tree × Tree)} (ho : OrdinaryEntries es) (hr : ReadableEntries es) {v : Value} :
    read (document (.mapping Tag.mapping es)) = .ok v ↔
      FitsEntries es ∧ (Tree.mapping Tag.mapping (heardEntries 0 es)).Distinct ∧
        v = (Tree.mapping Tag.mapping (heardEntries 0 es)).meaning := by
  rcases eq_or_ne es [] with rfl | hne
  · have hread : read (document (.mapping Tag.mapping [])) = .ok (.map false []) := by decide +kernel
    rw [hread]
    exact ⟨fun h => ⟨trivial, ⟨List.nodup_nil, trivial⟩, (Except.ok.inj h).symm⟩, fun h => congrArg _ h.2.2.symm⟩
  obtain ⟨w, hdocument, hw⟩ := document_run ho hne
  have hentries := visible_entries es hw
  have hvisible : Visible True (w ++ newLine 0) :=
    .append (fun d hd => hentries d (List.mem_append_right _ hd)) (.newLine trivial _)
  obtain ⟨hfits, hends⟩ := scan_entries ho hne hw
  rw [hdocument, read_of_visible hvisible]
  by_cases hf : FitsEntries es
  · rw [read_of_fits ho hr (hfits hf), and_iff_right hf]
  · refine iff_of_false (fun hread => ?_) fun h => hf h.1
    obtain ⟨d, hd, -⟩ := bind_eq_ok hread
    exact ofTokens_ne_ok (hends hf) d hd

/-- What is written for a mapping means the mapping exactly if its keys and scalars are recovered. -/
theorem read_document {es : List (Tree × Tree)} {v : Value} (h : Tells (.mapping Tag.mapping es) v) :
    read (document (.mapping Tag.mapping es)) = .ok v ↔ Recovers es := by
  obtain ⟨⟨-, ho⟩, ⟨-, hr⟩, hd, rfl⟩ := h
  rw [read_document_eq_ok_iff ho hr, Recovers]
  refine and_congr_right fun _ => ⟨fun ⟨_, hmeaning⟩ => ?_, fun hheard => by rw [hheard]; exact ⟨hd, rfl⟩⟩
  exact (meaning_heardEntries es ho 0).mp (by simpa [Tree.meaning] using hmeaning.symm)

end DocPath.Yaml
