import DocPath.Payload
import DocPath.Proofs.Yaml.Toured

/-! Mappings of documents that are received as YAML: which keys may be there twice, and what merge keys bring in. -/

namespace DocPath.Payload

open Yaml Make

variable {contentType t : Text} {p : Payload} {d : Yaml.Document} {root : Yaml.Node} {v : Value}

lemma decode_yaml (hyaml : ContentType.format? contentType = some .yaml) (ht : p.toText contentType = .ok t) :
    decode contentType p = (compose t >>= fun d => d.value .names).mapError (.yaml t) := by
  rw [decode, ContentType.format, hyaml, ht]
  rfl

lemma composed {f : Yaml.Document → Yaml.Node → Bool}
    (h : ((compose t).toOption.bind fun d => d.root.map fun root => f d root) = some true) :
    ∃ d root, compose t = .ok d ∧ d.root = some root ∧ f d root = true := by
  obtain ⟨d, hd, h⟩ := Option.bind_eq_some_iff.mp h
  obtain ⟨root, hroot, hf⟩ := Option.map_eq_some_iff.mp h
  exact ⟨d, root, ok_of_toOption hd, hroot, hf⟩

/-- In a document that is received, no mapping whose value is made has two keys with the same name, collections that stand
by themselves among them. -/
theorem distinct_names_of_decode (hyaml : ContentType.format? contentType = some .yaml)
    (h : decode contentType p = .ok v) : ∃ t d, p.toText contentType = .ok t ∧ compose t = .ok d ∧
      ∀ root, d.root = some root → ∀ g own, Reached d root (.mapping g own) → g.tag = Tag.mapping →
        (names d root own).Nodup := by
  have hdecode := h
  obtain ⟨format, hformat, h⟩ := bind_eq_ok h
  obtain ⟨t, ht, -⟩ := bind_eq_ok h
  rw [decode_yaml hyaml ht] at hdecode
  obtain ⟨d, hd, hv⟩ := bind_eq_ok (mapError_eq_ok hdecode)
  refine ⟨t, d, ht, hd, fun root hroot g own hreached htag => ?_⟩
  obtain ⟨s, w, hf, -⟩ := Document.finished_of_value (numbered_of_compose hd hroot) hroot hv
  obtain ⟨es, ps, hm⟩ := hf.mapped (numbered_of_compose hd hroot) hreached htag
  exact hm.distinct

/-- A mapping in a mapping, with a sequence as a key. -/
theorem distinct_names_of_decode_nested :
    let p : Payload := .text "a: \x7bb: 1, ? [c, \x7bd: 2\x7d] : 3\x7d\n"
    let v : Value := .map false
      [(.text "a", .map false [(.text "b", .int 1), (.text "['c', \x7b'd': 2\x7d]", .int 3)])]
    decode "application/yaml" p = .ok v ∧
      ∃ t d, p.toText "application/yaml" = .ok t ∧ compose t = .ok d ∧
        ∀ root, d.root = some root → ∀ g own, Reached d root (.mapping g own) → g.tag = Tag.mapping →
          (names d root own).Nodup := by
  intro p v
  have hv : decode "application/yaml" p = .ok v := by decide +kernel
  exact ⟨hv, distinct_names_of_decode (by decide +kernel) hv⟩

/-- Among what is only merged, a name may be there twice. -/
theorem repeated_name_of_merged :
    decode "application/yaml" (.text "x: \x7b<<: \x7ba: 1, a: 2\x7d\x7d\n") =
        .ok (.map false [(.text "x", .map false [(.text "a", .int 2)])]) ∧
      ∃ d root, compose "x: \x7b<<: \x7ba: 1, a: 2\x7d\x7d\n" = .ok d ∧ d.root = some root ∧
        ∃ n ∈ root.parts, n.head.tag = Tag.mapping ∧ ¬(names d root n.entries).Nodup := by
  have hcomposed : ((compose "x: \x7b<<: \x7ba: 1, a: 2\x7d\x7d\n").toOption.bind fun d => d.root.map fun root =>
      decide (∃ n ∈ root.parts, n.head.tag = Tag.mapping ∧ ¬(names d root n.entries).Nodup)) = some true := by
    decide +kernel
  obtain ⟨d, root, hd, hroot, hn⟩ := composed hcomposed
  exact ⟨by decide +kernel, d, root, hd, hroot, of_decide_eq_true hn⟩

/-- A fair document in which no mapping has a name twice when it is met merged is never refused for keys that are there
twice. Only such documents have values, and there every mapping has at each name what is written there, or else what the
first of the merged mappings gives that have the name. -/
theorem merges_of_decode (hyaml : ContentType.format? contentType = some .yaml)
    (ht : p.toText contentType = .ok t) (hd : compose t = .ok d) (hroot : d.root = some root)
    (hfair : Fair d root) :
    (¬Collides d root → ∀ source name m, decode contentType p ≠ .error (.yaml source (.duplicateKey name m))) ∧
      ∀ v, decode contentType p = .ok v → ¬Collides d root ∧ ∃ values contents, Document.IsMade d root values contents v := by
  have hnumbered := numbered_of_compose hd hroot
  have hdecode : decode contentType p = (d.value .names).mapError (.yaml t) := by
    rw [decode_yaml hyaml ht, hd]
    rfl
  rw [hdecode]
  refine ⟨fun hno source name m h => ?_, fun v hv => ?_⟩
  · cases hv : d.value .names with
    | ok v =>
      rw [hv] at h
      cases h
    | error fault =>
      rw [hv] at h
      cases h
      exact hno (Document.collides_of_value hnumbered hroot hfair hv rfl)
  · have hv := mapError_eq_ok hv
    exact ⟨Document.not_collides_of_value hnumbered hroot hfair hv, Document.isMade_of_value hnumbered hroot hfair hv⟩

/-- Some names are merged from two mappings, one of which has written one of its own in place of a merged one and comes in
behind an alias, while the other has a sequence as a key, and one is written in place of a merged one. -/
theorem merges_of_decode_alias :
    let t : Text := "base: &b \x7b<<: \x7bx: 0\x7d, x: 1, y: 2\x7d\nuse: \x7b<<: [*b, \x7by: 3, ? [z] : 4\x7d], x: 5\x7d\n"
    let v : Value := .map false [(.text "base", .map false [(.text "x", .int 1), (.text "y", .int 2)]),
      (.text "use", .map false [(.text "y", .int 2), (.text "['z']", .int 4), (.text "x", .int 5)])]
    decode "application/yaml" (.text t) = .ok v ∧
      ∃ d root values contents, compose t = .ok d ∧ d.root = some root ∧ Fair d root ∧ ¬Collides d root ∧
        Document.IsMade d root values contents v := by
  intro t v
  have hfair : ((compose t).toOption.bind fun d => d.root.map fun root => decide (Fair d root)) = some true := by
    decide +kernel
  have hv : decode "application/yaml" (.text t) = .ok v := by decide +kernel
  obtain ⟨d, root, hd, hroot, hdecided⟩ := composed hfair
  have hfair := of_decide_eq_true hdecided
  obtain ⟨hno, values, contents, hmade⟩ :=
    (merges_of_decode (p := .text t) (by decide +kernel) rfl hd hroot hfair).2 v hv
  exact ⟨hv, d, root, values, contents, hd, hroot, hfair, hno, hmade⟩

/-- A mapping that merges another and is merged itself before it is made: its own key comes to stand beside the
merged one with the same name. -/
theorem refused_after_merge :
    let t : Text := "x: \x7b<<: &m \x7b<<: \x7ba: 1\x7d, a: 2\x7d\x7d\ny: *m\n"
    decode "application/yaml" (.text t) = .error (.yaml t (.duplicateKey "a" ⟨24, 0, 24⟩)) ∧
      ∃ d root, compose t = .ok d ∧ d.root = some root ∧ ∀ n ∈ root.parts, n.head.tag = Tag.mapping →
        (names d root n.entries).Nodup ∧ (n.entries.filter (merges d.source)).length ≤ 1 ∧
          ∀ e ∈ n.entries, merges d.source e = true → (follow d.source e.2).kind = .mapping := by
  intro t
  have hcomposed : ((compose t).toOption.bind fun d => d.root.map fun root =>
      decide (∀ n ∈ root.parts, n.head.tag = Tag.mapping → (names d root n.entries).Nodup ∧
        (n.entries.filter (merges d.source)).length ≤ 1 ∧
          ∀ e ∈ n.entries, merges d.source e = true → (follow d.source e.2).kind = .mapping)) = some true := by
    decide +kernel
  obtain ⟨d, root, hd, hroot, hn⟩ := composed hcomposed
  exact ⟨by decide +kernel, d, root, hd, hroot, of_decide_eq_true hn⟩

end DocPath.Payload
