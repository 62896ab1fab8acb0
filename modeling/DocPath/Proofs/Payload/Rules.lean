import DocPath.Proofs.Payload.Roots
import DocPath.Proofs.Yaml.Rules

/-! Documents that are received as YAML, compared with what their texts mean if keys are values: where all keys are texts
the two are the same, and what has no value by the one rule has none by the other. -/

namespace DocPath

namespace Yaml.Make

variable {d : Document} {root n : Node} {k : Value} {t : Text}

/-- The text of a scalar that is tagged as a text. -/
def literal? : Node → Option Text
  | .scalar h t => if h.tag = Tag.string then some t else none
  | _ => none

lemma Means.of_literal (h : Means d n k) (ht : literal? n = some t) : k = .text t := by
  cases n with
  | scalar h u =>
    rw [literal?] at ht
    split_ifs at ht with htag
    obtain rfl := Option.some.inj ht
    obtain ⟨u', ⟨j, hspells⟩, hk⟩ := h
    cases hspells
    have htag : (Node.scalar h u).head.tag = Tag.string := htag
    rw [htag] at hk
    exact (Except.ok.inj hk).symm
  | _ => cases ht

lemma unrepeated_of_literals (hd : Numbered d root) (h : ∀ n ∈ root.parts, n.head.tag = Tag.mapping →
    (∀ e ∈ n.entries, (literal? (follow d.source e.1)).isSome = true) ∧
      (n.entries.map fun e => literal? (follow d.source e.1)).Nodup) : Unrepeated d root := by
  intro n hn htag
  obtain ⟨htexts, hdistinct⟩ := h n (hn.mem_parts hd) htag
  refine (List.pairwise_map.mp hdistinct).imp_of_mem fun {e e'} he he' hne k hk hk' => hne ?_
  obtain ⟨t, ht⟩ := Option.isSome_iff_exists.mp (htexts e he)
  obtain ⟨t', ht'⟩ := Option.isSome_iff_exists.mp (htexts e' he')
  have htext : Value.text t = .text t' := (hk.of_literal ht).symm.trans (hk'.of_literal ht')
  rw [ht, ht', Scalar.text.inj (Value.scalar.inj htext)]

end Yaml.Make

namespace Payload

open Yaml Make Relation

variable {contentType t : Text} {p : Payload}

/-- The document that a text is composed to has a property, unless it has no root. -/
def RootHas (t : Text) (property : Yaml.Document → Yaml.Node → Prop) : Prop :=
  ∀ d root, compose t = .ok d → d.root = some root → property d root

/-- Of YAML without merge keys and without signs for values as keys, what has a value with texts as keys if these are taken
as values is received as the same value, provided that no mapping has a key twice, that sets have nothing but scalars
beside their elements, and, if the value contains itself, that no mapping lies in itself with only mappings in between.
What has no value then, and not because of a key that cannot be one, is not received, provided that nothing but mappings
is tagged as a mapping. -/
theorem decode_of_values (hyaml : ContentType.format? contentType = some .yaml) (ht : p.toText contentType = .ok t)
    (hclear : RootHas t Clear) :
    (∀ v, readWith .values t = .ok v → v.TextKeyed → RootHas t Unrepeated → RootHas t BareSets →
      (v.isCyclic = true → RootHas t fun d root => ∀ n, Reached d root n → ¬TransGen (Holds d) n n) →
      decode contentType p = .ok v) ∧
    ∀ fault, readWith .values t = .error fault → fault.isUnhashable = false →
      (RootHas t fun d root => ∀ n, Reached d root n → n.head.tag = Tag.mapping → n.isBlank = false) →
      ∀ v, decode contentType p ≠ .ok v := by
  rw [decode_yaml hyaml ht]
  cases hd : compose t with
  | error fault =>
    have hvalues : readWith .values t = .error fault := by
      rw [readWith, hd]
      rfl
    refine ⟨fun v hv => ?_, fun _ _ _ _ v hv => ?_⟩
    · rw [hvalues] at hv
      cases hv
    · cases hv
  | ok d =>
    have hvalues : readWith .values t = d.value .values := by
      rw [readWith, hd]
      rfl
    have hnames : ((.ok d : Except Fault Yaml.Document) >>= fun d => d.value .names) = d.value .names := rfl
    rw [hvalues, hnames]
    cases hroot : d.root with
    | none =>
      have hnull (rule : KeyRule) : d.value rule = .ok .null := by
        rw [Document.value.eq_def, hroot]
      rw [hnull, hnull]
      refine ⟨fun v hv _ _ _ _ => ?_, fun fault hfault => ?_⟩
      · rw [← Except.ok.inj hv]
        rfl
      · cases hfault
    | some root =>
      have hnumbered := numbered_of_compose hd hroot
      have hclosed := closed_of_compose hd hroot
      refine ⟨fun v hv hkeyed hunrepeated hbare hgrounded => ?_, fun fault hv hhashable hblank v hnames => ?_⟩
      · rw [Document.value_names_of_values hnumbered hclosed (hclear d root hd hroot) hroot hv hkeyed
          (hunrepeated d root hd hroot) (hbare d root hd hroot) fun hcyclic => hgrounded hcyclic d root hd hroot]
        rfl
      · exact Document.not_value_names_of_values hnumbered hclosed (hclear d root hd hroot) hroot hv hhashable
          (hblank d root hd hroot) (mapError_eq_ok hnames)

lemma rootHas_of_decide {property : Yaml.Document → Yaml.Node → Prop} [∀ d root, Decidable (property d root)]
    (h : ((compose t).toOption.bind fun d => d.root.map fun root => decide (property d root)) = some true) :
    RootHas t property := by
  intro d root hd hroot
  obtain ⟨d', root', hd', hroot', hdecided⟩ := composed h
  obtain rfl := Except.ok.inj (hd.symm.trans hd')
  obtain rfl := Option.some.inj (hroot.symm.trans hroot')
  exact of_decide_eq_true hdecided

/-- A mapping that is there twice and a set have the same value by both rules; a mapping that is tagged as a sequence has
none by either. -/
theorem decode_of_values_shared :
    let t : Text := "base: &b \x7bx: 1\x7d\nuse: [*b, \x7by: !!set \x7bp, q\x7d\x7d]\n"
    let v : Value := .map false [(.text "base", .map false [(.text "x", .int 1)]),
      (.text "use", .list [.map false [(.text "x", .int 1)],
        .map false [(.text "y", .set false [.text "p", .text "q"])]])]
    readWith .values t = .ok v ∧ decode "application/yaml" (.text t) = .ok v ∧
      ∀ v, decode "application/yaml" (.text "[!!seq \x7ba: 1\x7d]") ≠ .ok v := by
  intro t v
  have hyaml : ContentType.format? "application/yaml" = some .yaml := by decide +kernel
  have hclear : RootHas t Clear := rootHas_of_decide (by decide +kernel)
  have hvalues : readWith .values t = .ok v := by decide +kernel
  have hkeyed : v.TextKeyed := by
    simp [v, Value.TextKeyed, Value.TextKeyedAll, Value.TextKeyedEntries]
    decide
  have hliterals : RootHas t fun d root => ∀ n ∈ root.parts, n.head.tag = Tag.mapping →
      (∀ e ∈ n.entries, (literal? (follow d.source e.1)).isSome = true) ∧
        (n.entries.map fun e => literal? (follow d.source e.1)).Nodup := rootHas_of_decide (by decide +kernel)
  have hscalars : RootHas t fun d root => ∀ n ∈ root.parts, n.head.tag = Tag.set → ∀ e ∈ n.entries,
      isCollectionTag (follow d.source e.2).head.tag = false := rootHas_of_decide (by decide +kernel)
  have hunrepeated : RootHas t Unrepeated := fun d root hd hroot =>
    unrepeated_of_literals (numbered_of_compose hd hroot) (hliterals d root hd hroot)
  have hbare : RootHas t BareSets := fun d root hd hroot n hn =>
    hscalars d root hd hroot n (hn.mem_parts (numbered_of_compose hd hroot))
  have hfinite : v.isCyclic = false := by decide +kernel
  have hdecode := (decode_of_values (p := .text t) hyaml rfl hclear).1 v hvalues hkeyed hunrepeated hbare
    fun hcyclic => absurd (hfinite.symm.trans hcyclic) Bool.false_ne_true
  refine ⟨hvalues, hdecode, ?_⟩
  have hblank : RootHas "[!!seq \x7ba: 1\x7d]" fun _ root => ∀ n ∈ root.parts, n.head.tag = Tag.mapping →
      n.isBlank = false := rootHas_of_decide (by decide +kernel)
  have hfault : readWith .values "[!!seq \x7ba: 1\x7d]" =
      .error (.marked .constructing none (.wrongKind .sequence .mapping) ⟨1, 0, 1⟩) := by decide +kernel
  exact (decode_of_values (p := .text _) hyaml rfl (rootHas_of_decide (by decide +kernel))).2 _ hfault rfl
    fun d root hd hroot n hn => hblank d root hd hroot n (hn.mem_parts (numbered_of_compose hd hroot))

/-- The rules differ where the sign for a value is a key, where a mapping lies in itself beside an element of a set, and
where an empty text is tagged as a mapping. -/
theorem decode_differs_from_values :
    (readWith .values "=: 1" = .ok (.map false [(.text "=", .int 1)]) ∧
      decode "application/yaml" (.text "=: 1") =
        .error (.yaml "=: 1" (.marked .constructing none (.unknownTag Tag.value) ⟨0, 0, 0⟩))) ∧
    (readWith .values "!!set \x7ba: &m \x7bx: *m\x7d\x7d" = .ok (.set false [.text "a"]) ∧
      decode "application/yaml" (.text "!!set \x7ba: &m \x7bx: *m\x7d\x7d") =
        .error (.yaml "!!set \x7ba: &m \x7bx: *m\x7d\x7d" (.marked .constructing none .recursiveNode ⟨10, 0, 10⟩))) ∧
    (readWith .values "!!map ''" = .error (.marked .constructing none (.wrongKind .mapping .scalar) ⟨0, 0, 0⟩) ∧
      decode "application/yaml" (.text "!!map ''") = .ok (.map false [])) := by
  decide +kernel

end Payload

end DocPath
