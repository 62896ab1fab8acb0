import DocPath.Proofs.Payload.Merges
import DocPath.Proofs.Yaml.Composing
import DocPath.Proofs.Yaml.Mishaps

/-! What callers who decode YAML are told of: all faults but those of nodes whose tag does not suit them, and of escapes
for numbers that a machine has no room for. -/

namespace DocPath.Payload

open Yaml Make

/-- Something in a text for which there may be a fault that callers are not told of. -/
inductive Slip (t : Text) : Yaml.Fault → Prop
  | escape {n : Nat} (escapes : Escapes t n) (large : twoPow 31 ≤ n) : Slip t (.noCodePoint n)
  | misfit {d : Yaml.Document} {root n : Yaml.Node} {fault : Yaml.Fault} (composed : compose t = .ok d)
      (hroot : d.root = some root) (mem : n ∈ root.parts) (misfit : Misfit d n fault) : Slip t fault

variable {contentType t : Text} {fault : Yaml.Fault}

lemma documented_of_compose (h : compose t = .error fault) : fault.errorKind.IsDocumented ∨ Slip t fault := by
  rcases reads_compose t h with ⟨c, place, rfl⟩ | hscan
  · exact .inl (.inl rfl)
  · cases hscan with
    | marked hmarked => exact .inl (isDocumented_of_isMarked hmarked)
    | number => exact .inl (.inr rfl)
    | @noCodePoint n hescapes =>
      by_cases hlarge : twoPow 31 ≤ n
      · exact .inr (.escape hescapes hlarge)
      · left
        rw [Yaml.Fault.errorKind, if_neg hlarge]
        exact .inr rfl

lemma documented_of_value {d : Yaml.Document} (hd : compose t = .ok d) (h : d.value .names = .error fault) :
    fault.errorKind.IsDocumented ∨ Slip t fault := by
  cases hroot : d.root with
  | none =>
    rw [Yaml.Document.value.eq_def, hroot] at h
    cases h
  | some root =>
    rcases Document.expected_of_value (numbered_of_compose hd hroot) (closed_of_compose hd hroot)
      (length_parts_le_of_compose hd hroot) hroot h with hdocumented | ⟨n, hn, hmisfit⟩
    · exact .inl hdocumented
    · exact .inr (.misfit hd hroot hn hmisfit)

/-- Every text is decoded, or refused with an error that callers are told of, or has something in it for which they are
not. -/
theorem documented_of_decode (hyaml : ContentType.format? contentType = some .yaml) (t : Text) :
    (∃ v, decode contentType (.text t) = .ok v) ∨ ∃ fault, decode contentType (.text t) = .error (.yaml t fault) ∧
      (fault.errorKind.IsDocumented ∨ Slip t fault) := by
  rw [decode_yaml hyaml rfl]
  cases hr : compose t >>= fun d => d.value .names with
  | ok v => exact .inl ⟨v, rfl⟩
  | error fault =>
    refine .inr ⟨_, rfl, ?_⟩
    rcases bind_eq_error hr with hcompose | ⟨d, hd, hvalue⟩
    · exact documented_of_compose hcompose
    · exact documented_of_value hd hvalue

/-- A text that is tagged as a mapping is told of. -/
theorem documented_of_decode_text :
    decode "application/yaml" (.text "!!map x") = .error (.yaml "!!map x" .textAsEntries) ∧
      ((∃ v, decode "application/yaml" (.text "!!map x") = .ok v) ∨
        ∃ fault, decode "application/yaml" (.text "!!map x") = .error (.yaml "!!map x" fault) ∧
          (fault.errorKind.IsDocumented ∨ Slip "!!map x" fault)) :=
  ⟨by decide +kernel, documented_of_decode (by decide +kernel) "!!map x"⟩

/-- A sequence that is tagged as a mapping is not, and neither are other values that do not suit their tags. -/
theorem undocumented_of_misfit :
    (decode "application/yaml" (.text "!!map [a]")).mapError PayloadFault.errorKind = .error .type ∧
    (decode "application/yaml" (.text "!!timestamp \x7b=: 1\x7d")).mapError PayloadFault.errorKind = .error .type ∧
    (decode "application/yaml" (.text "!!bool x")).mapError PayloadFault.errorKind = .error .key ∧
    (decode "application/yaml" (.text "!!timestamp x")).mapError PayloadFault.errorKind = .error .member ∧
    (decode "application/yaml" (.text "!!int ''")).mapError PayloadFault.errorKind = .error .index ∧
    (decode "application/yaml" (.text "\"\\UFFFFFFFF\"")).mapError PayloadFault.errorKind = .error .overflow ∧
    (decode "application/yaml" (.text "&a !!str \x7b=: *a\x7d")).mapError PayloadFault.errorKind = .error .recursion ∧
    ∀ k ∈ ([.type, .key, .member, .index, .overflow, .recursion] : List ErrorKind), ¬k.IsDocumented := by
  decide +kernel

end DocPath.Payload
