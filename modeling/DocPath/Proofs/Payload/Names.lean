import DocPath.Failure
import DocPath.Proofs.Json.Grammar
import DocPath.Proofs.Payload.Json

/-! Documents that are received as JSON, compared with the trees that their texts spell: those with a repeated name are
refused, and the others are held as they stand in the text. -/

namespace DocPath.Payload

open Json

variable {contentType t : Text} {p : Payload} {v : Value}

lemma decode_json (hjson : ContentType.format? contentType = some .json) (ht : p.toText contentType = .ok t) :
    decode contentType p = (readWith unique t).mapError (.json t) := by
  rw [decode, format_eq_ok hjson, ht]
  rfl

/-- A JSON text that has a value where the last member of a name wins spells a tree. It is refused, for a name that is
there twice, exactly if some object of the tree, at any depth, has two members of one name; otherwise it is received as
that value, which is the tree itself with all members in the order of the text. -/
theorem decode_of_spelled (hjson : ContentType.format? contentType = some .json) (ht : p.toText contentType = .ok t)
    (hv : readWith lastWins t = .ok v) :
    (∃ x, Spelled t x) ∧ ∀ x, Spelled t x →
      ((∃ fault, decode contentType p = .error fault ∧ fault.errorKind = .value ∧ ∃ name, x.Repeats name ∧
          fault.message = .concat ["duplicate key ", name.quoted, " in JSON object"]) ↔ ∃ name, x.Repeats name) ∧
      ((∀ name, ¬x.Repeats name) → decode contentType p = .ok v ∧ v = x.plain) := by
  refine ⟨exists_spelled hv, fun x hx => ⟨⟨?_, ?_⟩, fun hdistinct => ?_⟩⟩
  · rintro ⟨_, -, -, name, hrep, -⟩
    exact ⟨name, hrep⟩
  · rintro ⟨name, hrep⟩
    obtain ⟨name, hrep, herror⟩ := x.distinct_or_refused.resolve_left fun hdistinct => hdistinct name hrep
    refine ⟨.json t (.duplicateName name), ?_, rfl, name, hrep, rfl⟩
    rw [decode_json hjson ht, readWith_of_spelled hx, herror]
    rfl
  · have hlast : x.meaning lastWins = .ok v := (readWith_of_spelled hx).symm.trans hv
    obtain rfl := Except.ok.inj ((x.meaning_of_distinct keepsMembers_lastWins hdistinct).symm.trans hlast)
    refine ⟨?_, rfl⟩
    rw [decode_json hjson ht, readWith_of_spelled hx, x.meaning_of_distinct keepsMembers_unique hdistinct]
    rfl

/-- One name is spelled in two ways, in an object in an array. -/
theorem decode_of_spelled_escaped :
    let t : Text := "\x7b\"a\": [0, \x7b\"b\": 1, \"\\u0062\": 2\x7d]\x7d"
    readWith lastWins t = .ok (.map false [(.text "a", .list [.int 0, .map false [(.text "b", .int 2)]])]) ∧
      decode "application/json" (.text t) = .error (.json t (.duplicateName "b")) ∧
      ∃ x, Spelled t x ∧ ∃ name, x.Repeats name := by
  intro t
  have hjson : ContentType.format? "application/json" = some .json := by decide +kernel
  have hv : readWith lastWins t = .ok (.map false [(.text "a", .list [.int 0, .map false [(.text "b", .int 2)]])]) := by
    decide +kernel
  have herror : decode "application/json" (.text t) = .error (.json t (.duplicateName "b")) := by decide +kernel
  obtain ⟨⟨x, hx⟩, hall⟩ := decode_of_spelled (p := .text t) hjson rfl hv
  refine ⟨hv, herror, x, hx, ?_⟩
  by_contra hdistinct
  obtain ⟨hvalue, -⟩ := (hall x hx).2 fun name hrep => hdistinct ⟨name, hrep⟩
  rw [herror] at hvalue
  cases hvalue

end DocPath.Payload
