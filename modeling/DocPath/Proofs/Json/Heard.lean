import DocPath.Json.Reader
import DocPath.Json.Writer
import DocPath.Proofs.Text
import DocPath.Proofs.Value.Plain

/-! What the text of a value says to a reader, who tells members apart by their names alone. -/

namespace DocPath.Json

/-- The number that the text of a floating-point number is read as. -/
def respelled (x : Binary64) : Binary64 := (Numeral.readFloat (x.layout Binary64.plainLayout)).toOption.getD x

/-- The name that a key is written as. -/
def memberName (key : Value) : Text := (name .compact key).toOption.getD []

mutual

/-- What is read from the text of a value. -/
def heard : Value → Except Fault Value
  | .float x => .ok (.float (respelled x))
  | .list xs => do pure (.list (← heardAll xs))
  | .tuple xs => do pure (.list (← heardAll xs))
  | .map _ es => do unique (← heardMembers es)
  | .anchor _ v => heard v
  | v => .ok v

def heardAll : List Value → Except Fault (List Value)
  | [] => .ok []
  | v :: vs => do
    let w ← heard v
    pure (w :: (← heardAll vs))

def heardMembers : List (Value × Value) → Except Fault (List (Text × Value))
  | [] => .ok []
  | (k, v) :: es => do
    let w ← heard v
    pure ((memberName k, w) :: (← heardMembers es))

end

mutual

/-- No mapping has two keys that are written as one name. -/
def DistinctNames : Value → Prop
  | .list xs => DistinctNamesAll xs
  | .tuple xs => DistinctNamesAll xs
  | .map _ es => (es.map fun e => memberName e.1).Nodup ∧ DistinctNamesEntries es
  | .anchor _ v => DistinctNames v
  | _ => True

def DistinctNamesAll : List Value → Prop
  | [] => True
  | v :: vs => DistinctNames v ∧ DistinctNamesAll vs

def DistinctNamesEntries : List (Value × Value) → Prop
  | [] => True
  | (_, v) :: es => DistinctNames v ∧ DistinctNamesEntries es

end

lemma repeated?_eq_none_iff {seen names : List Text} :
    repeated? seen names = none ↔ names.Nodup ∧ ∀ name ∈ names, name ∉ seen := by
  induction names generalizing seen with
  | nil => simp [repeated?]
  | cons name names ih =>
    rw [repeated?, List.nodup_cons, List.forall_mem_cons]
    split_ifs with h
    · refine iff_of_false nofun fun hnot => hnot.2.1 ?_
      simpa using h
    · rw [ih]
      simp only [List.contains_eq_mem, decide_eq_true_eq, List.mem_cons, not_or] at h ⊢
      constructor
      · rintro ⟨hnodup, hnew⟩
        exact ⟨⟨fun hmem => (hnew name hmem).1 rfl, hnodup⟩, h, fun n hn => (hnew n hn).2⟩
      · rintro ⟨⟨hname, hnodup⟩, -, hnew⟩
        exact ⟨hnodup, fun n hn => ⟨fun heq => hname (heq ▸ hn), hnew n hn⟩⟩

/-- An object has a meaning exactly if its names are different, and then it keeps all members. -/
lemma unique_eq_ok_iff {es : List (Text × Value)} {v : Value} : unique es = .ok v ↔
    (es.map (·.1)).Nodup ∧ v = .map false (es.map fun e => (.text e.1, e.2)) := by
  have hnone := @repeated?_eq_none_iff [] (es.map (·.1))
  rw [unique]
  cases h : repeated? [] (es.map (·.1)) with
  | none => simp [(hnone.mp h).1, eq_comm]
  | some name =>
    refine iff_of_false nofun fun hnot => ?_
    rw [hnone.mpr ⟨hnot.1, by simp⟩] at h
    cases h

lemma heardMembers_cons {e : Value × Value} {es : List (Value × Value)} {ms : List (Text × Value)} :
    heardMembers (e :: es) = .ok ms ↔
      ∃ w rest, heard e.2 = .ok w ∧ heardMembers es = .ok rest ∧ ms = (memberName e.1, w) :: rest := by
  rw [heardMembers]
  cases heard e.2 with
  | error fault => simp [bind, Except.bind]
  | ok w =>
    cases heardMembers es with
    | error fault => simp [bind, Except.bind]
    | ok rest => simp [bind, Except.bind, pure, Except.pure, eq_comm]

lemma names_heardMembers {es : List (Value × Value)} {ms : List (Text × Value)} (h : heardMembers es = .ok ms) :
    ms.map (·.1) = es.map fun e => memberName e.1 := by
  induction es generalizing ms with
  | nil =>
    obtain rfl := Except.ok.inj h
    rfl
  | cons e es ih =>
    obtain ⟨w, rest, -, hrest, rfl⟩ := heardMembers_cons.mp h
    rw [List.map_cons, List.map_cons, ih hrest]

lemma heard_map {o : Bool} {es : List (Value × Value)} {w : Value} (h : heard (.map o es) = .ok w) :
    ∃ entries, w = .map false entries ∧ entries.length = es.length := by
  rw [heard] at h
  obtain ⟨ms, hms, h⟩ := bind_eq_ok h
  obtain ⟨-, rfl⟩ := unique_eq_ok_iff.mp h
  refine ⟨_, rfl, ?_⟩
  have hlength := congrArg List.length (names_heardMembers hms)
  simpa using hlength

mutual

/-- What is written for a value is read exactly if no two keys of a mapping have one name. -/
theorem heard_isOk_iff : (v : Value) → ((∃ w, heard v = .ok w) ↔ DistinctNames v)
  | .null | .range .. | .sequence .. | .set .. | .alias _ => iff_of_true ⟨_, rfl⟩ trivial
  | .scalar s => by
    refine iff_of_true ?_ (by cases s <;> trivial)
    cases s <;> exact ⟨_, rfl⟩
  | .list xs => by
    rw [heard, isOk_bind_iff, DistinctNames, ← heardAll_isOk_iff xs]
    exact exists_congr fun ws => and_iff_left ⟨_, rfl⟩
  | .tuple xs => by
    rw [heard, isOk_bind_iff, DistinctNames, ← heardAll_isOk_iff xs]
    exact exists_congr fun ws => and_iff_left ⟨_, rfl⟩
  | .map o es => by
    rw [heard, isOk_bind_iff, DistinctNames, ← heardMembers_isOk_iff es, ← exists_and_left]
    refine exists_congr fun ms => ?_
    rw [and_comm (b := heardMembers es = .ok ms)]
    refine and_congr_right fun hms => ?_
    rw [← names_heardMembers hms]
    exact ⟨fun ⟨w, hw⟩ => (unique_eq_ok_iff.mp hw).1, fun h => ⟨_, unique_eq_ok_iff.mpr ⟨h, rfl⟩⟩⟩
  | .anchor l v => by
    rw [heard, DistinctNames, heard_isOk_iff v]

theorem heardAll_isOk_iff : (vs : List Value) → ((∃ ws, heardAll vs = .ok ws) ↔ DistinctNamesAll vs)
  | [] => iff_of_true ⟨_, rfl⟩ trivial
  | v :: vs => by
    rw [heardAll, isOk_bind_iff, DistinctNamesAll, ← heard_isOk_iff v, ← heardAll_isOk_iff vs, ← exists_and_right]
    refine exists_congr fun w => and_congr_right fun _ => ?_
    rw [isOk_bind_iff]
    exact exists_congr fun ws => and_iff_left ⟨_, rfl⟩

theorem heardMembers_isOk_iff : (es : List (Value × Value)) →
    ((∃ ms, heardMembers es = .ok ms) ↔ DistinctNamesEntries es)
  | [] => iff_of_true ⟨_, rfl⟩ trivial
  | (k, v) :: es => by
    rw [DistinctNamesEntries, ← heard_isOk_iff v, ← heardMembers_isOk_iff es]
    simp only [heardMembers_cons]
    exact ⟨fun ⟨_, w, rest, hw, hrest, _⟩ => ⟨⟨w, hw⟩, rest, hrest⟩,
      fun ⟨⟨w, hw⟩, rest, hrest⟩ => ⟨_, w, rest, hw, hrest, rfl⟩⟩

end

mutual

theorem distinctNames_normalize : (v : Value) → (DistinctNames v.normalize ↔ DistinctNames v)
  | .null | .range .. | .sequence .. | .set .. | .alias _ | .scalar _ => Iff.rfl
  | .list xs | .tuple xs => distinctNamesAll_normalizeAll xs
  | .map o es => by
    have hkeys : (Value.normalizeEntries es).map (fun e => memberName e.1) = es.map fun e => memberName e.1 := by
      induction es with
      | nil => rfl
      | cons e es ih => rw [Value.normalizeEntries, List.map_cons, List.map_cons, ih]
    rw [Value.normalize, DistinctNames, DistinctNames, hkeys, distinctNamesEntries_normalizeEntries es]
  | .anchor l v => distinctNames_normalize v

theorem distinctNamesAll_normalizeAll : (vs : List Value) → (DistinctNamesAll (Value.normalizeAll vs) ↔ DistinctNamesAll vs)
  | [] => Iff.rfl
  | v :: vs => and_congr (distinctNames_normalize v) (distinctNamesAll_normalizeAll vs)

theorem distinctNamesEntries_normalizeEntries : (es : List (Value × Value)) →
    (DistinctNamesEntries (Value.normalizeEntries es) ↔ DistinctNamesEntries es)
  | [] => Iff.rfl
  | (_, v) :: es => and_congr (distinctNames_normalize v) (distinctNamesEntries_normalizeEntries es)

end

/-- A floating-point number that is read back from its own text, and is a number. -/
def Faithful (x : Binary64) : Prop :=
  x.isNaN = false ∧ Numeral.readFloat (x.layout Binary64.plainLayout) = .ok x

lemma Faithful.respelled {x : Binary64} (h : Faithful x) : respelled x = x := by
  rw [Json.respelled, h.2]
  rfl

mutual

/-- A value in normal form is heard as it is, if its keys are texts and its floating-point numbers are read back. -/
theorem heard_normalize : (v : Value) → v.TextKeyed → (∀ x ∈ v.floats, Faithful x) →
    heard v.normalize = .ok v.normalize.withoutAnchors
  | .null, _, _ | .range .., _, _ | .sequence .., _, _ | .set .., _, _ | .alias _, _, _ => rfl
  | .scalar s, _, hf => by
    cases s with
    | float x =>
      have hx := (hf x (by simp [Value.floats])).respelled
      exact congrArg (fun y => Except.ok (Value.float y)) hx
    | _ => rfl
  | .list xs, hk, hf => by
    rw [Value.normalize, heard, heardAll_normalizeAll xs hk hf]
    rfl
  | .tuple xs, hk, hf => by
    rw [Value.normalize, heard, heardAll_normalizeAll xs hk hf]
    rfl
  | .map o es, hk, hf => by
    obtain ⟨ms, hms, hentries, hkeys⟩ := heardMembers_normalizeEntries es hk.1 hk.2.2 hf
    have hnodup : (ms.map (·.1)).Nodup := by
      have htexts : ((ms.map (·.1)).map fun name => Value.text name).Nodup := by
        rw [List.map_map]
        exact hkeys ▸ hk.2.1
      exact List.Nodup.of_map _ htexts
    rw [Value.normalize, heard, hms, Value.withoutAnchors, hentries]
    exact unique_eq_ok_iff.mpr ⟨hnodup, rfl⟩
  | .anchor l v, hk, hf => heard_normalize v hk hf

theorem heardAll_normalizeAll : (vs : List Value) → Value.TextKeyedAll vs → (∀ x ∈ Value.floatsAll vs, Faithful x) →
    heardAll (Value.normalizeAll vs) = .ok (Value.withoutAnchorsAll (Value.normalizeAll vs))
  | [], _, _ => rfl
  | v :: vs, hk, hf => by
    rw [Value.normalizeAll, heardAll, heard_normalize v hk.1 fun x hx => hf x (List.mem_append_left _ hx),
      heardAll_normalizeAll vs hk.2 fun x hx => hf x (List.mem_append_right _ hx)]
    rfl

theorem heardMembers_normalizeEntries : (es : List (Value × Value)) → (∀ e ∈ es, ∃ name, e.1 = .text name) →
    Value.TextKeyedEntries es → (∀ x ∈ Value.floatsEntries es, Faithful x) →
    ∃ ms, heardMembers (Value.normalizeEntries es) = .ok ms ∧
      Value.withoutAnchorsEntries (Value.normalizeEntries es) = ms.map (fun e => (.text e.1, e.2)) ∧
      es.map (·.1) = ms.map fun e => .text e.1
  | [], _, _, _ => ⟨[], rfl, rfl, rfl⟩
  | (k, v) :: es, hn, hk, hf => by
    obtain ⟨name, rfl⟩ : ∃ name, k = .text name := hn (k, v) (by simp)
    obtain ⟨ms, hms, hentries, hkeys⟩ := heardMembers_normalizeEntries es
      (fun e hmem => hn e (List.mem_cons_of_mem _ hmem)) hk.2 (fun x hx => hf x (List.mem_append_right _ hx))
    have hv := heard_normalize v hk.1 fun x hx => hf x (List.mem_append_left _ hx)
    refine ⟨(name, v.normalize.withoutAnchors) :: ms, heardMembers_cons.mpr ⟨_, _, hv, hms, rfl⟩, ?_, ?_⟩
    · rw [Value.normalizeEntries, Value.withoutAnchorsEntries, hentries]
      rfl
    · rw [List.map_cons, hkeys]
      rfl

end

end DocPath.Json
