import DocPath.Proofs.Query.Concat
import DocPath.Proofs.Query.Keys
import DocPath.Proofs.Value.Normal
import DocPath.Stash

/-! Walks in a document and in its normal form. They meet the same keys, sizes and types, so each step leads to the
normal form of what it leads to in the document, or fails alike, up to a sequence that the normal form leaves alone:
what lies in there is the same in both. -/

namespace DocPath

def Items.normalize : Items → Items
  | listed xs => listed (xs.map Value.normalize)
  | progression start step n => progression start step n

namespace Items

lemma size_normalize (items : Items) : items.normalize.size = items.size := by
  cases items <;> simp [normalize, size]

lemma get?_normalize (i : Nat) (items : Items) : items.normalize.get? i = (items.get? i).map Value.normalize := by
  cases items with
  | listed xs => simp [normalize, get?]
  | progression start step n =>
    simp only [normalize, get?]
    split_ifs <;> rfl

end Items

/-- The node of a normal form: all that lies below is in normal form, and the keys are the same. -/
def Node.normalize : Node → Node
  | null => null
  | mapping entries => mapping (entries.map fun e => (e.1, e.2.normalize))
  | sequence items => sequence items.normalize
  | scalar type => scalar type

namespace Value

variable {v : Value}

/-- A sequence that normal forms leave alone, with all that lies in it. -/
def IsLeftAlone (v : Value) : Prop := ∃ type xs, v.opened = .sequence type xs

lemma node_normalize (h : v.isCyclic = false) (hv : ¬v.IsLeftAlone) : v.normalize.node = v.node.normalize := by
  rw [node, node, opened_normalize h]
  cases hopened : v.opened with
  | list xs | tuple xs =>
    simp only [normalize_list, normalize_tuple]
    rfl
  | sequence type xs => exact absurd ⟨type, xs, hopened⟩ hv
  | map o es =>
    rw [normalize_map]
    rfl
  | anchor l w => exact absurd hopened (opened_ne_anchor h l w)
  | _ => rfl

lemma IsLeftAlone.node_normalize (hv : v.IsLeftAlone) (h : v.isCyclic = false) : v.normalize.node = v.node := by
  obtain ⟨type, xs, hopened⟩ := hv
  rw [node, node, opened_normalize h, hopened]
  rfl

end Value

namespace Query

variable {d v : Value} {key path segment : Text} {segments rest : List Text} {entries : List (Value × Value)} {items : Items}
  {store : Store} {events : List Event}

section Steps

lemma valueAt?_normalize (entries : List (Value × Value)) (key : Text) :
    valueAt? (entries.map fun e => (e.1, e.2.normalize)) key = (valueAt? entries key).map Value.normalize := by
  rw [valueAt?, valueAt?, List.find?_map, Option.map_map, Option.map_map]
  rfl

lemma firstKey_normalize (hkeys : ∀ e ∈ entries, ∃ t, e.1 = .text t) :
    firstKey (entries.map fun e => (e.1, e.2.normalize)) = (firstKey entries).map Value.normalize := by
  cases entries with
  | nil => rfl
  | cons e es =>
    obtain ⟨t, ht⟩ := hkeys e List.mem_cons_self
    have hsome := congrArg Option.isSome (valueAt?_normalize (e :: es) anyKey)
    rw [Option.isSome_map, List.map_cons] at hsome
    rw [List.map_cons, firstKey, firstKey, hsome]
    split_ifs
    · rfl
    · simp [Except.map, ht, Value.normalize]

lemma item_normalize (items : Items) (key : Text) :
    item items.normalize key = (item items key).map Value.normalize := by
  simp only [item, Items.size_normalize, Items.get?_normalize]
  split_ifs
  · rfl
  · rfl
  · rfl
  · cases Numeral.readInteger 10 key with
    | error fault => rfl
    | ok index =>
      by_cases hneg : index < 0
      · simp [hneg, Except.map]
      · cases hi : items.get? index.toNat <;> simp [hneg, hi, Except.map]

/-- A key leads to the normal form of what it leads to in the document; a first key is a text, and so its own. -/
theorem step_normalize (hkeys : d.TextKeyed) (hacyclic : d.isCyclic = false) (halone : ¬d.IsLeftAlone) (key : Text) :
    step d.normalize key = (step d key).map Value.normalize := by
  rw [step, step, Value.node_normalize hacyclic halone]
  cases hd : d.node with
  | null => rfl
  | scalar type => rfl
  | sequence items => exact item_normalize items key
  | mapping entries =>
    simp only [Node.normalize]
    split_ifs with hk
    · obtain ⟨o, ho⟩ := textKeyed_of_mapping hkeys hd
      exact firstKey_normalize (Value.textKeyed_map.mp ho).1
    · rw [valueAt?_normalize]
      cases valueAt? entries key <;> rfl

/-- Nothing below a document contains itself if the document does not. -/
lemma Finds.acyclic (h : Finds d key v) (hkeys : d.TextKeyed) (hacyclic : d.isCyclic = false) : v.isCyclic = false := by
  have hopened := Value.acyclic_opened hacyclic
  cases h with
  | nothing => rfl
  | entry hm _ he =>
    obtain ⟨o, ho⟩ := node_eq_mapping hm
    rw [ho, Value.acyclic_map] at hopened
    exact (hopened _ (List.mem_of_find?_eq_some he)).2
  | absent => rfl
  | first hm =>
    obtain ⟨o, ho⟩ := textKeyed_of_mapping hkeys hm
    obtain ⟨t, ht⟩ := (Value.textKeyed_map.mp ho).1 _ List.mem_cons_self
    rw [ht]
    rfl
  | item hs _ hv =>
    rw [itemAt?] at hv
    split_ifs at hv
    rcases opened_of_item hs hv with ⟨xs, hxs | hxs | ⟨type, hxs⟩, hmem⟩ | ⟨n, rfl⟩
    · rw [hxs, Value.acyclic_list] at hopened
      exact hopened v hmem
    · rw [hxs] at hopened
      exact Value.acyclic_list.mp hopened v hmem
    · rw [hxs] at hopened
      exact Value.acyclic_list.mp hopened v hmem
    · rfl

lemma Reaches.acyclic (h : Reaches store d segments v) (hkeys : d.TextKeyed) (hacyclic : d.isCyclic = false) :
    v.isCyclic = false := by
  induction h with
  | nil => exact hacyclic
  | cons _ _ hf _ ih => exact ih (hf.textKeyed hkeys) (hf.acyclic hkeys hacyclic)

lemma acyclic_of_evaluate (h : evaluate store d path = .ok v) (hkeys : d.TextKeyed) (hacyclic : d.isCyclic = false) :
    v.isCyclic = false := by
  rcases reaches_of_walk h with hr | ⟨rfl, -⟩
  · exact hr.acyclic hkeys hacyclic
  · rfl

end Steps

/-- Segments lead into a sequence that normal forms leave alone: those before the last lead to one. -/
def Enters (store : Store) (d : Value) (segments : List Text) : Prop :=
  ∃ before segment after v, segments = before ++ segment :: after ∧ (walk store [] d before).2 = .ok v ∧ v.IsLeftAlone

section Enters

lemma not_enters_nil : ¬Enters store d [] := by
  rintro ⟨before, segment, after, v, h, -⟩
  simp at h

lemma enters_of_leftAlone (h : d.IsLeftAlone) : Enters store d (segment :: rest) :=
  ⟨[], segment, rest, d, rfl, rfl, h⟩

/-- What is entered behind the first segment is entered from where that leads. -/
lemma enters_cons (halone : ¬d.IsLeftAlone) (hd : d ≠ .null) (hk : Query.key store segment = .ok (key, events))
    (hs : step d key = .ok v) : Enters store d (segment :: rest) ↔ Enters store v rest := by
  constructor
  · rintro ⟨before, s, after, u, heq, hwalk, hu⟩
    cases before with
    | nil => exact absurd (Except.ok.inj hwalk ▸ hu) halone
    | cons b before =>
      obtain ⟨rfl, rfl⟩ := List.cons.inj heq
      exact ⟨before, s, after, u, rfl, (walk_of_step hd hk hs before).symm.trans hwalk, hu⟩
  · rintro ⟨before, s, after, u, rfl, hwalk, hu⟩
    exact ⟨segment :: before, s, after, u, rfl, (walk_of_step hd hk hs before).trans hwalk, hu⟩

end Enters

/-- From a sequence that is left alone the walk goes on as in the document. -/
lemma walk_leftAlone (hacyclic : d.isCyclic = false) (halone : d.IsLeftAlone) (store : Store) (path segment : Text)
    (rest : List Text) : walk store path d.normalize (segment :: rest) = walk store path d (segment :: rest) := by
  have hstep (name : Text) : step d.normalize name = step d name := by
    rw [step, step, halone.node_normalize hacyclic]
  simp only [walk, Value.normalize_eq_null, hstep]

/-- Along the same segments the walk in the normal form notes the same and fails alike. Where it enters a sequence that
is left alone it comes to what the walk in the document comes to, and to the normal form of that where it does not. -/
theorem walk_normalize (hkeys : d.TextKeyed) (hacyclic : d.isCyclic = false) (store : Store) (path : Text)
    (segments : List Text) :
    (walk store path d.normalize segments).1 = (walk store path d segments).1 ∧
    (Enters store d segments → (walk store path d.normalize segments).2 = (walk store path d segments).2) ∧
    (¬Enters store d segments →
      (walk store path d.normalize segments).2 = (walk store path d segments).2.map Value.normalize) := by
  induction segments generalizing d with
  | nil => exact ⟨rfl, fun h => absurd h not_enters_nil, fun _ => rfl⟩
  | cons segment rest ih =>
    by_cases halone : d.IsLeftAlone
    · rw [walk_leftAlone hacyclic halone]
      exact ⟨rfl, fun _ => rfl, fun h => absurd (enters_of_leftAlone halone) h⟩
    simp only [walk, Value.normalize_eq_null]
    split_ifs with hd
    · exact ⟨rfl, fun _ => rfl, fun _ => rfl⟩
    cases hk : Query.key store segment with
    | error fault => exact ⟨rfl, fun _ => rfl, fun _ => rfl⟩
    | ok named =>
      obtain ⟨name, events⟩ := named
      have hstep := step_normalize hkeys hacyclic halone name
      cases hs : step d name with
      | error fault =>
        simp only [hs, hstep, Except.map]
        exact ⟨trivial, fun _ => trivial, fun _ => trivial⟩
      | ok next =>
        have hf := finds_of_step hs
        obtain ⟨hevents, hentered, hnot⟩ := ih (hf.textKeyed hkeys) (hf.acyclic hkeys hacyclic)
        rw [enters_cons halone hd hk hs]
        simp only [hs, hstep, Except.map, hevents, Value.normalize_eq_null] at hnot ⊢
        exact ⟨trivial, hentered, hnot⟩

/-- Evaluating a path in the normal form of a document gives a value with the same normal form as in the document,
whatever the stash holds: null for null only, and the same error if there is one. Unless the path leads into a sequence
that is left alone this value is the normal form itself; if it does, it is the very value that lies there. The walks leave
the same messages. A normal form is its own normal form. -/
theorem evaluate_normal {document : Value} (hkeys : document.TextKeyed) (hacyclic : document.isCyclic = false) :
    (∀ v w : Value, v.normal? = some w → w.normal? = some w) ∧
      ∃ normal, document.normal? = some normal ∧ ∀ store path,
        (∀ v, evaluate store document path = .ok v → ∃ u w, evaluate store normal path = .ok w ∧
          v.normal? = some u ∧ w.normal? = some u ∧
          (¬Enters store document (Path.parse path) → w = u) ∧ (Enters store document (Path.parse path) → w = v)) ∧
        (evaluate store normal path = .ok .null ↔ evaluate store document path = .ok .null) ∧
        (∀ fault, evaluate store normal path = .error fault ↔ evaluate store document path = .error fault) ∧
        (trace store normal path).1 = (trace store document path).1 := by
  refine ⟨fun v w h => Value.normal?_normal? h, document.normalize, Value.normal?_of_acyclic hacyclic,
    fun store path => ?_⟩
  obtain ⟨hevents, hentered, hnot⟩ := walk_normalize hkeys hacyclic store path (Path.parse path)
  have hsame (h : Enters store document (Path.parse path)) :
      evaluate store document.normalize path = evaluate store document path := hentered h
  have hnormal (h : ¬Enters store document (Path.parse path)) :
      evaluate store document.normalize path = (evaluate store document path).map Value.normalize := hnot h
  refine ⟨fun v hv => ?_, ?_, fun fault => ?_, hevents⟩
  · have hv' := acyclic_of_evaluate hv hkeys hacyclic
    have hw := Value.normal?_of_acyclic (Value.acyclic_normalize hv')
    rw [Value.normalize_normalize] at hw
    by_cases h : Enters store document (Path.parse path)
    · exact ⟨v.normalize, v, (hsame h).trans hv, Value.normal?_of_acyclic hv', Value.normal?_of_acyclic hv',
        fun hn => absurd h hn, fun _ => rfl⟩
    · exact ⟨v.normalize, v.normalize, by rw [hnormal h, hv]; rfl, Value.normal?_of_acyclic hv', hw, fun _ => rfl,
        fun he => absurd he h⟩
  · by_cases h : Enters store document (Path.parse path)
    · rw [hsame h]
    · rw [hnormal h]
      cases evaluate store document path with
      | ok v => simp [Except.map, Value.normalize_eq_null]
      | error fault => simp [Except.map]
  · by_cases h : Enters store document (Path.parse path)
    · rw [hsame h]
    · rw [hnormal h]
      cases evaluate store document path <;> simp [Except.map]

/-- A shared tuple in a mapping that keeps an order, where the stash has the index, and a tuple in a list of a class of its
own. -/
theorem evaluate_normal_tuple :
    let document : Value := .map true [(.text "t", .anchor 0 (.tuple [.null, .map true []])),
      (.text "u", .sequence .userList [.tuple [.range 0 3 1]])]
    let normal : Value := .map false [(.text "t", .anchor 0 (.list [.null, .map false []])),
      (.text "u", .sequence .userList [.tuple [.range 0 3 1]])]
    let stash := Stash.ofList [("n", .int 1)]
    document.normal? = some normal ∧
      evaluate stash.find? document "t.n" = .ok (.map true []) ∧
      (∃ u w, evaluate stash.find? normal "t.n" = .ok w ∧ (Value.map true []).normal? = some u ∧ w.normal? = some u) ∧
      Enters stash.find? document (Path.parse "u.0") ∧
      evaluate stash.find? normal "u.0" = .ok (.tuple [.range 0 3 1]) := by
  intro document normal stash
  have hkeys : document.TextKeyed := by
    simp [document, Value.TextKeyed, Value.TextKeyedAll, Value.TextKeyedEntries]
    decide
  obtain ⟨-, n, hn, hall⟩ := evaluate_normal hkeys (by decide +kernel)
  obtain rfl : normal = n := Option.some.inj hn
  have hvalue : evaluate stash.find? document "t.n" = .ok (.map true []) := by decide +kernel
  obtain ⟨u, w, hw, hu, hwu, -⟩ := (hall stash.find? "t.n").1 _ hvalue
  have hinner : evaluate stash.find? document "u.0" = .ok (.tuple [.range 0 3 1]) := by decide +kernel
  have henters : Enters stash.find? document (Path.parse "u.0") :=
    ⟨["u"], "0", [], .sequence .userList [.tuple [.range 0 3 1]], by decide +kernel, by decide +kernel, _, _, rfl⟩
  obtain ⟨-, w', hw', -, -, -, hsame⟩ := (hall stash.find? "u.0").1 _ hinner
  obtain rfl := hsame henters
  exact ⟨hn, hvalue, ⟨u, w, hw, hu, hwu⟩, henters, hw'⟩

/-- A queue stands in its own normal form with a tuple in it, while the normal form of the tuple is a list. -/
theorem not_normal_of_queue :
    let document : Value := .map false [(.text "d", .sequence .queue [.tuple [.int 1, .int 2]])]
    let v : Value := .tuple [.int 1, .int 2]
    document.TextKeyed ∧ document.isCyclic = false ∧ document.normal? = some document ∧
      evaluate Stash.empty.find? document "d.0" = .ok v ∧
      ∀ w, v.normal? = some w → evaluate Stash.empty.find? document "d.0" ≠ .ok w := by
  intro document v
  have hkeys : document.TextKeyed := by
    simp [document, Value.TextKeyed, Value.TextKeyedAll, Value.TextKeyedEntries]
  have hvalue : evaluate Stash.empty.find? document "d.0" = .ok v := by decide +kernel
  have hnormal : v.normal? = some (.list [.int 1, .int 2]) := by decide +kernel
  refine ⟨hkeys, by decide +kernel, by decide +kernel, hvalue, fun w hw h => ?_⟩
  obtain rfl := Option.some.inj (hnormal.symm.trans hw)
  have hlist : Value.tuple [.int 1, .int 2] = .list [.int 1, .int 2] := Except.ok.inj (hvalue.symm.trans h)
  cases hlist

end Query

end DocPath
