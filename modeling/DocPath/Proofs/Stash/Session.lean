import DocPath.Proofs.Session
import DocPath.Proofs.Stash.OrderedMap

/-! The stashes of a session taken as maps, each on its own: every answer is the one that the maps give, and the stash
that holds nothing never holds anything. -/

namespace DocPath.Session

open Stash

/-- Actions on stashes with texts as keys: a stash is made with some entries, or called. The stash of a test is made with
none, and cleared in the end. -/
inductive StashAction where
  | make (stash : Text) (entries : List (Text × Value))
  | call (stash : Text) (call : Call)

namespace StashAction

/-- The name of the stash that an action is about. -/
def stash : StashAction → Text
  | make name _ | call name _ => name

def action : StashAction → Action
  | make name entries => .newStash name entries
  | call name c => .onStash name c.operation

end StashAction

/-- A map for each stash, by name. -/
abbrev Maps := Text → Option Abstract

namespace Maps

def initial : Maps := fun name => if name = "EMPTY" then some ⟨.empty, true⟩ else none

def answer (maps : Maps) : StashAction → Except Failure Value
  | .make _ _ => .ok .null
  | .call name c => (maps name).elim (.error (.unnamed name)) (·.answer c)

def after (maps : Maps) : StashAction → Maps
  | .make name entries => Function.update maps name (some ⟨.ofEntries entries, false⟩)
  | .call name c => Function.update maps name ((maps name).map (·.after c))

def answers (maps : Maps) : List StashAction → List (Except Failure Value)
  | [] => []
  | a :: rest => maps.answer a :: answers (maps.after a) rest

def afterAll (maps : Maps) (actions : List StashAction) : Maps := actions.foldl after maps

variable {maps : Maps} {a : StashAction} {actions : List StashAction}

/-- Only maps without entries refuse changes. -/
def Guarded (maps : Maps) : Prop := ∀ name m, maps name = some m → m.readOnly = true → m = ⟨.empty, true⟩

lemma guarded_initial : Guarded initial := by
  intro name m h _
  simp only [initial] at h
  split_ifs at h
  exact (Option.some.inj h).symm

lemma Guarded.after (h : Guarded maps) (a : StashAction) : Guarded (maps.after a) := by
  intro name m hm hw
  cases a with
  | make stash entries =>
    by_cases hname : name = stash
    · subst hname
      simp only [Maps.after, Function.update_self, Option.some.injEq] at hm
      subst hm
      simp at hw
    · simp only [Maps.after, Function.update_of_ne hname] at hm
      exact h name m hm hw
  | call stash c =>
    by_cases hname : name = stash
    · subst hname
      simp only [Maps.after, Function.update_self, Option.map_eq_some_iff] at hm
      obtain ⟨m', hm', rfl⟩ := hm
      rw [Abstract.readOnly_after] at hw
      rw [Abstract.after_of_readOnly hw]
      exact h name m' hm' hw
    · simp only [Maps.after, Function.update_of_ne hname] at hm
      exact h name m hm hw

lemma guarded_afterAll (h : Guarded maps) (actions : List StashAction) : Guarded (maps.afterAll actions) := by
  induction actions generalizing maps with
  | nil => exact h
  | cons a rest ih => exact ih (h.after a)

lemma empty_afterAll (h : maps "EMPTY" = some ⟨.empty, true⟩) (hmake : ∀ entries, .make "EMPTY" entries ∉ actions) :
    maps.afterAll actions "EMPTY" = some ⟨.empty, true⟩ := by
  induction actions generalizing maps with
  | nil => exact h
  | cons a rest ih =>
    refine ih ?_ fun entries hmem => hmake entries (List.mem_cons_of_mem a hmem)
    cases a with
    | make stash entries =>
      have hne : Text.ofString "EMPTY" ≠ stash := fun heq => hmake entries (heq ▸ List.mem_cons_self)
      simpa [Maps.after, Function.update_of_ne hne] using h
    | call stash c =>
      by_cases hname : Text.ofString "EMPTY" = stash
      · subst hname
        simp only [Maps.after, Function.update_self, h, Option.map_some, Abstract.after_of_readOnly]
      · simpa [Maps.after, Function.update_of_ne hname] using h

end Maps

variable {s : Session} {maps : Maps} {name : Text} {t u : Stash} {v : Value} {fault : Failure}

/-- What an operation on a stash leads to: there is none of that name, or the operation fails and nothing changes, or the
stash of that name is another one. -/
lemma onStash_cases (s : Session) (name : Text) (operation : Operation) :
    (s.stashes.lookup name = none ∧ s.answer (.onStash name operation) = .error (.unnamed name) ∧
      s.after (.onStash name operation) = s) ∨
    ∃ t, s.stashes.lookup name = some t ∧
      ((∃ fault, t.apply operation = .error fault ∧ s.answer (.onStash name operation) = .error fault ∧
          s.after (.onStash name operation) = s) ∨
        ∃ u v, t.apply operation = .ok (u, v) ∧ s.answer (.onStash name operation) = .ok (.value v) ∧
          s.after (.onStash name operation) = s.putStash name u) := by
  simp only [answer, after, step, effect, stash]
  cases s.stashes.lookup name with
  | none => exact .inl ⟨rfl, rfl, rfl⟩
  | some t =>
    right
    refine ⟨t, rfl, ?_⟩
    cases ht : t.apply operation with
    | error fault =>
      exact .inl ⟨fault, rfl, by simp [bind, Except.bind, ht, become], by simp [bind, Except.bind, ht, become]⟩
    | ok p =>
      obtain ⟨u, v⟩ := p
      exact .inr ⟨u, v, rfl, by simp [bind, Except.bind, pure, Except.pure, ht, become],
        by simp [bind, Except.bind, pure, Except.pure, ht, become]⟩

lemma lookup_putStash (s : Session) (name other : Text) (t : Stash) :
    (s.putStash name t).stashes.lookup other = if other = name then some t else s.stashes.lookup other :=
  Table.lookup_put name other t s.stashes

/-- Every stash has the keys and values of its map. -/
def Shown (s : Session) (maps : Maps) : Prop := ∀ name, Option.Rel Shows (s.stashes.lookup name) (maps name)

namespace Shown

lemma initial : Shown {} Maps.initial := by
  intro name
  show Option.Rel Shows (List.lookup name [("EMPTY", Stash.empty)]) _
  rw [Table.lookup_cons_ite, Maps.initial]
  split_ifs
  · exact .some .empty
  · exact .none

lemma put {m : Abstract} (h : Shown s maps) (name : Text) (ht : Shows t m) :
    Shown (s.putStash name t) (Function.update maps name (some m)) := by
  intro other
  rw [lookup_putStash, Function.update_apply]
  split_ifs
  · exact .some ht
  · exact h other

lemma eq_none (h : Shown s maps) (hl : s.stashes.lookup name = none) : maps name = none := by
  have hname := h name
  rw [hl] at hname
  cases hm : maps name with
  | none => rfl
  | some m =>
    rw [hm] at hname
    cases hname

lemma eq_some (h : Shown s maps) (hl : s.stashes.lookup name = some t) : ∃ m, maps name = some m ∧ Shows t m := by
  have hname := h name
  rw [hl] at hname
  cases hm : maps name with
  | none =>
    rw [hm] at hname
    cases hname
  | some m =>
    rw [hm] at hname
    cases hname with
    | some hshows => exact ⟨m, rfl, hshows⟩

lemma exists_some {m : Abstract} (h : Shown s maps) (hm : maps name = some m) :
    ∃ t, s.stashes.lookup name = some t ∧ Shows t m := by
  cases hl : s.stashes.lookup name with
  | none => cases (h.eq_none hl).symm.trans hm
  | some t =>
    obtain ⟨m', hm', hshows⟩ := h.eq_some hl
    cases hm.symm.trans hm'
    exact ⟨t, rfl, hshows⟩

/-- One action: the answer is that of the maps, and the maps go along. -/
theorem step (h : Shown s maps) (a : StashAction) :
    s.answer a.action = (maps.answer a).map .value ∧ Shown (s.after a.action) (maps.after a) := by
  cases a with
  | make name entries => exact ⟨rfl, h.put name (.ofList entries)⟩
  | call name c =>
    rw [StashAction.action]
    rcases onStash_cases s name c.operation with ⟨hl, hanswer, hafter⟩ | ⟨t, hl, houtcome⟩
    · have hnone := h.eq_none hl
      have hsame : maps.after (.call name c) = maps := by
        rw [Maps.after, hnone, Option.map_none, ← hnone, Function.update_eq_self]
      rw [hanswer, hafter, hsame]
      exact ⟨by simp [Maps.answer, hnone, Except.map], h⟩
    · obtain ⟨m, hm, hshows⟩ := h.eq_some hl
      have hmaps : maps.after (.call name c) = Function.update maps name (some (m.after c)) := by
        simp [Maps.after, hm]
      have hanswers : maps.answer (.call name c) = m.answer c := by simp [Maps.answer, hm]
      rw [hanswers, hmaps]
      rcases houtcome with ⟨fault, happly, hanswer, hafter⟩ | ⟨u, v, happly, hanswer, hafter⟩ <;> rw [hanswer, hafter]
      all_goals rcases hshows.apply c with ⟨f, hf, hmap, hkeep⟩ | ⟨w, x, hw, hmap, hkeep⟩
      · cases happly.symm.trans hf
        rw [hmap, hkeep, ← hm, Function.update_eq_self]
        exact ⟨rfl, h⟩
      · cases happly.symm.trans hw
      · cases happly.symm.trans hf
      · cases happly.symm.trans hw
        rw [hmap]
        exact ⟨rfl, h.put name hkeep⟩

/-- Any number of actions. -/
theorem run (h : Shown s maps) (actions : List StashAction) :
    (s.run (actions.map StashAction.action)).map Reply.answer = (maps.answers actions).map (·.map .value) ∧
      Shown (s.afterAll (actions.map StashAction.action)) (maps.afterAll actions) := by
  induction actions generalizing s maps with
  | nil => exact ⟨rfl, h⟩
  | cons a rest ih =>
    obtain ⟨hanswer, hnext⟩ := h.step a
    obtain ⟨hanswers, hend⟩ := ih hnext
    refine ⟨?_, hend⟩
    rw [List.map_cons, run_cons, List.map_cons, Maps.answers, List.map_cons, hanswers]
    exact congrArg (· :: _) hanswer

end Shown

lemma after_eq_self (a : StashAction) (h : s.answer a.action = .error fault) : s.after a.action = s := by
  cases a with
  | make name entries => cases h
  | call name c =>
    rcases onStash_cases s name c.operation with ⟨-, -, hafter⟩ | ⟨t, -, ⟨f, -, -, hafter⟩ | ⟨u, v, -, hanswer, -⟩⟩
    · exact hafter
    · exact hafter
    · cases h.symm.trans hanswer

lemma lookup_after_of_ne (a : StashAction) (h : name ≠ a.stash) :
    (s.after a.action).stashes.lookup name = s.stashes.lookup name := by
  cases a with
  | make other entries => exact (lookup_putStash s other name _).trans (if_neg h)
  | call other c =>
    rw [StashAction.action]
    rcases onStash_cases s other c.operation with ⟨-, -, hafter⟩ | ⟨t, -, ⟨f, -, -, hafter⟩ | ⟨u, v, -, -, hafter⟩⟩
    all_goals rw [hafter]
    exact (lookup_putStash s other name u).trans (if_neg h)

/-- A stash that is asked for a key it does not have fails by that, and only then. -/
lemma absent_iff (hl : s.stashes.lookup name = some t) (key : Text) :
    (∃ fault, s.answer (.onStash name (.get key)) = .error fault ∧ fault.kind = .stashLookup) ↔ key ∉ t.keys := by
  have hkey : key ∈ t.keys ↔ t.find? key ≠ none := Table.mem_names_iff t.entries
  rw [hkey, not_not]
  rcases onStash_cases s name (.get key) with ⟨hnone, -, -⟩ | ⟨u, hu, houtcome⟩
  · cases hl.symm.trans hnone
  · cases hl.symm.trans hu
    rcases houtcome with ⟨fault, happly, hanswer, -⟩ | ⟨u, v, happly, hanswer, -⟩
    all_goals
      rw [hanswer]
      simp only [Stash.apply, Stash.get] at happly
      cases hfind : t.find? key <;> simp only [hfind, reduceCtorEq] at happly
    · cases happly
      exact ⟨fun _ => rfl, fun _ => ⟨_, rfl, rfl⟩⟩
    · simp

/-- The mapping of a stash has its entries. -/
lemma entries_of_toValue (hl : s.stashes.lookup name = some t) {entries : List (Text × Value)}
    (h : s.answer (.onStash name .toValue) = .ok (.value (.map false (entries.map fun e => (.text e.1, e.2))))) :
    entries = t.entries := by
  have hinjective : Function.Injective fun e : Text × Value => (Value.text e.1, e.2) := by
    rintro ⟨k, v⟩ ⟨l, w⟩ heq
    simpa using heq
  rcases onStash_cases s name .toValue with ⟨-, hanswer, -⟩ | ⟨u, hu, ⟨fault, -, hanswer, -⟩ | ⟨u', v, happly, hanswer, -⟩⟩
  · cases hanswer.symm.trans h
  · cases hanswer.symm.trans h
  · cases hl.symm.trans hu
    cases happly
    have hvalue := hanswer.symm.trans h
    simp only [Stash.toValue, Except.ok.injEq, Answer.value.injEq, Value.map.injEq, true_and] at hvalue
    exact (List.map_injective_iff.mpr hinjective hvalue).symm

/-- Stashes are maps that remember in which order their keys came up. Whatever was done with them, the answers were those
of the maps, and what a stash has is what its map has. A stash fails with a lookup error if it is asked for a key that
it does not have, and then only; one that is made from the mapping of another starts with the same entries. An action that
fails changes nothing, and no action changes a stash that it is not about. A stash that refuses changes stays without
entries, as does the one that is used where none is given. -/
theorem stashes_are_maps (actions : List StashAction) :
    let s := afterAll {} (actions.map StashAction.action)
    let maps := Maps.initial.afterAll actions
    (run {} (actions.map StashAction.action)).map Reply.answer = (Maps.initial.answers actions).map (·.map .value) ∧
      (∀ name, Option.Rel Shows (s.stashes.lookup name) (maps name)) ∧
      (∀ name t, s.stashes.lookup name = some t →
        (∀ key, (∃ fault, s.answer (.onStash name (.get key)) = .error fault ∧ fault.kind = .stashLookup) ↔
          key ∉ t.keys) ∧
        (t.readOnly = true → t = Stash.empty) ∧
        ∀ copy entries, s.answer (.onStash name .toValue) =
            .ok (.value (.map false (entries.map fun e => (.text e.1, e.2)))) →
          (s.after (.newStash copy entries)).stashes.lookup copy = some ⟨t.entries, false⟩) ∧
      (∀ (a : StashAction) fault, s.answer a.action = .error fault → s.after a.action = s) ∧
      (∀ (a : StashAction) name, name ≠ a.stash →
        (s.after a.action).stashes.lookup name = s.stashes.lookup name) ∧
      ((∀ entries, .make "EMPTY" entries ∉ actions) → s.stash "EMPTY" = .ok Stash.empty) := by
  intro s maps
  obtain ⟨hanswers, hshown⟩ : _ ∧ Shown s maps := Shown.initial.run actions
  refine ⟨hanswers, hshown, fun name t hl => ⟨absent_iff hl, fun hw => ?_, fun copy entries hcopy => ?_⟩,
    fun a fault hfault => after_eq_self a hfault, fun a name hne => lookup_after_of_ne a hne, fun hmake => ?_⟩
  · obtain ⟨m, hm, hshows⟩ := hshown.eq_some hl
    have hempty := Maps.guarded_afterAll Maps.guarded_initial actions name m hm (hshows.readOnly.symm.trans hw)
    exact (hempty ▸ hshows).eq_empty
  · obtain ⟨m, hm, hshows⟩ := hshown.eq_some hl
    have hentries := entries_of_toValue hl hcopy
    have hsame : Stash.ofList t.entries = ⟨t.entries, false⟩ := by
      rw [Stash.ofList, Table.ofEntries_of_nodup hshows.nodup]
    rw [hentries, ← hsame]
    exact (lookup_putStash s copy copy _).trans (if_pos rfl)
  · have hempty : maps "EMPTY" = some ⟨.empty, true⟩ := Maps.empty_afterAll rfl hmake
    obtain ⟨t, hl, hshows⟩ := hshown.exists_some hempty
    rw [stash, hl, hshows.eq_empty]

/-- A stash gets another value under its first key and is copied, and the stash that refuses changes is asked for one. -/
theorem stashes_are_maps_copied :
    let actions : List StashAction := [.make "one" [("b", .int 1), ("a", .int 2)], .call "one" (.insert "b" .null),
      .call "EMPTY" (.insert "k" .null)]
    let s := afterAll {} (actions.map StashAction.action)
    let copied := s.after (.newStash "two" [("b", .null), ("a", .int 2)])
    s.stash "EMPTY" = .ok Stash.empty ∧
      s.after (.onStash "EMPTY" .clear) = s ∧
      copied.stashes.lookup (.ofString "two") = some ⟨[("b", .null), ("a", .int 2)], false⟩ ∧
      (s.after (.onStash "one" .clear)).stashes.lookup (.ofString "EMPTY") = some Stash.empty := by
  intro actions s copied
  obtain ⟨-, -, hstashes, hfailing, hothers, hempty⟩ := stashes_are_maps actions
  have hone : s.stashes.lookup (Text.ofString "one") = some ⟨[("b", .null), ("a", .int 2)], false⟩ := by decide +kernel
  obtain ⟨-, -, hcopy⟩ := hstashes _ _ hone
  have hrest : s.stashes.lookup (Text.ofString "EMPTY") = some Stash.empty := by decide +kernel
  refine ⟨hempty (by simp [actions]; decide), hfailing (.call "EMPTY" .clear) (.stash .readOnly) rfl,
    hcopy "two" [("b", .null), ("a", .int 2)] rfl, ?_⟩
  exact (hothers (.call "one" .clear) "EMPTY" (by decide)).trans hrest

end DocPath.Session
