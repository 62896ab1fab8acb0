import DocPath.Proofs.Query.Concat
import DocPath.Proofs.Session

/-! The log of an evaluation: what is noted of each segment that the walk processes, and of the segment at which
nothing is found. -/

namespace DocPath

namespace Query

variable {store : Store} {path name segment : Text} {d next : Value} {segments rest done : List Text} {events : List Event}
  {fault : Fault}

/-- Segments lead to something: the walk along them does not fail and does not end in null. -/
def LeadsOn (store : Store) (d : Value) (segments : List Text) : Prop :=
  ∃ v, v ≠ .null ∧ (walk store [] d segments).2 = .ok v

/-- Segments lead from something to null. -/
def Vanishes (store : Store) (d : Value) (segments : List Text) : Prop :=
  d ≠ .null ∧ (walk store [] d segments).2 = .ok .null

/-- The segments that a walk processes: the first ones, as long as those before lead to something. -/
structure Processes (store : Store) (d : Value) (segments done : List Text) : Prop where
  isPrefix : done <+: segments
  processed_iff : ∀ before segment after, segments = before ++ segment :: after →
    (before.length < done.length ↔ LeadsOn store d before)

/-- The name of the value that is kept under a segment, if there is such a value and it has a name. -/
def rendered? (store : Store) (segment : Text) : Option Text := (store segment).bind fun v => v.asName.toOption

/-- What is noted of a segment. -/
def noted (store : Store) (segment : Text) : List Event := ((rendered? store segment).map (.substituted segment)).toList

section Steps

lemma noted_of_key (h : key store segment = .ok (name, events)) : noted store segment = events := by
  unfold noted rendered?
  unfold key at h
  cases hs : store segment with
  | none =>
    rw [hs] at h
    cases h
    rfl
  | some v =>
    rw [hs] at h
    cases hn : v.asName with
    | ok own =>
      simp only [hn] at h
      cases h
      simp [hn, Except.toOption]
    | error fault => simp [hn] at h

lemma noted_of_key_error (h : key store segment = .error fault) : noted store segment = [] := by
  unfold noted rendered?
  unfold key at h
  cases hs : store segment with
  | none => rfl
  | some v => cases hn : v.asName <;> simp_all [Except.toOption]

lemma leadsOn_nil : LeadsOn store d [] ↔ d ≠ .null := by
  constructor
  · rintro ⟨v, hv, h⟩
    exact Except.ok.inj h ▸ hv
  · exact fun hd => ⟨d, hd, rfl⟩

lemma not_leadsOn_null (segments : List Text) : ¬LeadsOn store .null segments := by
  rintro ⟨v, hv, h⟩
  rw [walk_null] at h
  exact hv (Except.ok.inj h).symm

lemma leadsOn_cons (hd : d ≠ .null) (hk : key store segment = .ok (name, events)) (hs : step d name = .ok next)
    (segments : List Text) : LeadsOn store d (segment :: segments) ↔ LeadsOn store next segments := by
  rw [LeadsOn, LeadsOn, walk_of_step hd hk hs]

lemma Processes.last (hd : d ≠ .null) (h : ∀ segments, ¬LeadsOn store d (segment :: segments)) :
    Processes store d (segment :: rest) [segment] := by
  refine ⟨⟨rest, rfl⟩, fun before s after heq => ?_⟩
  cases before with
  | nil => exact iff_of_true Nat.one_pos (leadsOn_nil.mpr hd)
  | cons b before =>
    obtain rfl := (List.cons.inj heq).1
    exact iff_of_false (by simp) (h before)

lemma Processes.cons (h : Processes store next rest done) (hd : d ≠ .null)
    (hk : key store segment = .ok (name, events)) (hs : step d name = .ok next) :
    Processes store d (segment :: rest) (segment :: done) := by
  refine ⟨List.cons_prefix_cons.mpr ⟨rfl, h.isPrefix⟩, fun before s after heq => ?_⟩
  cases before with
  | nil => exact iff_of_true (Nat.succ_pos _) (leadsOn_nil.mpr hd)
  | cons b before =>
    obtain ⟨rfl, hrest⟩ := List.cons.inj heq
    rw [leadsOn_cons hd hk hs, ← h.processed_iff before s after hrest, List.length_cons, List.length_cons,
      Nat.succ_lt_succ_iff]

end Steps

/-- What a walk notes: the names of kept values, segment by segment, and at last the segment at which the walk became
null, if it did. -/
structure Traced (store : Store) (path : Text) (d : Value) (segments done : List Text) : Prop where
  processes : Processes store d segments done
  vanished : Vanishes store d segments → ∃ before segment, done = before ++ [segment] ∧ Vanishes store d done ∧
    (walk store path d segments).1 = done.flatMap (noted store) ++ [.missed path segment]
  found : ¬Vanishes store d segments → (walk store path d segments).1 = done.flatMap (noted store)

namespace Traced

lemma nil (path : Text) (d : Value) : Traced store path d [] [] where
  processes := ⟨List.nil_prefix, fun before segment after h => by simp at h⟩
  vanished h := absurd (Except.ok.inj h.2) h.1
  found _ := rfl

lemma null (path : Text) (segments : List Text) : Traced store path .null segments [] where
  processes := ⟨List.nil_prefix, fun before _ _ _ => iff_of_false (Nat.not_lt_zero _) (not_leadsOn_null before)⟩
  vanished h := absurd rfl h.1
  found _ := by cases segments <;> simp [walk]

/-- A walk that fails notes no more than the name of the value that is kept under its last segment. -/
lemma failed (hd : d ≠ .null) (hwalk : ∀ path segments, walk store path d (segment :: segments) =
    (noted store segment, .error fault)) (path : Text) (rest : List Text) :
    Traced store path d (segment :: rest) [segment] where
  processes := .last hd fun segments ⟨v, _, h⟩ => by rw [hwalk] at h; cases h
  vanished h := by have := h.2; rw [hwalk] at this; cases this
  found _ := by rw [hwalk]; simp

lemma missed (hd : d ≠ .null) (hk : key store segment = .ok (name, events)) (hs : step d name = .ok .null)
    (path : Text) (rest : List Text) : Traced store path d (segment :: rest) [segment] := by
  have hnull (segments : List Text) : (walk store [] d (segment :: segments)).2 = .ok .null :=
    (walk_of_step hd hk hs segments).trans (walk_null segments)
  refine ⟨.last hd fun segments ⟨v, hv, h⟩ => hv (Except.ok.inj ((hnull segments).symm.trans h)).symm,
    fun _ => ⟨[], segment, rfl, ⟨hd, hnull []⟩, ?_⟩, fun h => absurd ⟨hd, hnull rest⟩ h⟩
  have hmore : (walk store path .null rest).1 = [] := by cases rest <;> simp [walk]
  simp [walk, hd, hk, hs, hmore, noted_of_key hk]

lemma cons (h : Traced store path next rest done) (hd : d ≠ .null) (hnext : next ≠ .null)
    (hk : key store segment = .ok (name, events)) (hs : step d name = .ok next) :
    Traced store path d (segment :: rest) (segment :: done) := by
  have hvanishes (segments : List Text) : Vanishes store d (segment :: segments) ↔ Vanishes store next segments := by
    rw [Vanishes, Vanishes, walk_of_step hd hk hs, and_iff_right hd, and_iff_right hnext]
  have hevents : (walk store path d (segment :: rest)).1 = noted store segment ++ (walk store path next rest).1 := by
    simp [walk, hd, hk, hs, hnext, noted_of_key hk]
  refine ⟨h.processes.cons hd hk hs, fun hv => ?_, fun hv => ?_⟩
  · obtain ⟨before, s, rfl, hdone, hnoted⟩ := h.vanished ((hvanishes rest).mp hv)
    refine ⟨segment :: before, s, rfl, (hvanishes _).mpr hdone, ?_⟩
    rw [hevents, hnoted, List.flatMap_cons, List.append_assoc]
  · rw [hevents, h.found (mt (hvanishes rest).mpr hv), List.flatMap_cons]

end Traced

/-- Every walk is traced by the segments that it processes. -/
theorem exists_traced (store : Store) (path : Text) (d : Value) (segments : List Text) :
    ∃ done, Traced store path d segments done := by
  induction segments generalizing d with
  | nil => exact ⟨[], .nil path d⟩
  | cons segment rest ih =>
    by_cases hd : d = .null
    · exact ⟨[], hd ▸ .null path _⟩
    cases hk : key store segment with
    | error fault =>
      have hwalk (path : Text) (segments : List Text) : walk store path d (segment :: segments) =
          (noted store segment, .error fault) := by
        rw [walk, if_neg hd, hk, noted_of_key_error hk]
      exact ⟨[segment], .failed hd hwalk path rest⟩
    | ok named =>
      obtain ⟨name, events⟩ := named
      cases hs : step d name with
      | error fault =>
        have hwalk (path : Text) (segments : List Text) : walk store path d (segment :: segments) =
            (noted store segment, .error fault) := by
          simp only [walk, if_neg hd, hk, hs, noted_of_key hk]
        exact ⟨[segment], .failed hd hwalk path rest⟩
      | ok next =>
        by_cases hnext : next = .null
        · exact ⟨[segment], .missed hd hk (hnext ▸ hs) path rest⟩
        · obtain ⟨done, hdone⟩ := ih next
          exact ⟨segment :: done, hdone.cons hd hnext hk hs⟩

end Query

namespace Session

open Log Query

variable {s : Session} {name path : Text} {stash into : Option Text} {keepAs : Option (Text × Text)} {d : Document}
  {store : Store}

/-- A logger that looks for faults lets every message through that is for those who do. -/
lemma record?_debug {l : Logger} (h : l.level = debug) (t : Text) : l.record? debug t [] = some ⟨debug, some t⟩ := by
  have haccepts : l.accepts debug = true := by
    rw [Logger.accepts, Logger.effectiveLevel, h]
    rfl
  rw [Logger.record?, if_pos haccepts]
  rfl

lemma messages_evaluate (hsource : s.source name stash = .ok (d, store)) :
    (s.effect (.evaluate name path stash into keepAs)).messages =
      (trace store d.root path).1.map fun e => Message.debug e.message := by
  have heffect : s.effect (.evaluate name path stash into keepAs) = s.evaluate name path stash into keepAs := rfl
  rw [heffect, evaluate, hsource]
  simp only [Document.evaluate]
  cases (trace store d.root path).2 <;> simp [Except.mapError]

/-- What is recorded of an evaluation by a logger that looks for faults: the name of every kept value that stands in for
a segment which the walk processes, in order, and at last the segment behind which nothing is found, exactly if the
outcome is null and the document is not. -/
theorem records_evaluate (hdebug : s.logger.level = 10) (hsource : s.source name stash = .ok (d, store))
    (path : Text) (into : Option Text) (keepAs : Option (Text × Text)) :
    let records := (s.step (.evaluate name path stash into keepAs)).2.records
    let substitution (segment rendered : Text) : Record :=
      ⟨10, some (.concat ["substituted stashed segment [", segment, "] with [", rendered, "]"])⟩
    let miss (segment : Text) : Record :=
      ⟨10, some (.concat ["path ", path.quoted, ": no value for segment [", segment, "]"])⟩
    ∃ done, Processes store d.root (Path.parse path) done ∧
      (Query.evaluate store d.root path = .ok .null ∧ d.root ≠ .null →
        ∃ before segment, done = before ++ [segment] ∧ Vanishes store d.root done ∧
          records =
            (done.filterMap fun segment => (rendered? store segment).map (substitution segment)) ++ [miss segment]) ∧
      (¬(Query.evaluate store d.root path = .ok .null ∧ d.root ≠ .null) →
        records = done.filterMap fun segment => (rendered? store segment).map (substitution segment)) := by
  intro records substitution miss
  have hrecords : records = (trace store d.root path).1.map fun e => ⟨debug, some e.message⟩ := by
    show (s.effect _).messages.filterMap (fun m => s.logger.record? m.level m.template m.values) = _
    rw [messages_evaluate hsource, List.filterMap_map, ← List.filterMap_eq_map]
    exact List.filterMap_congr fun e _ => record?_debug hdebug e.message
  have hnoted (done : List Text) : ((done.flatMap (noted store)).map fun e => (⟨debug, some e.message⟩ : Record)) =
      done.filterMap fun segment => (rendered? store segment).map (substitution segment) := by
    rw [List.map_flatMap, List.filterMap_eq_flatMap_toList]
    refine congrArg (List.flatMap · done) (funext fun segment => ?_)
    rw [noted]
    cases rendered? store segment <;> rfl
  obtain ⟨done, htraced⟩ := exists_traced store path d.root (Path.parse path)
  have hvanishes : Query.evaluate store d.root path = .ok .null ∧ d.root ≠ .null ↔
      Vanishes store d.root (Path.parse path) := by
    rw [Vanishes, and_comm, walk_path [] path]
    rfl
  rw [hvanishes, hrecords]
  refine ⟨done, htraced.processes, fun h => ?_, fun h => ?_⟩
  · obtain ⟨before, segment, hdone, hlast, hevents⟩ := htraced.vanished h
    refine ⟨before, segment, hdone, hlast, ?_⟩
    rw [trace, hevents, List.map_append, hnoted]
    rfl
  · rw [trace, htraced.found h, hnoted]

/-- The first of three segments has a kept value, and nothing is found at the second. -/
theorem records_evaluate_missed :
    let root : Value := .map false [(.text "a", .map false [])]
    let kept := Stash.ofList [("k", .text "a")]
    let s : Session := { documents := [("d", ⟨root⟩)], stashes := [("kept", kept)] }
    s.logger.level = 10 ∧ s.source "d" (some "kept") = .ok (⟨root⟩, kept.find?) ∧
      Processes kept.find? root (Path.parse "k.b.c") ["k", "b"] ∧ Vanishes kept.find? root ["k", "b"] ∧
      (s.step (.evaluate "d" "k.b.c" (some "kept") none none)).2.records =
        [⟨10, some "substituted stashed segment [k] with [a]"⟩,
          ⟨10, some "path 'k.b.c': no value for segment [b]"⟩] := by
  intro root kept s
  have hsource : s.source "d" (some "kept") = .ok (⟨root⟩, kept.find?) := rfl
  have hnull : Query.evaluate kept.find? root "k.b.c" = .ok .null := by decide +kernel
  obtain ⟨done, hprocesses, hmissed, -⟩ := records_evaluate rfl hsource "k.b.c" none none
  obtain ⟨before, segment, hdone, hlast, hrecords⟩ := hmissed ⟨hnull, by decide⟩
  have hparse : Path.parse "k.b.c" = ["k", "b", "c"] := by decide +kernel
  have hends : ¬LeadsOn kept.find? root ["k", "b"] := by
    rintro ⟨v, hv, h⟩
    exact hv (Except.ok.inj (h.symm.trans (by decide +kernel)))
  have hb : LeadsOn kept.find? root ["k"] := ⟨.map false [], by decide, by decide +kernel⟩
  obtain rfl : done = ["k", "b"] := by
    have hmore := (hprocesses.processed_iff ["k"] "b" ["c"] hparse).mpr hb
    have hless := mt (hprocesses.processed_iff ["k", "b"] "c" [] hparse).mp hends
    have hlength : done.length = 2 := by
      simp only [List.length_cons, List.length_nil] at hmore hless
      omega
    rw [List.prefix_iff_eq_take.mp hprocesses.isPrefix, hlength, hparse]
    rfl
  obtain rfl : segment = "b" := by
    have := congrArg List.getLast? hdone
    simpa using this.symm
  exact ⟨rfl, hsource, hprocesses, hlast, hrecords.trans (by decide +kernel)⟩

end Session

end DocPath
