import DocPath.Proofs.Text
import DocPath.Path
import Mathlib.Data.List.SplitBy

/-! Paths read in two phases: cut at every separator, then glued together again behind every chunk with an escape mark
in it. Going through a path once, with a flag for the marks that were met, gives the same segments. -/

namespace DocPath.Path

/-- What a chunk adds to its segment: everything but the escape marks. -/
def unmarked (chunk : Text) : Text := chunk.filter (· ≠ escapeMark)

/-- What neighbouring chunks make with literal separators between them. -/
def glued (run : List Text) : Text := [separator].intercalate (run.map unmarked)

/-- Chunks are neighbours in a piece exactly if the first of them has an escape mark. -/
def runs (chunks : List Text) : List (List Text) := chunks.splitBy fun chunk _ => escapeMark ∈ chunk

/-- The pieces of a path, empty ones included. -/
def pieces (path : Text) : List Text := (runs (List.splitOn separator path)).map glued

variable {chunk : Text} {chunks : List Text}

lemma runs_singleton (chunk : Text) : runs [chunk] = [[chunk]] := rfl

lemma runs_cut (h : escapeMark ∉ chunk) : runs (chunk :: chunks) = [chunk] :: runs chunks := by
  cases chunks with
  | nil => rfl
  | cons next chunks =>
    refine List.splitBy_append_cons (l := [chunk]) chunks fun c hc => ?_
    obtain rfl : chunk = c := by simpa using hc
    simpa using h

lemma runs_glue {run : List Text} {more : List (List Text)} (h : escapeMark ∈ chunk)
    (hruns : runs chunks = run :: more) : runs (chunk :: chunks) = (chunk :: run) :: more := by
  rw [runs, List.splitBy_eq_iff] at hruns ⊢
  obtain ⟨rfl, hne, hrun, hcut⟩ := hruns
  obtain ⟨hrun_ne, hmore⟩ : [] ≠ run ∧ [] ∉ more := by simpa using hne
  obtain ⟨next, run, rfl⟩ := List.exists_cons_of_ne_nil hrun_ne.symm
  obtain ⟨hfirst, hrest⟩ := List.forall_mem_cons.mp hrun
  refine ⟨rfl, by simpa using hmore, List.forall_mem_cons.mpr ⟨?_, hrest⟩, ?_⟩
  · exact List.isChain_cons_cons.mpr ⟨by simpa using h, hfirst⟩
  · cases more with
    | nil => exact List.isChain_singleton _
    | cons run' more => simpa using hcut

lemma glued_cons (chunk : Text) {run : List Text} (h : run ≠ []) :
    glued (chunk :: run) = unmarked chunk ++ separator :: glued run := by
  obtain ⟨next, run, rfl⟩ := List.exists_cons_of_ne_nil h
  rw [glued, List.map_cons, List.map_cons, List.intercalate_cons_cons, List.append_assoc]
  rfl

lemma split_last (h : separator ∉ chunk) (escaped : Bool) : split escaped chunk = (unmarked chunk, []) := by
  induction chunk generalizing escaped with
  | nil => rfl
  | cons c chunk ih =>
    obtain ⟨hc, hchunk⟩ : separator ≠ c ∧ separator ∉ chunk := by simpa using h
    by_cases hmark : c = escapeMark
    · simp [split, unmarked, hmark, ih hchunk]
    · simp [split, unmarked, hmark, hc.symm, ih hchunk]

/-- The flag is set at a separator if it was set before the chunk or the chunk has an escape mark. -/
lemma split_glue (h : separator ∉ chunk) {escaped : Bool} (hmark : escaped = true ∨ escapeMark ∈ chunk) (rest : Text) :
    split escaped (chunk ++ separator :: rest) =
      (unmarked chunk ++ separator :: (split false rest).1, (split false rest).2) := by
  have hsep : separator ≠ escapeMark := by decide
  induction chunk generalizing escaped with
  | nil =>
    obtain rfl : escaped = true := by simpa using hmark
    simp [split, unmarked, hsep]
  | cons c chunk ih =>
    obtain ⟨hc, hchunk⟩ : separator ≠ c ∧ separator ∉ chunk := by simpa using h
    by_cases hcmark : c = escapeMark
    · simp [split, unmarked, hcmark, ih hchunk (.inl rfl)]
    · have hmark : escaped = true ∨ escapeMark ∈ chunk := by simpa [Ne.symm hcmark] using hmark
      simp [split, unmarked, hcmark, hc.symm, ih hchunk hmark]

lemma split_cut (h : separator ∉ chunk) (hmark : escapeMark ∉ chunk) (rest : Text) :
    split false (chunk ++ separator :: rest) = (unmarked chunk, parse rest) := by
  have hsep : separator ≠ escapeMark := by decide
  induction chunk with
  | nil => simp [split, unmarked, parse, hsep]
  | cons c chunk ih =>
    obtain ⟨hc, hchunk⟩ : separator ≠ c ∧ separator ∉ chunk := by simpa using h
    obtain ⟨hcmark, hmark⟩ : escapeMark ≠ c ∧ escapeMark ∉ chunk := by simpa using hmark
    simp [split, unmarked, hcmark.symm, hc.symm, ih hchunk hmark]

/-- A path is a single chunk or begins with one. -/
lemma chunk_cases (path : Text) :
    List.splitOn separator path = [path] ∧ separator ∉ path ∨
      ∃ chunk rest, path = chunk ++ separator :: rest ∧ separator ∉ chunk ∧
        List.splitOn separator path = chunk :: List.splitOn separator rest := by
  have single {t : Text} (h : separator ∉ t) : List.splitOn separator t = [t] :=
    List.splitOnP_eq_singleton fun c hc => by simpa using ne_of_mem_of_not_mem hc h
  by_cases h : separator ∈ path
  · obtain ⟨chunk, rest, rfl, hchunk⟩ := List.eq_append_cons_of_mem h
    refine .inr ⟨chunk, rest, rfl, hchunk, ?_⟩
    have hcut : List.splitOn separator (chunk ++ separator :: rest) =
        List.splitOn separator chunk ++ List.splitOn separator rest :=
      List.splitOnP_append_cons _ _ (by simp)
    rw [hcut, single hchunk, List.singleton_append]
  · exact .inl ⟨single h, h⟩

lemma withFirst_filter (piece : Text) (more : List Text) :
    withFirst (piece, more.filter (· ≠ [])) = (piece :: more).filter (· ≠ []) := by
  rw [withFirst]
  by_cases hempty : piece = [] <;> simp [hempty]

/-- The current segment is the first piece, and behind it come the others that are not empty. -/
lemma split_pieces (path : Text) : ∃ piece more, pieces path = piece :: more ∧
    split false path = (piece, more.filter (· ≠ [])) := by
  induction hlength : path.length using Nat.strongRecOn generalizing path with
  | ind n ih =>
    rcases chunk_cases path with ⟨hchunks, hsep⟩ | ⟨chunk, rest, rfl, hchunk, hchunks⟩
    · refine ⟨unmarked path, [], ?_, split_last hsep false⟩
      rw [pieces, hchunks, runs_singleton]
      simp [glued]
    · obtain ⟨piece, more, hpieces, hsplit⟩ := ih rest.length (by simp [← hlength]; omega) rest rfl
      rw [pieces, hchunks]
      by_cases hmark : escapeMark ∈ chunk
      · obtain ⟨run, runs', hruns, hrun, hmore⟩ := List.map_eq_cons_iff.mp hpieces
        have hne : run ≠ [] := List.ne_nil_of_mem_splitBy (hruns ▸ List.mem_cons_self)
        refine ⟨glued (chunk :: run), more, ?_, ?_⟩
        · rw [runs_glue hmark hruns, List.map_cons, hmore]
        · rw [split_glue hchunk (.inr hmark), hsplit, glued_cons chunk hne, hrun]
      · refine ⟨unmarked chunk, piece :: more, ?_, ?_⟩
        · rw [runs_cut hmark, List.map_cons, ← hpieces]
          simp [glued, pieces]
        · rw [split_cut hchunk hmark, parse, hsplit, withFirst_filter]

/-- The segments of a path are its pieces that are not empty. -/
theorem parse_eq_pieces (path : Text) : parse path = (pieces path).filter (· ≠ []) := by
  obtain ⟨piece, more, hpieces, hsplit⟩ := split_pieces path
  rw [parse, hsplit, hpieces, withFirst_filter]

/-- Two escape marks, one of them far from the separator, and a piece that is empty. -/
example : pieces "\\a\\b.c..d\\" = ["ab.c", "", "d"] := by decide

end DocPath.Path
