import DocPath.Proofs.Yaml.Spelling
import DocPath.Proofs.Number.Numeral

/-! The text between quotation marks as it is read, piece by piece. -/

namespace DocPath.Yaml.Token

/-- Up to the closing mark a text is read, whatever the fuel if there is enough. -/
def Reads (double : Bool) (start : Mark) (c : Cursor) (text : Text) (n : Nat) : Prop :=
  ∀ fuel, c.rest.length < fuel → quotedText double start fuel c = .ok (text, c.skip n)

/-- A piece in front of what is read behind it. -/
def behindPiece (piece : Text) (r : Except Fault (Text × Cursor)) : Except Fault (Text × Cursor) :=
  r.map fun x => (piece ++ x.1, x.2)

/-- The spaces that are passed in front of a break. -/
def isQuotedSpace (d : CodePoint) : Bool := d.is ' ' || d.is '\t'

section Steps

variable {double : Bool} {start : Mark} {fuel : Nat} {c : Cursor}

lemma also_eq (r : Except Fault (Text × Cursor)) (f : Cursor → Except Fault (Text × Cursor)) :
    (do
      let (text, behind) ← r
      let (more, stop) ← f behind
      pure (text ++ more, stop)) = r.bind fun x => behindPiece x.1 (f x.2) := by
  cases r with
  | error e => rfl
  | ok x =>
    obtain ⟨text, behind⟩ := x
    simp only [bind, Except.bind, behindPiece]
    cases f behind <;> rfl

lemma quotedText_plain (h : isQuotedPlain c.now = true) :
    quotedText double start (fuel + 1) c =
      behindPiece (c.taken isQuotedPlain) (quotedText double start fuel (c.skipWhile isQuotedPlain)) := by
  rw [quotedText]
  simp only [h, if_true]
  rw [also_eq]
  rfl

lemma isQuotedPlain_eq_false {d : CodePoint} (h : isSpaceOrEnd d = true) :
    isQuotedPlain d = false ∧ d ≠ '\'' ∧ d ≠ '"' ∧ d ≠ '\\' := by
  refine ⟨by simp [isQuotedPlain, h], ?_, ?_, ?_⟩ <;> rintro rfl <;> exact absurd h (by decide)

lemma quotedText_spaces (h : isSpaceOrEnd c.now = true)
    (hb : isBreak (c.skipWhile isQuotedSpace).now = false)
    (hr : (c.skipWhile isQuotedSpace).rest ≠ []) :
    quotedText double start (fuel + 1) c =
      behindPiece (c.taken isQuotedSpace) (quotedText double start fuel (c.skipWhile isQuotedSpace)) := by
  obtain ⟨h1, h2, h3, h4⟩ := isQuotedPlain_eq_false h
  have hb' : isBreak (c.skipWhile fun d => d.is ' ' || d.is '\t').now = false := hb
  have hr' : (c.skipWhile fun d => d.is ' ' || d.is '\t').rest.isEmpty = false := by
    rw [List.isEmpty_eq_false_iff]
    exact hr
  rw [quotedText]
  simp only [h1, h2, h3, h4, hb', hr', Bool.false_eq_true, if_false]
  rw [also_eq]
  rfl

lemma quotedText_fold (h : isSpaceOrEnd c.now = true)
    (hb : isBreak (c.skipWhile isQuotedSpace).now = true) :
    quotedText double start (fuel + 1) c =
      (foldedBreak start (c.skipWhile isQuotedSpace)).bind fun x =>
        behindPiece x.1 (quotedText double start fuel x.2) := by
  obtain ⟨h1, h2, h3, h4⟩ := isQuotedPlain_eq_false h
  have hb' : isBreak (c.skipWhile fun d => d.is ' ' || d.is '\t').now = true := hb
  rw [quotedText]
  simp only [h1, h2, h3, h4, hb', Bool.false_eq_true, if_false, if_true]
  rw [also_eq]
  rfl

lemma quotedText_escape (h : c.now = '\\') :
    quotedText true start (fuel + 1) c =
      (escapeSequence start c.next).bind fun x => behindPiece x.1 (quotedText true start fuel x.2) := by
  have hp : isQuotedPlain '\\' = false := by decide
  rw [quotedText]
  simp only [h, hp, CodePoint.ofChar_inj, Char.reduceEq, reduceIte, Bool.false_eq_true]
  exact also_eq _ _

lemma quotedText_apostrophe (h : c.now = '\'') :
    quotedText true start (fuel + 1) c =
      behindPiece [CodePoint.ofChar '\''] (quotedText true start fuel c.next) := by
  have hp : isQuotedPlain '\'' = false := by decide
  rw [quotedText]
  simp only [h, hp, CodePoint.ofChar_inj, Char.reduceEq, reduceIte, Bool.false_eq_true]
  exact also_eq (.ok _) _

lemma quotedText_mark (h : c.now = '"' ∨ c.now = '\\') :
    quotedText false start (fuel + 1) c =
      behindPiece [c.now] (quotedText false start fuel c.next) := by
  have hp : isQuotedPlain '"' = false := by decide
  have hp' : isQuotedPlain '\\' = false := by decide
  rw [quotedText]
  rcases h with h | h
  all_goals
    simp only [h, hp, hp', CodePoint.ofChar_inj, Char.reduceEq, reduceIte, Bool.false_eq_true]
    exact also_eq (.ok _) _

lemma quotedText_twice (h : c.now = '\'') (h' : c.peek 1 = '\'') :
    quotedText false start (fuel + 1) c =
      behindPiece [CodePoint.ofChar '\''] (quotedText false start fuel (c.skip 2)) := by
  have hp : isQuotedPlain '\'' = false := by decide
  rw [quotedText]
  simp only [h, h', hp, CodePoint.ofChar_inj, Char.reduceEq, reduceIte, Bool.false_eq_true]
  exact also_eq (.ok _) _

end Steps

namespace Reads

variable {double : Bool} {start : Mark} {c : Cursor} {text piece : Text} {m n : Nat}

lemma behind (piece : Text) (hm : 0 < m) (hr : c.rest ≠ [])
    (hstep : ∀ fuel, quotedText double start (fuel + 1) c =
      behindPiece piece (quotedText double start fuel (c.skip m)))
    (h : Reads double start (c.skip m) text n) : Reads double start c (piece ++ text) (m + n) := by
  intro fuel hf
  have hpos := List.length_pos_of_ne_nil hr
  cases fuel with
  | zero => omega
  | succ fuel =>
    rw [hstep, h fuel (by rw [Cursor.skip_rest, List.length_drop]; omega), Cursor.skip_skip]
    rfl

/-- A run of code points of a class is read at once; the run that begins one code point later tells what
is read. -/
lemma run {p : CodePoint → Bool} {d : CodePoint} {rest : Text} (hrest : c.rest = d :: rest) (hd : p d = true)
    (hstep : ∀ fuel, quotedText double start (fuel + 1) c =
      behindPiece (c.taken p) (quotedText double start fuel (c.skipWhile p)))
    (hnext : p c.next.now = true → ∀ fuel, quotedText double start (fuel + 1) c.next =
      behindPiece (c.next.taken p) (quotedText double start fuel (c.next.skipWhile p)))
    (h : Reads double start c.next text n) : Reads double start c (d :: text) (n + 1) := by
  have hc : c.next = ⟨rest, c.mark.next d rest⟩ := c.next_of_cons hrest
  have htaken : c.taken p = d :: c.next.taken p := by
    rw [Cursor.taken, Cursor.taken, hrest, List.takeWhile_cons_of_pos hd, hc]
  have hpass : c.skipWhile p = c.next.skipWhile p := by
    rw [Cursor.skipWhile_eq_skip, htaken, List.length_cons, Cursor.skip_succ, ← Cursor.skipWhile_eq_skip]
  intro fuel hf
  cases fuel with
  | zero => exact absurd hf (Nat.not_lt_zero _)
  | succ fuel =>
    have hlt : c.next.rest.length < fuel := by
      rw [hrest, List.length_cons] at hf
      simp only [hc]
      omega
    rw [hstep, htaken, hpass, Cursor.skip_succ]
    cases hp : p c.next.now with
    | true =>
      have hread := h (fuel + 1) (Nat.lt_succ_of_lt hlt)
      rw [hnext hp] at hread
      cases hq : quotedText double start fuel (c.next.skipWhile p) with
      | error e => simp [hq, behindPiece, Except.map] at hread
      | ok x =>
        simp only [hq, behindPiece, Except.map, Except.ok.injEq, Prod.mk.injEq] at hread ⊢
        exact ⟨by rw [← hread.1]; rfl, hread.2⟩
    | false =>
      have hself : c.next.taken p = [] := by
        rw [Cursor.taken, hc]
        cases rest with
        | nil => rfl
        | cons e rest =>
          rw [hc] at hp
          exact List.takeWhile_cons_of_neg (by simpa [Cursor.now] using hp)
      rw [Cursor.skipWhile_eq_skip, hself, List.length_nil, Cursor.skip_zero, h fuel hlt]
      rfl

lemma plain {d : CodePoint} {rest : Text} (hrest : c.rest = d :: rest) (hd : isQuotedPlain d = true)
    (h : Reads double start c.next text n) : Reads double start c (d :: text) (n + 1) :=
  run hrest hd (fun _ => quotedText_plain (by rwa [Cursor.now_of_cons _ hrest]))
    (fun hp _ => quotedText_plain hp) h

/-- A blank in front of which no break comes is read as it is. -/
lemma blank {rest : Text} (hrest : c.rest = CodePoint.ofChar ' ' :: rest)
    (hb : isBreak (c.skipWhile isQuotedSpace).now = false)
    (hr : (c.skipWhile isQuotedSpace).rest ≠ [])
    (h : Reads double start c.next text n) : Reads double start c (CodePoint.ofChar ' ' :: text) (n + 1) := by
  have hpass : c.skipWhile isQuotedSpace = c.next.skipWhile isQuotedSpace := by
    rw [Cursor.skipWhile_eq_skip, Cursor.skipWhile_eq_skip, Cursor.taken, Cursor.taken, hrest,
      c.next_of_cons hrest, List.takeWhile_cons_of_pos (by decide), List.length_cons, Cursor.skip_succ,
      c.next_of_cons hrest]
  refine run hrest (by decide) (fun _ => quotedText_spaces ?_ hb hr) (fun hp _ => quotedText_spaces ?_ ?_ ?_) h
  · rw [Cursor.now_of_cons _ hrest]
    decide
  · rw [isQuotedSpace, Bool.or_eq_true, CodePoint.is_iff, CodePoint.is_iff] at hp
    rw [isSpaceOrEnd_iff]
    rcases hp with hp | hp
    · exact .inr (.inl hp)
    · exact .inl hp
  · rwa [← hpass]
  · rwa [← hpass]

lemma mark {d : CodePoint} {rest : Text} (hrest : c.rest = d :: rest) (hd : d = '"' ∨ d = '\\')
    (h : Reads false start c.next text n) : Reads false start c (d :: text) (n + 1) := by
  have hstep (fuel : Nat) := @quotedText_mark start fuel c (by rwa [Cursor.now_of_cons _ hrest])
  rw [Nat.add_comm]
  refine behind [d] Nat.one_pos (by simp [hrest]) (fun fuel => ?_) h
  rw [hstep, Cursor.now_of_cons _ hrest]
  rfl

lemma twice {rest : Text} (hrest : c.rest = CodePoint.ofChar '\'' :: CodePoint.ofChar '\'' :: rest)
    (h : Reads false start (c.skip 2) text n) :
    Reads false start c (CodePoint.ofChar '\'' :: text) (n + 2) := by
  rw [Nat.add_comm]
  refine behind [CodePoint.ofChar '\''] Nat.two_pos (by simp [hrest]) (fun fuel => ?_) h
  exact quotedText_twice (Cursor.now_of_cons _ hrest) (by rw [Cursor.peek, hrest]; rfl)

lemma apostrophe {rest : Text} (hrest : c.rest = CodePoint.ofChar '\'' :: rest)
    (h : Reads true start c.next text n) :
    Reads true start c (CodePoint.ofChar '\'' :: text) (n + 1) := by
  rw [Nat.add_comm]
  refine behind [CodePoint.ofChar '\''] Nat.one_pos (by simp [hrest]) (fun fuel => ?_) h
  exact quotedText_apostrophe (Cursor.now_of_cons _ hrest)

lemma escape {rest : Text} (hrest : c.rest = CodePoint.ofChar '\\' :: rest)
    (hpiece : escapeSequence start c.next = .ok (piece, c.next.skip m))
    (h : Reads true start (c.next.skip m) text n) : Reads true start c (piece ++ text) (m + 1 + n) := by
  refine behind piece (Nat.succ_pos m) (by simp [hrest]) (fun fuel => ?_) h
  rw [quotedText_escape (Cursor.now_of_cons _ hrest), hpiece]
  rfl

/-- The closing mark of a text between single quotation marks. -/
lemma close_single {k : Text} (hrest : c.rest = CodePoint.ofChar '\'' :: k)
    (hk : k.head? ≠ some (CodePoint.ofChar '\'')) : Reads false start c [] 0 := by
  intro fuel hf
  cases fuel with
  | zero => exact absurd hf (Nat.not_lt_zero _)
  | succ fuel =>
    have hp : isQuotedPlain '\'' = false := by decide
    have hpeek : c.peek 1 ≠ CodePoint.ofChar '\'' := by
      rw [Cursor.peek, hrest]
      cases k with
      | nil => decide
      | cons d k => exact fun h => hk (by simpa using h)
    rw [quotedText]
    simp only [Cursor.now_of_cons _ hrest, hp, hpeek, reduceIte, Bool.false_eq_true]
    rfl

lemma close_double {k : Text} (hrest : c.rest = CodePoint.ofChar '"' :: k) : Reads true start c [] 0 := by
  intro fuel hf
  cases fuel with
  | zero => exact absurd hf (Nat.not_lt_zero _)
  | succ fuel =>
    have hp : isQuotedPlain '"' = false := by decide
    rw [quotedText]
    simp only [Cursor.now_of_cons _ hrest, hp, CodePoint.ofChar_inj, Char.reduceEq, reduceIte,
      Bool.false_eq_true]
    rfl

end Reads

section Breaks

variable {start : Mark} {fuel : Nat} {c : Cursor} {d : CodePoint} {rest : Text}

open Layout (isTextBreak)

/-- What a break means where no line is folded. -/
def breakText (d : CodePoint) : Text :=
  if d.val = 0x2028 ∨ d.val = 0x2029 then [d] else [CodePoint.ofChar '\n']

lemma isTextBreak_iff :
    isTextBreak d = true ↔ d.val = 10 ∨ d.val = 0x85 ∨ d.val = 0x2028 ∨ d.val = 0x2029 := by
  simp only [isTextBreak, Bool.or_eq_true, CodePoint.is_iff, beq_iff_eq, or_assoc]
  rfl

lemma isBreak_of_isTextBreak (h : isTextBreak d = true) : isBreak d = true := by
  rw [isBreak_iff]
  rcases isTextBreak_iff.mp h with h | h | h | h <;> simp [h]

lemma lineBreak_eq (h : isTextBreak d = true) (hrest : c.rest = d :: rest) :
    c.lineBreak = (breakText d, c.next) := by
  have hcr : ¬(d = CodePoint.ofChar '\r' ∧ c.peek 1 = CodePoint.ofChar '\n') := by
    rintro ⟨rfl, -⟩
    exact absurd h (by decide)
  rw [Cursor.lineBreak, Cursor.now_of_cons _ hrest, isBreak_of_isTextBreak h]
  simp only [Bool.not_true, Bool.false_eq_true, if_false]
  rw [if_neg hcr, breakText]
  split_ifs <;> rfl

lemma atAnySeparator_eq_false (h : c.now ≠ '-' ∧ c.now ≠ '.') : c.atAnySeparator = false := by
  simp [Cursor.atAnySeparator, Cursor.atSeparator, h]

/-- A further break. -/
lemma quotedBreaks_break (h : isTextBreak d = true) (hrest : c.rest = d :: rest) :
    quotedBreaks start (fuel + 1) c =
      behindPiece (breakText d) (quotedBreaks start fuel c.next) := by
  have hnow := Cursor.now_of_cons _ hrest
  have hspace : isQuotedSpace d = false := by
    rw [← Bool.not_eq_true, isQuotedSpace, Bool.or_eq_true, CodePoint.is_iff, CodePoint.is_iff]
    rcases isTextBreak_iff.mp h with h | h | h | h <;> rw [h] <;> decide
  have hself : (c.skipWhile fun d => d.is ' ' || d.is '\t') = c :=
    c.skipWhile_eq_self fun e he => by
      rw [hrest] at he
      obtain rfl := Option.some.inj he
      exact hspace
  have hsep : c.atAnySeparator = false := by
    apply atAnySeparator_eq_false
    rw [hnow]
    constructor <;> rintro rfl <;> exact absurd h (by decide)
  rw [quotedBreaks, hsep, if_neg Bool.false_ne_true]
  simp only [hself, hnow, isBreak_of_isTextBreak h, if_true, lineBreak_eq h hrest]
  cases quotedBreaks start fuel c.next <;> rfl

/-- The indentation behind the last break. -/
lemma quotedBreaks_blanks {n : Nat} (hn : 0 < n) (hrest : c.rest = blanks n ++ rest)
    (hspace : ∀ e ∈ rest.head?, isQuotedSpace e = false) (hbreak : ∀ e ∈ rest.head?, isBreak e = false) :
    quotedBreaks start (fuel + 1) c = .ok ([], c.skip n) := by
  have hpass : (c.skipWhile fun d => d.is ' ' || d.is '\t') = c.skip n := by
    have := c.skipWhile_append (p := fun d => d.is ' ' || d.is '\t') hrest
      (fun e he => by rw [eq_of_mem_blanks he]; decide) hspace
    rwa [length_blanks] at this
  have hnow : c.now = CodePoint.ofChar ' ' := by
    obtain ⟨m, rfl⟩ : ∃ m, n = m + 1 := ⟨n - 1, by omega⟩
    exact Cursor.now_of_cons _ (hrest.trans rfl)
  have hsep : c.atAnySeparator = false := by
    apply atAnySeparator_eq_false
    rw [hnow]
    decide
  have hbehind : isBreak (c.skip n).now = false := by
    have hr := c.skip_append hrest
    rw [length_blanks] at hr
    cases rest with
    | nil => rw [Cursor.now_of_nil _ hr]; decide
    | cons e rest => rw [Cursor.now_of_cons _ hr]; exact hbreak e rfl
  rw [quotedBreaks, hsep, if_neg Bool.false_ne_true]
  simp only [hpass, hbehind, Bool.false_eq_true, if_false]

lemma foldedBreak_eq {more : Text} {stop : Cursor} (h : isTextBreak d = true) (hrest : c.rest = d :: rest)
    (hmore : quotedBreaks start (c.next.rest.length + 1) c.next = .ok (more, stop)) :
    foldedBreak start c =
      .ok ((if breakText d ≠ [CodePoint.ofChar '\n'] then breakText d
        else if more.isEmpty then [CodePoint.ofChar ' '] else []) ++ more, stop) := by
  rw [foldedBreak]
  simp only [lineBreak_eq h hrest, hmore]
  rfl

end Breaks

section Several

open Layout (isTextBreak)

/-- Behind a break the further breaks are passed, whatever the fuel if there is enough. -/
def Passes (start : Mark) (c : Cursor) (text : Text) (n : Nat) : Prop :=
  ∀ fuel, c.rest.length < fuel → quotedBreaks start fuel c = .ok (text, c.skip n)

lemma Passes.further {start : Mark} {c : Cursor} {d : CodePoint} {rest text : Text} {n : Nat}
    (hd : isTextBreak d = true) (hrest : c.rest = d :: rest) (h : Passes start c.next text n) :
    Passes start c (breakText d ++ text) (n + 1) := by
  intro fuel hf
  cases fuel with
  | zero => exact absurd hf (Nat.not_lt_zero _)
  | succ fuel =>
    rw [hrest, List.length_cons] at hf
    have hlt : c.next.rest.length < fuel := by
      rw [c.next_of_cons hrest]
      exact Nat.lt_of_succ_lt_succ hf
    rw [quotedBreaks_break hd hrest, h fuel hlt]
    rfl

lemma Passes.blanks {start : Mark} {c : Cursor} {rest : Text} {n : Nat} (hn : 0 < n)
    (hrest : c.rest = blanks n ++ rest)
    (hhead : ∀ e ∈ rest.head?, isQuotedSpace e = false ∧ isBreak e = false) : Passes start c [] n := by
  intro fuel hf
  cases fuel with
  | zero => exact absurd hf (Nat.not_lt_zero _)
  | succ fuel =>
    exact quotedBreaks_blanks hn hrest (fun e he => (hhead e he).1) (fun e he => (hhead e he).2)

/-- The first of several breaks. -/
lemma Reads.fold {double : Bool} {start : Mark} {c : Cursor} {d : CodePoint} {rest more text : Text} {m n : Nat}
    (hd : isTextBreak d = true) (hrest : c.rest = d :: rest) (hmore : Passes start c.next more m)
    (h : Reads double start (c.next.skip m) text n) :
    Reads double start c ((if breakText d ≠ [CodePoint.ofChar '\n'] then breakText d
        else if more.isEmpty then [CodePoint.ofChar ' '] else []) ++ more ++ text) (m + 1 + n) := by
  have hself : c.skipWhile isQuotedSpace = c :=
    c.skipWhile_eq_self fun e he => by
      rw [hrest] at he
      obtain rfl := Option.some.inj he
      rw [← Bool.not_eq_true, isQuotedSpace, Bool.or_eq_true, CodePoint.is_iff, CodePoint.is_iff]
      rcases isTextBreak_iff.mp hd with h | h | h | h <;> rw [h] <;> decide
  have hbreak : isBreak c.now = true := by
    rw [Cursor.now_of_cons _ hrest]
    exact isBreak_of_isTextBreak hd
  refine Reads.behind _ (Nat.succ_pos m) (by simp [hrest]) (fun fuel => ?_) h
  rw [quotedText_fold (isSpaceOrEnd_iff.mpr (.inr (.inr (.inl hbreak)))) (by rwa [hself]), hself,
    foldedBreak_eq hd hrest (hmore _ (Nat.lt_succ_self _))]
  rfl

end Several

lemma quoted_eq {double : Bool} {c : Cursor} {q : CodePoint} {rest text : Text} {n : Nat}
    (hrest : c.rest = q :: rest) (h : Reads double c.mark c.next text n) :
    quoted double c = .ok (⟨.scalar text false, c.mark, (c.skip (n + 2)).mark⟩, c.skip (n + 2)) := by
  have hlt : c.next.rest.length < c.rest.length + 1 := by
    rw [Cursor.rest_next hrest, hrest, List.length_cons]
    omega
  have hnext : (c.next.skip n).next = c.skip (n + 2) := by
    rw [← Cursor.skip_one, Cursor.skip_skip]
    rfl
  rw [quoted, h _ hlt, ← hnext]
  rfl

end DocPath.Yaml.Token
