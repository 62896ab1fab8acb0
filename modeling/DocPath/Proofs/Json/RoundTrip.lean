import DocPath.Proofs.Json.Grammar
import DocPath.Proofs.Json.Number
import DocPath.Proofs.Json.Quote

/-! Reading back what was written. -/

namespace DocPath.Json

/-- A code point that may begin an item or a member behind white space. -/
def IsStart (c : CodePoint) : Prop :=
  c.val < 0x80 ∧ isSpace c = false ∧ c ≠ ']' ∧ c ≠ '\x7d'

instance (c : CodePoint) : Decidable (IsStart c) :=
  inferInstanceAs (Decidable (_ ∧ _ ∧ _ ∧ _))

def Starts (t : Text) : Prop := ∃ c rest, t = c :: rest ∧ IsStart c

/-- A text is read as what is heard of a value, whatever no number goes on with follows. One unit of fuel for
each code point is enough. -/
structure Reads (t : Text) (v : Value) : Prop where
  starts : Starts t
  value_eq : ∀ fuel rest, t.length ≤ fuel → EndsNumber rest →
    value unique fuel (t ++ rest) = (heard v).map fun w => (w, rest)

lemma Reads.of_heard_eq {t : Text} {v w : Value} (h : Reads t v) (heq : heard w = heard v) : Reads t w :=
  ⟨h.starts, fun fuel rest hf hr => by rw [h.value_eq fuel rest hf hr, heq]⟩

lemma skipSpace_append {blanks t : Text} (hb : ∀ c ∈ blanks, isSpace c = true)
    (ht : ∀ c ∈ t.head?, isSpace c = false) : skipSpace (blanks ++ t) = t := by
  rw [skipSpace, List.dropWhile_append_of_pos hb]
  cases t with
  | nil => rfl
  | cons c rest => simp [ht c rfl]

lemma Starts.skipSpace {blanks t : Text} (hb : ∀ c ∈ blanks, isSpace c = true) (ht : Starts t)
    (rest : Text) : skipSpace (blanks ++ (t ++ rest)) = t ++ rest := by
  obtain ⟨c, tail, rfl, -, hc, -⟩ := ht
  refine skipSpace_append hb fun d hd => ?_
  obtain rfl := Option.some.inj hd
  exact hc

lemma endsNumber_cons {c : CodePoint} (hc : c.isDigit = false ∧ c ≠ '.' ∧ c ≠ 'e' ∧ c ≠ 'E')
    (rest : Text) : EndsNumber (c :: rest) := by
  intro d hd
  obtain rfl := Option.some.inj hd
  exact hc

/-- Behind an item stand blanks and a mark that no number goes on with. -/
lemma endsNumber_blanks {blanks : Text} {c : CodePoint} {rest : Text}
    (hb : ∀ d ∈ blanks, isSpace d = true) (hc : c.isDigit = false ∧ c ≠ '.' ∧ c ≠ 'e' ∧ c ≠ 'E') :
    EndsNumber (blanks ++ c :: rest) := by
  cases blanks with
  | nil => exact endsNumber_cons hc rest
  | cons b blanks =>
    intro d hd
    obtain rfl := Option.some.inj hd
    have hs := hb b (by simp)
    simp only [isSpace, Bool.or_eq_true, CodePoint.is_iff] at hs
    rw [← Bool.not_eq_true, CodePoint.isDigit_iff]
    simp only [ne_eq, CodePoint.eq_ofChar_iff]
    rcases hs with ((hs | hs) | hs) | hs <;> rw [hs] <;> decide

lemma skipSpace_cons {c : CodePoint} (hc : isSpace c = false) (rest : Text) :
    skipSpace (c :: rest) = c :: rest := by
  simp [skipSpace, hc]

lemma isSpace_comma : isSpace (CodePoint.ofChar ',') = false := by decide

lemma starts_join (sep : Text) {t : Text} (ts : List Text) (h : Starts t) :
    Starts (Text.join sep (t :: ts)) := by
  obtain ⟨c, tail, rfl, hc⟩ := h
  cases ts with
  | nil => exact ⟨c, tail, rfl, hc⟩
  | cons u us => exact ⟨c, tail ++ sep ++ Text.join sep (u :: us), by simp [Text.join], hc⟩

lemma join_cons_cons (sep t u : Text) (ts : List Text) :
    Text.join sep (t :: u :: ts) = t ++ (sep ++ Text.join sep (u :: ts)) := by
  rw [Text.join, List.append_assoc]

lemma ne_nil_of_starts {t : Text} (h : Starts t) : t ≠ [] := by
  obtain ⟨c, rest, rfl, -⟩ := h
  simp

section Containers

variable {sep trail : Text}

lemma items_last (htrail : ∀ c ∈ trail, isSpace c = true) {t : Text} {v : Value} (ht : Reads t v)
    {fuel : Nat} (hf : t.length ≤ fuel) (rest : Text) :
    items unique (fuel + 1) (t ++ (trail ++ CodePoint.ofChar ']' :: rest)) =
      (heardAll [v]).map fun ws => (ws, rest) := by
  have hv := ht.value_eq fuel (trail ++ CodePoint.ofChar ']' :: rest) hf
    (endsNumber_blanks htrail (by decide))
  have hs : skipSpace (trail ++ CodePoint.ofChar ']' :: rest) = CodePoint.ofChar ']' :: rest :=
    skipSpace_append htrail (by intro c hc; obtain rfl := Option.some.inj hc; rfl)
  rw [items_of_value hv hs, heardAll]
  cases heard v <;> rfl

lemma items_next (hsep : ∀ c ∈ sep, isSpace c = true) {t : Text} {v : Value} (ht : Reads t v)
    {fuel : Nat} (hf : t.length ≤ fuel) {u : Text} (hu : Starts u) {more rest : Text}
    {vs : List Value} (hi : items unique fuel (u ++ more) = (heardAll vs).map fun ws => (ws, rest)) :
    items unique (fuel + 1) (t ++ CodePoint.ofChar ',' :: (sep ++ (u ++ more))) =
      (heardAll (v :: vs)).map fun ws => (ws, rest) := by
  have hv := ht.value_eq fuel (CodePoint.ofChar ',' :: (sep ++ (u ++ more))) hf
    (endsNumber_cons (by decide) _)
  rw [items_of_value hv (skipSpace_cons isSpace_comma _), hu.skipSpace hsep, hi, heardAll]
  cases heard v with
  | error fault => rfl
  | ok w => cases heardAll vs <;> rfl

/-- The items of an array are read one by one. -/
theorem items_join (hsep : ∀ c ∈ sep, isSpace c = true) (htrail : ∀ c ∈ trail, isSpace c = true)
    {ts : List Text} {vs : List Value} (h : List.Forall₂ Reads ts vs) (hne : ts ≠ [])
    {fuel : Nat} (rest : Text) (hf : (Text.join (CodePoint.ofChar ',' :: sep) ts).length < fuel) :
    items unique fuel (Text.join (CodePoint.ofChar ',' :: sep) ts ++
      (trail ++ CodePoint.ofChar ']' :: rest)) = (heardAll vs).map fun ws => (ws, rest) := by
  induction h generalizing fuel with
  | nil => exact absurd rfl hne
  | cons ht hts ih =>
    obtain ⟨fuel, rfl⟩ : ∃ k, fuel = k + 1 := ⟨fuel - 1, by omega⟩
    cases hts with
    | nil => exact items_last htrail ht (Nat.lt_succ_iff.mp hf) rest
    | cons hu hus =>
      rw [join_cons_cons, List.length_append, List.length_append, List.length_cons] at hf
      rw [join_cons_cons, List.append_assoc, List.append_assoc, List.cons_append]
      exact items_next hsep ht (by omega) (starts_join _ _ hu.starts) (ih (by simp) (by omega))

/-- A member is written as the name of its key, a colon and its value. -/
def IsMember (part : Text) (entry : Value × Value) : Prop :=
  ∃ t, part = quote (memberName entry.1) ++ (CodePoint.ofChar ':' :: CodePoint.ofChar ' ' :: t) ∧
    Reads t entry.2

lemma IsMember.starts {part : Text} {entry : Value × Value} (h : IsMember part entry) :
    Starts part := by
  obtain ⟨t, rfl, -⟩ := h
  rw [quote_append]
  exact ⟨_, _, rfl, by decide⟩

/-- A member and a mark behind it: what the mark says is left open. -/
lemma members_member {part : Text} {entry : Value × Value} (hp : IsMember part entry) {fuel : Nat}
    (hf : part.length ≤ fuel) (mark : CodePoint) {blanks : Text} (more : Text)
    (hb : ∀ c ∈ blanks, isSpace c = true) (hs : isSpace mark = false)
    (hm : mark.isDigit = false ∧ mark ≠ '.' ∧ mark ≠ 'e' ∧ mark ≠ 'E') :
    members unique (fuel + 1) (part ++ (blanks ++ mark :: more)) = heard entry.2 >>= fun w =>
      if mark = '\x7d' then .ok ([(memberName entry.1, w)], more)
      else if mark = ',' then
        (members unique fuel (skipSpace more)).map fun p => ((memberName entry.1, w) :: p.1, p.2)
      else failAt .comma (mark :: more) := by
  obtain ⟨t, rfl, ht⟩ := hp
  have hlen : t.length ≤ fuel := by
    simp only [List.length_append, List.length_cons] at hf
    omega
  have hv := ht.value_eq fuel (blanks ++ mark :: more) hlen (endsNumber_blanks hb hm)
  have hblank : ∀ c ∈ [CodePoint.ofChar ' '], isSpace c = true := by
    intro c hc
    rw [List.mem_singleton.mp hc]
    rfl
  have hskip := ht.starts.skipSpace hblank (blanks ++ mark :: more)
  have hmark : skipSpace (blanks ++ mark :: more) = mark :: more :=
    skipSpace_append hb (by intro c hc; obtain rfl := Option.some.inj hc; exact hs)
  rw [← hskip] at hv
  rw [List.append_assoc, quote_append]
  exact members_of_value (string_flatMap_escaped ..) (skipSpace_cons (by decide) _) hv hmark

/-- The members of an object are read one by one. -/
theorem members_join (hsep : ∀ c ∈ sep, isSpace c = true) (htrail : ∀ c ∈ trail, isSpace c = true)
    {parts : List Text} {es : List (Value × Value)} (h : List.Forall₂ IsMember parts es)
    (hne : parts ≠ []) {fuel : Nat} (rest : Text)
    (hf : (Text.join (CodePoint.ofChar ',' :: sep) parts).length < fuel) :
    members unique fuel (Text.join (CodePoint.ofChar ',' :: sep) parts ++
      (trail ++ CodePoint.ofChar '\x7d' :: rest)) = (heardMembers es).map fun ms => (ms, rest) := by
  induction h generalizing fuel with
  | nil => exact absurd rfl hne
  | @cons part e parts es hp hps ih =>
    obtain ⟨fuel, rfl⟩ : ∃ k, fuel = k + 1 := ⟨fuel - 1, by omega⟩
    rw [heardMembers]
    cases hps with
    | nil =>
      have hl := members_member hp (Nat.lt_succ_iff.mp hf) (CodePoint.ofChar '\x7d') rest htrail
        (by decide) (by decide)
      rw [Text.join, hl]
      cases heard e.2 <;> rfl
    | @cons u e' us es hu hus =>
      rw [join_cons_cons, List.length_append, List.length_append, List.length_cons] at hf
      have hn := members_member hp (show _ ≤ fuel by omega) (CodePoint.ofChar ',') (sep ++
        (Text.join (CodePoint.ofChar ',' :: sep) (u :: us) ++ (trail ++ CodePoint.ofChar '\x7d' :: rest)))
        (List.forall_mem_nil _) (by decide) (by decide)
      rw [(starts_join _ us hu.starts).skipSpace hsep, ih (by simp) (by omega)] at hn
      rw [join_cons_cons, List.append_assoc, List.append_assoc, List.cons_append]
      refine hn.trans ?_
      cases heard e.2 with
      | error fault => rfl
      | ok w => cases heardMembers (e' :: es) <;> rfl

end Containers

/-- Texts between brackets, taken apart: blanks, the texts with commas and blanks between them, blanks. -/
lemma bracketed_eq (style : Style) (level : Nat) (opening closing : CodePoint) {parts : List Text}
    (hne : parts ≠ []) : ∃ lead sep trail : Text,
      (∀ c ∈ lead, isSpace c = true) ∧ (∀ c ∈ sep, isSpace c = true) ∧
      (∀ c ∈ trail, isSpace c = true) ∧
      bracketed style level opening closing parts =
        opening :: (lead ++ (Text.join (CodePoint.ofChar ',' :: sep) parts ++ (trail ++ [closing]))) := by
  have hline : ∀ n, ∀ c ∈ CodePoint.ofChar '\n' :: List.replicate (2 * n) (CodePoint.ofChar ' '),
      isSpace c = true := by
    intro n c hc
    rcases List.mem_cons.mp hc with rfl | hc
    · rfl
    · rw [List.eq_of_mem_replicate hc]
      rfl
  have hempty : parts.isEmpty = false := by simpa using hne
  cases style with
  | compact =>
    refine ⟨[], [CodePoint.ofChar ' '], [], by simp, ?_, by simp, ?_⟩
    · intro c hc
      rw [List.mem_singleton.mp hc]
      rfl
    · rw [bracketed, hempty]
      simp [Text.concat, Text.ofString]
  | indented =>
    refine ⟨_, _, _, hline (level + 1), hline (level + 1), hline level, ?_⟩
    rw [bracketed, hempty]
    simp [Text.concat]

theorem reads_array (style : Style) (level : Nat) {ts : List Text} {vs : List Value}
    (h : List.Forall₂ Reads ts vs) : Reads (bracketed style level '[' ']' ts) (.list vs) := by
  cases h with
  | nil =>
    refine ⟨⟨_, _, rfl, by decide⟩, fun fuel rest hf _ => ?_⟩
    obtain ⟨fuel, rfl⟩ : ∃ k, fuel = k + 1 := ⟨fuel - 1, by simp [bracketed] at hf; omega⟩
    exact value_emptyArray (skipSpace_cons (by decide) rest)
  | @cons t v ts vs ht hts =>
    obtain ⟨lead, sep, trail, hlead, hsep, htrail, heq⟩ :=
      bracketed_eq style level '[' ']' (List.cons_ne_nil t ts)
    rw [heq]
    refine ⟨⟨_, _, rfl, by decide⟩, fun fuel rest hf _ => ?_⟩
    simp only [List.length_cons, List.length_append, List.length_nil] at hf
    obtain ⟨fuel, rfl⟩ : ∃ k, fuel = k + 1 := ⟨fuel - 1, by omega⟩
    have hi := items_join hsep htrail (.cons ht hts) (List.cons_ne_nil t ts) rest
      (show _ < fuel by omega)
    have hstarts := starts_join (CodePoint.ofChar ',' :: sep) ts ht.starts
    have hskip := hstarts.skipSpace hlead (trail ++ CodePoint.ofChar ']' :: rest)
    obtain ⟨c, tail, hj, -, -, hclose, -⟩ := hstarts
    rw [hj, List.cons_append] at hi hskip
    simp only [List.cons_append, List.append_assoc, List.nil_append, hj]
    rw [value_array hskip hclose, hi, heard]
    cases heardAll (v :: vs) <;> rfl

theorem reads_object (style : Style) (level : Nat) {parts : List Text} {es : List (Value × Value)} (o : Bool)
    (h : List.Forall₂ IsMember parts es) :
    Reads (bracketed style level '\x7b' '\x7d' parts) (.map o es) := by
  cases h with
  | nil =>
    refine ⟨⟨_, _, rfl, by decide⟩, fun fuel rest hf _ => ?_⟩
    obtain ⟨fuel, rfl⟩ : ∃ k, fuel = k + 1 := ⟨fuel - 1, by simp [bracketed] at hf; omega⟩
    exact value_emptyObject (skipSpace_cons (by decide) rest)
  | @cons p e ps es hp hps =>
    obtain ⟨lead, sep, trail, hlead, hsep, htrail, heq⟩ :=
      bracketed_eq style level '\x7b' '\x7d' (List.cons_ne_nil p ps)
    rw [heq]
    refine ⟨⟨_, _, rfl, by decide⟩, fun fuel rest hf _ => ?_⟩
    simp only [List.length_cons, List.length_append, List.length_nil] at hf
    obtain ⟨fuel, rfl⟩ : ∃ k, fuel = k + 1 := ⟨fuel - 1, by omega⟩
    have hi := members_join hsep htrail (.cons hp hps) (List.cons_ne_nil p ps) rest
      (show _ < fuel by omega)
    have hstarts := starts_join (CodePoint.ofChar ',' :: sep) ps hp.starts
    have hskip := hstarts.skipSpace hlead (trail ++ CodePoint.ofChar '\x7d' :: rest)
    obtain ⟨c, tail, hj, -, -, -, hclose⟩ := hstarts
    rw [hj, List.cons_append] at hi hskip
    simp only [List.cons_append, List.append_assoc, List.nil_append, hj]
    rw [value_object hskip hclose, hi, heard]
    cases heardMembers (e :: es) <;> rfl

/-- Nothing but the given code point begins a value that is no text, array or object. -/
lemma value_bare {t : Text} {v w : Value} {c : CodePoint} {tail : Text} (ht : t = c :: tail)
    (hq : c ≠ '"') (hb : c ≠ '\x7b') (hl : c ≠ '[') (hs : IsStart c) (hv : heard v = .ok w)
    (h : ∀ rest, EndsNumber rest →
      word? (t ++ rest) = some (w, rest) ∨
        word? (t ++ rest) = none ∧ number (t ++ rest) = .ok (w, rest)) : Reads t v := by
  subst ht
  refine ⟨⟨c, tail, rfl, hs⟩, fun fuel rest hf hr => ?_⟩
  obtain ⟨fuel, rfl⟩ : ∃ k, fuel = k + 1 := ⟨fuel - 1, by simp at hf; omega⟩
  rcases h rest hr with hw | ⟨hw, hn⟩
  · exact (value_word ⟨hq, hb, hl⟩ hw).trans (by rw [hv]; rfl)
  · exact (value_number ⟨hq, hb, hl⟩ hw).trans (hn.trans (by rw [hv]; rfl))

lemma reads_null : Reads "null" .null :=
  value_bare rfl (by decide) (by decide) (by decide) (by decide) rfl fun _ _ => .inl rfl

lemma reads_bool (b : Bool) : Reads (if b then "true" else "false") (.bool b) := by
  cases b with
  | true =>
    exact value_bare rfl (by decide) (by decide) (by decide) (by decide) rfl
      fun _ _ => .inl rfl
  | false =>
    exact value_bare rfl (by decide) (by decide) (by decide) (by decide) rfl
      fun _ _ => .inl rfl

lemma reads_text (t : Text) : Reads (quote t) (.text t) := by
  have hq (rest : Text) : quote t ++ rest = CodePoint.ofChar '"' ::
      (t.flatMap escaped ++ CodePoint.ofChar '"' :: rest) := quote_append t rest
  refine ⟨⟨_, _, by simpa using hq [], by decide⟩, fun fuel rest hf _ => ?_⟩
  obtain ⟨fuel, rfl⟩ : ∃ k, fuel = k + 1 := by
    have := congrArg List.length (hq [])
    simp only [List.append_nil, List.length_cons] at this
    exact ⟨fuel - 1, by omega⟩
  rw [hq, value_text, string_flatMap_escaped]
  rfl

lemma startsWith_cons {x c : CodePoint} (h : x ≠ c) (xs rest : Text) :
    Text.startsWith (c :: rest) (x :: xs) = false := by
  rw [Text.startsWith, List.isPrefixOf_cons_cons, beq_false_of_ne h, Bool.false_and]

/-- No word begins like a number. -/
lemma word?_eq_none {c : CodePoint} {rest : Text}
    (hc : c.isDigit = true ∨ c = '-' ∧ ∀ d ∈ rest.head?, d.isDigit = true) :
    word? (c :: rest) = none := by
  have hdigit {x d : CodePoint} (hx : x.isDigit = false) (hd : d.isDigit = true) : x ≠ d := by
    rintro rfl
    rw [hx] at hd
    exact Bool.false_ne_true hd
  have hletter {x : CodePoint} (hx : x.isDigit = false) (hm : x ≠ '-') : x ≠ c := by
    rcases hc with hc | ⟨rfl, -⟩
    · exact hdigit hx hc
    · exact hm
  have hne : ∀ w ∈ words, Text.startsWith (c :: rest) w.1 = false := by
    intro w hw
    simp only [words, List.mem_cons, List.not_mem_nil, or_false] at hw
    rcases hw with rfl | rfl | rfl | rfl | rfl | rfl
    · exact startsWith_cons (hletter (by decide) (by decide)) _ rest
    · exact startsWith_cons (hletter (by decide) (by decide)) _ rest
    · exact startsWith_cons (hletter (by decide) (by decide)) _ rest
    · exact startsWith_cons (hletter (by decide) (by decide)) _ rest
    · exact startsWith_cons (hletter (by decide) (by decide)) _ rest
    · rcases hc with hc | ⟨rfl, hd⟩
      · exact startsWith_cons (hdigit (by decide) hc) _ rest
      · cases rest with
        | nil => rfl
        | cons d rest => exact startsWith_cons (hdigit (by decide) (hd d rfl)) _ rest
  rw [word?, List.find?_eq_none.mpr fun w hw => by simp [hne w hw]]
  rfl

/-- A sign and digits, whatever else, are read as a number. -/
lemma reads_of_number {t : Text} {v w : Value} (negative : Bool) {digits : Text} (more : Text)
    (ht : t = Numeral.signedText negative (digits ++ more))
    (hw : Numeral.IsWhole digits) (hv : heard v = .ok w)
    (h : ∀ rest, EndsNumber rest → number (t ++ rest) = .ok (w, rest)) : Reads t v := by
  obtain ⟨c, tail, hd⟩ := List.exists_cons_of_ne_nil hw.ne_nil
  have hc := hw.isDigit c (by simp [hd])
  have hval := CodePoint.isDigit_iff.mp hc
  cases negative with
  | true =>
    refine value_bare ht (by decide) (by decide) (by decide) (by decide) hv fun rest hr => ?_
    refine .inr ⟨?_, h rest hr⟩
    rw [ht, Numeral.signedText, if_pos rfl, hd]
    exact word?_eq_none (.inr ⟨rfl, fun d hmem => Option.some.inj hmem ▸ hc⟩)
  | false =>
    rw [hd] at ht
    have hs : isSpace c = false := by
      rw [← Bool.not_eq_true]
      simp only [isSpace, Bool.or_eq_true, CodePoint.is_iff]
      intro h'
      rcases h' with ((h' | h') | h') | h' <;> rw [h'] at hval <;> exact absurd hval (by decide)
    have hne {x : Char} (hx : ¬(48 ≤ x.toNat ∧ x.toNat ≤ 57)) : c ≠ CodePoint.ofChar x := by
      rintro rfl
      exact hx hval
    refine value_bare ht (hne (by decide)) (hne (by decide)) (hne (by decide))
      ⟨by omega, hs, hne (by decide), hne (by decide)⟩ hv fun rest hr => .inr ⟨?_, h rest hr⟩
    rw [ht]
    exact word?_eq_none (.inl hc)

lemma reads_integer {i : Int} {t : Text} (h : Numeral.writeInteger i = .ok t) : Reads t (.int i) := by
  refine reads_of_number (decide (i < 0)) [] ?_ (Numeral.isWhole_ofNat i.natAbs) rfl fun rest hr =>
    number_integer h hr
  rw [Numeral.writeInteger_eq h, List.append_nil]

lemma reads_float (x : Binary64) : Reads (x.layout floatLayout) (.float x) := by
  cases hs : x.shape with
  | notANumber =>
    have ht : x.layout floatLayout = "NaN" := by rw [Binary64.layout, hs]; rfl
    have hx : x.layout Binary64.plainLayout = "nan" := by rw [Binary64.layout, hs]; rfl
    rw [ht]
    refine value_bare rfl (by decide) (by decide) (by decide) (by decide) ?_ fun _ _ => .inl rfl
    rw [heard, respelled, hx]
    rfl
  | infinite negative =>
    have ht : x.layout floatLayout = Numeral.signedText negative "Infinity" := by
      rw [Binary64.layout, hs]
      rfl
    have hx : x.layout Binary64.plainLayout = Numeral.signedText negative "inf" := by
      rw [Binary64.layout, hs]
      rfl
    rw [ht]
    cases negative with
    | true =>
      refine value_bare rfl (by decide) (by decide) (by decide) (by decide) ?_ fun _ _ => .inl rfl
      rw [heard, respelled, hx]
      rfl
    | false =>
      refine value_bare rfl (by decide) (by decide) (by decide) (by decide) ?_ fun _ _ => .inl rfl
      rw [heard, respelled, hx]
      rfl
  | finite negative m q =>
    obtain ⟨s, hd, hst, hread, ht⟩ := Binary64.layout_strict hs floatLayout rfl
    have hw : Numeral.IsWhole s.whole := ⟨hd.whole_ne_nil, hd.whole, hst.whole⟩
    have hx : heard (.float x) = .ok (.float (s.number negative)) := by
      rw [heard, respelled, hread]
      rfl
    refine reads_of_number negative s.tail ht hw hx fun rest he => ?_
    rw [ht]
    exact number_text hd hst negative he

lemma reads_scalar {style : Style} {level : Nat} {s : Scalar} {t : Text}
    (h : writeAt style level (.scalar s) = .ok t) : Reads t (.scalar s) := by
  cases s with
  | bool b =>
    obtain rfl := Except.ok.inj h
    exact reads_bool b
  | int i =>
    simp only [writeAt, bare, Option.getD_some] at h
    exact reads_integer (mapError_eq_ok h)
  | float x =>
    obtain rfl := Except.ok.inj h
    exact reads_float x
  | text u =>
    obtain rfl := Except.ok.inj h
    exact reads_text u
  | _ => cases h

lemma memberName_of_name {style : Style} {key : Value} {t : Text} (h : name style key = .ok t) :
    memberName key = t := by
  have hcompact : name .compact key = .ok t := by
    cases key with
    | null => exact h
    | scalar s => cases s <;> first | exact h | cases h
    | _ => cases h
  rw [memberName, hcompact]
  rfl

mutual

/-- What is written for a value is read as what is heard of it. -/
theorem reads_writeAt {style : Style} {level : Nat} {t : Text} : (v : Value) →
    writeAt style level v = .ok t → Reads t v
  | .null, h => by
    obtain rfl := Except.ok.inj h
    exact reads_null
  | .scalar s, h => reads_scalar h
  | .list xs, h => by
    obtain ⟨ts, hts, h⟩ := bind_eq_ok h
    exact Except.ok.inj h ▸ reads_array style level (reads_writeItems xs hts)
  | .tuple xs, h => by
    obtain ⟨ts, hts, h⟩ := bind_eq_ok h
    exact Except.ok.inj h ▸ (reads_array style level (reads_writeItems xs hts)).of_heard_eq rfl
  | .map o es, h => by
    obtain ⟨ts, hts, h⟩ := bind_eq_ok h
    exact Except.ok.inj h ▸ reads_object style level o (reads_writeMembers es hts)
  | .anchor l v, h => (reads_writeAt v h).of_heard_eq rfl
  | .range .., h | .sequence .., h | .set .., h | .alias _, h => nomatch h

theorem reads_writeItems {style : Style} {level : Nat} {ts : List Text} : (vs : List Value) →
    writeItems style level vs = .ok ts → List.Forall₂ Reads ts vs
  | [], h => by
    obtain rfl := Except.ok.inj h
    exact .nil
  | v :: vs, h => by
    obtain ⟨t, ht, h⟩ := bind_eq_ok h
    obtain ⟨us, hus, h⟩ := bind_eq_ok h
    exact Except.ok.inj h ▸ .cons (reads_writeAt v ht) (reads_writeItems vs hus)

theorem reads_writeMembers {style : Style} {level : Nat} {ts : List Text} : (es : List (Value × Value)) →
    writeMembers style level es = .ok ts → List.Forall₂ IsMember ts es
  | [], h => by
    obtain rfl := Except.ok.inj h
    exact .nil
  | (k, v) :: es, h => by
    obtain ⟨key, hkey, h⟩ := bind_eq_ok h
    obtain ⟨t, ht, h⟩ := bind_eq_ok h
    obtain ⟨us, hus, h⟩ := bind_eq_ok h
    rw [← Except.ok.inj h]
    refine .cons ⟨t, ?_, reads_writeAt v ht⟩ (reads_writeMembers es hus)
    rw [memberName_of_name hkey]
    simp [Text.concat, Text.ofString]

end

/-- A text that is written is read as what is heard of its value. -/
theorem read_write {style : Style} {v : Value} {t : Text} (h : write style v = .ok t) : read t = heard v := by
  have hr := reads_writeAt v h
  obtain ⟨c, tail, ht, hc, hs, -⟩ := hr.starts
  have hmark : Text.startsWith t [CodePoint.ofNat 0xFEFF] = false := by
    rw [ht]
    refine startsWith_cons (fun he => ?_) _ tail
    rw [← he, CodePoint.ofNat_val (by decide)] at hc
    exact absurd hc (by decide)
  have hv := hr.value_eq (2 * t.length + 2) [] (by omega) (by simp [EndsNumber])
  rw [List.append_nil] at hv
  have hskip : skipSpace t = t := by rw [ht, skipSpace_cons hs]
  rw [read, readWith, hmark, if_neg Bool.false_ne_true, hskip, hv]
  cases heard v <;> rfl

lemma ne_nil_of_write {style : Style} {v : Value} {t : Text} (h : write style v = .ok t) : t ≠ [] :=
  ne_nil_of_starts (reads_writeAt v h).starts

end DocPath.Json
