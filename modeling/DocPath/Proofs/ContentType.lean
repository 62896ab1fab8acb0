import DocPath.ContentType
import DocPath.Proofs.Text
import Mathlib.Data.List.Infix
import Mathlib.Data.List.TakeWhile

/-! Content types with parameters. The search for a character set goes over the whole text; on a media type with
parameters it gives the value of the first parameter whose name ends in the word that is searched for. -/

namespace DocPath.ContentType

/-- The marks between names and values. -/
def isMark (c : CodePoint) : Bool := c.is ';' || c.is '='

/-- The marks around a value. -/
def isQuotation (c : CodePoint) : Bool := c.is '"' || c.is '\''

/-- A code point of a token is no white space and no mark. -/
def isTokenPoint (c : CodePoint) : Bool := !(c.isBlank || isMark c || isQuotation c)

/-- The name or the value of a parameter. -/
structure Token where
  text : Text
  ne_nil : text ≠ []
  all_points : text.all isTokenPoint = true

lemma Token.points (token : Token) : ∀ c ∈ token.text, isTokenPoint c = true := List.all_eq_true.mp token.all_points

/-- White space, or nothing. -/
structure Blanks where
  text : Text
  all_blank : text.all CodePoint.isBlank = true

lemma Blanks.blank (blanks : Blanks) : ∀ c ∈ blanks.text, c.isBlank = true := List.all_eq_true.mp blanks.all_blank

/-- A parameter with the white space around its marks. -/
structure Parameter where
  name : Token
  value : Token
  quoted : Bool
  beforeSemicolon : Blanks
  afterSemicolon : Blanks
  beforeEquals : Blanks
  afterEquals : Blanks

namespace Parameter

/-- The value, between quotation marks if it is quoted. -/
def shown (p : Parameter) : Text :=
  if p.quoted then CodePoint.ofChar '"' :: (p.value.text ++ [CodePoint.ofChar '"']) else p.value.text

/-- The equals sign and the value. -/
def assigned (p : Parameter) : Text :=
  p.beforeEquals.text ++ CodePoint.ofChar '=' :: (p.afterEquals.text ++ p.shown)

def written (p : Parameter) : Text :=
  p.beforeSemicolon.text ++ CodePoint.ofChar ';' :: (p.afterSemicolon.text ++ (p.name.text ++ p.assigned))

end Parameter

/-- A media type with its parameters. -/
def written (media : Text) (parameters : List Parameter) : Text := media ++ parameters.flatMap Parameter.written

/-- A text in small letters, the long s among the forms of s. -/
def folded (t : Text) : Text := t.map fun c => if c.val = 0x17F then CodePoint.ofChar 's' else c.lowerLetter

/-- A text of small letters, at least one. -/
structure IsWord (word : Text) : Prop where
  ne_nil : word ≠ []
  small : ∀ c ∈ word, 97 ≤ c.val ∧ c.val ≤ 122

variable {word t u : Text} {c : CodePoint}

section Points

lemma isTokenPoint_iff : isTokenPoint c = true ↔ c.isBlank = false ∧ isMark c = false ∧ isQuotation c = false := by
  simp only [isTokenPoint, Bool.not_eq_true', Bool.or_eq_false_iff, and_assoc]

lemma not_isTokenPoint_of_isBlank (h : c.isBlank = true) : isTokenPoint c = false := by
  simp [isTokenPoint, h]

lemma lowerLetter_val (c : CodePoint) :
    c.lowerLetter.val = if 65 ≤ c.val ∧ c.val ≤ 90 then c.val + 32 else c.val := by
  unfold CodePoint.lowerLetter
  simp only [Bool.and_eq_true, decide_eq_true_eq, Fin.le_def, CodePoint.ofChar_val, Char.reduceToNat]
  split_ifs with h
  · exact CodePoint.ofNat_val (by have := c.isLt; omega)
  · rfl

lemma isFormOf_iff {letter : CodePoint} (h : 97 ≤ letter.val ∧ letter.val ≤ 122) :
    isFormOf letter c = true ↔ (if c.val = 0x17F then CodePoint.ofChar 's' else c.lowerLetter) = letter := by
  rw [isFormOf, Bool.or_eq_true, beq_iff_eq, Bool.and_eq_true, CodePoint.is_iff, beq_iff_eq]
  split_ifs with hc
  · have hlower : c.lowerLetter.val = c.val := by rw [lowerLetter_val, if_neg (by omega)]
    rw [eq_comm (a := CodePoint.ofChar 's'), CodePoint.eq_ofChar_iff]
    constructor
    · rintro (hl | hs)
      · rw [← hl, hlower] at h
        omega
      · exact hs.1
    · exact fun hs => .inr ⟨hs, hc⟩
  · exact or_iff_left fun hs => hc hs.2

lemma isTokenPoint_of_isFormOf {letter : CodePoint} (h : 97 ≤ letter.val ∧ letter.val ≤ 122)
    (hc : isFormOf letter c = true) : isTokenPoint c = true := by
  have hval : c.val = 0x17F ∨ 65 ≤ c.val ∧ c.val ≤ 122 ∧ (c.val ≤ 90 ∨ 97 ≤ c.val) := by
    rw [isFormOf, Bool.or_eq_true, beq_iff_eq, Bool.and_eq_true, beq_iff_eq] at hc
    rcases hc with rfl | hc
    · rw [lowerLetter_val] at h
      split_ifs at h <;> omega
    · exact .inl hc.2
  simp only [isTokenPoint, isMark, isQuotation, CodePoint.isBlank, CodePoint.is, Bool.not_eq_true', Bool.or_eq_false_iff,
    beq_eq_false_iff_ne, ne_eq, CodePoint.eq_ofChar_iff, Char.reduceToNat, Bool.and_eq_false_iff, decide_eq_false_iff_not]
  omega

lemma isTokenPoint_of_folded (hw : IsWord (folded t)) : ∀ c ∈ t, isTokenPoint c = true := by
  intro c hc
  have hsmall := hw.small _ (List.mem_map_of_mem hc)
  exact isTokenPoint_of_isFormOf hsmall ((isFormOf_iff hsmall).mpr rfl)

lemma not_isMark_of_isBlank (h : c.isBlank = true) : isMark c = false := by
  simp only [CodePoint.isBlank, Bool.or_eq_true, Bool.and_eq_true, decide_eq_true_eq, beq_iff_eq] at h
  simp only [isMark, CodePoint.is, Bool.or_eq_false_iff, beq_eq_false_iff_ne, ne_eq, CodePoint.eq_ofChar_iff,
    Char.reduceToNat]
  omega

end Points

section Search

variable {rest : Text}

/-- A word stands at the front in letters of any form. -/
lemma afterWord?_eq_some (hw : ∀ c ∈ word, 97 ≤ c.val ∧ c.val ≤ 122) :
    afterWord? word t = some rest ↔ ∃ front, t = front ++ rest ∧ folded front = word := by
  induction word generalizing t with
  | nil =>
    rw [afterWord?, Option.some_inj]
    constructor
    · rintro rfl
      exact ⟨[], rfl, rfl⟩
    · rintro ⟨front, rfl, hfront⟩
      rw [List.map_eq_nil_iff.mp hfront]
      rfl
  | cons letter word ih =>
    obtain ⟨hletter, hword⟩ := List.forall_mem_cons.mp hw
    cases t with
    | nil =>
      rw [afterWord?]
      refine iff_of_false nofun ?_
      rintro ⟨front, hnil, hfront⟩
      rw [(List.append_eq_nil_iff.mp hnil.symm).1] at hfront
      cases hfront
    | cons c t =>
      rw [afterWord?]
      split_ifs with hc
      · rw [ih hword]
        constructor
        · rintro ⟨front, rfl, rfl⟩
          exact ⟨c :: front, rfl, by rw [folded, List.map_cons, (isFormOf_iff hletter).mp hc]; rfl⟩
        · rintro ⟨front, ht, hfront⟩
          obtain ⟨d, tail, rfl, -, htail⟩ := List.map_eq_cons_iff.mp hfront
          exact ⟨tail, (List.cons.inj ht).2, htail⟩
      · refine iff_of_false nofun ?_
        rintro ⟨front, ht, hfront⟩
        obtain ⟨d, tail, rfl, hd, -⟩ := List.map_eq_cons_iff.mp hfront
        obtain ⟨rfl, -⟩ := List.cons.inj ht
        exact hc ((isFormOf_iff hletter).mpr hd)

/-- A value is read only behind a form of the word and an equals sign. -/
lemma exists_of_valueAt? (hw : IsWord word) {v : Text} (h : valueAt? word t = some v) :
    ∃ front blanks rest, t = front ++ (blanks ++ CodePoint.ofChar '=' :: rest) ∧ folded front = word ∧
      ∀ c ∈ blanks, c.isBlank = true := by
  rw [valueAt?] at h
  split at h
  · next c rest hrest =>
    split_ifs at h with hc
    obtain ⟨after, hafter, hdrop⟩ := Option.map_eq_some_iff.mp hrest
    obtain ⟨front, rfl, hfront⟩ := (afterWord?_eq_some hw.small).mp hafter
    refine ⟨front, after.takeWhile CodePoint.isBlank, rest, ?_, hfront, fun c hc => ?_⟩
    · rw [← hc, ← hdrop, List.takeWhile_append_dropWhile]
    · exact List.mem_takeWhile_imp hc
  · cases h

lemma find?_isMark_append {front : Text} (hfront : ∀ c ∈ front, isMark c = false) :
    (front ++ t).find? isMark = t.find? isMark := by
  rw [List.find?_append, List.find?_eq_none.mpr fun c hc => by simp [hfront c hc]]
  rfl

lemma valueAt?_eq_none_of_find? (hw : IsWord word) (h : t.find? isMark ≠ some (CodePoint.ofChar '=')) :
    valueAt? word t = none := by
  by_contra hsome
  obtain ⟨v, hv⟩ := Option.ne_none_iff_exists'.mp hsome
  obtain ⟨front, blanks, rest, rfl, rfl, hblanks⟩ := exists_of_valueAt? hw hv
  rw [find?_isMark_append fun c hc => (isTokenPoint_iff.mp (isTokenPoint_of_folded hw c hc)).2.1,
    find?_isMark_append fun c hc => not_isMark_of_isBlank (hblanks c hc)] at h
  exact h rfl

lemma valueAt?_eq_none_of_head (hw : IsWord word) (hc : isTokenPoint c = false) : valueAt? word (c :: t) = none := by
  by_contra hsome
  obtain ⟨v, hv⟩ := Option.ne_none_iff_exists'.mp hsome
  obtain ⟨front, blanks, rest, ht, rfl, hblanks⟩ := exists_of_valueAt? hw hv
  cases front with
  | nil => exact hw.ne_nil rfl
  | cons d front =>
    obtain ⟨rfl, -⟩ := List.cons.inj ht
    rw [isTokenPoint_of_folded hw c List.mem_cons_self] at hc
    cases hc

/-- What has no equals sign in it is passed over, if the first mark behind it is none either. -/
lemma value?_append_of_find? (hw : IsWord word) (hu : CodePoint.ofChar '=' ∉ u)
    (ht : t.find? isMark ≠ some (CodePoint.ofChar '=')) : value? word (u ++ t) = value? word t := by
  induction u with
  | nil => rfl
  | cons c u ih =>
    obtain ⟨-, hu'⟩ : CodePoint.ofChar '=' ≠ c ∧ CodePoint.ofChar '=' ∉ u := by simpa using hu
    have hnone : valueAt? word (c :: (u ++ t)) = none := by
      refine valueAt?_eq_none_of_find? hw ?_
      rw [← List.cons_append, List.find?_append]
      cases hfind : (c :: u).find? isMark with
      | none => exact ht
      | some d => exact fun hd => hu (Option.some.inj hd ▸ List.mem_of_find?_eq_some hfind)
    rw [List.cons_append, value?, hnone, ih hu']
    rfl

lemma value?_append_of_head (hw : IsWord word) (hu : ∀ c ∈ u, isTokenPoint c = false) :
    value? word (u ++ t) = value? word t := by
  induction u with
  | nil => rfl
  | cons c u ih =>
    obtain ⟨hc, hu⟩ := List.forall_mem_cons.mp hu
    rw [List.cons_append, value?, valueAt?_eq_none_of_head hw hc, ih hu]
    rfl

end Search

section Assignment

variable {name before after v tail : Text}

/-- A code point that is read as a part of a value. -/
def isValuePoint (c : CodePoint) : Bool := !c.isBlank && !c.is ';'

lemma takeWhile_name (hname : ∀ c ∈ name, isTokenPoint c = true) (hbefore : ∀ c ∈ before, c.isBlank = true) :
    (name ++ (before ++ CodePoint.ofChar '=' :: t)).takeWhile isTokenPoint = name := by
  have hstop : (before ++ CodePoint.ofChar '=' :: t).takeWhile isTokenPoint = [] := by
    cases before with
    | nil => rfl
    | cons c before =>
      have hc := not_isTokenPoint_of_isBlank (hbefore c List.mem_cons_self)
      rw [List.cons_append, List.takeWhile_cons_of_neg (by simp [hc])]
  rw [List.takeWhile_append_of_pos hname, hstop, List.append_nil]

/-- A value that is assigned to a name in front: what is read is all of the value. -/
structure IsAssigned (before after v tail : Text) : Prop where
  before : ∀ c ∈ before, c.isBlank = true
  after : ∀ c ∈ after, c.isBlank = true
  ne_nil : v ≠ []
  points : ∀ c ∈ v, isValuePoint c = true
  tail : ∀ c ∈ tail.head?, isValuePoint c = false

lemma valueAt?_of_folded (hw : IsWord word) (h : IsAssigned before after v tail) (hname : folded name = word) :
    valueAt? word (name ++ (before ++ CodePoint.ofChar '=' :: (after ++ (v ++ tail)))) = some v := by
  have hafter : afterWord? word (name ++ (before ++ CodePoint.ofChar '=' :: (after ++ (v ++ tail)))) =
      some (before ++ CodePoint.ofChar '=' :: (after ++ (v ++ tail))) :=
    (afterWord?_eq_some hw.small).mpr ⟨name, rfl, hname⟩
  have hdrop : (before ++ CodePoint.ofChar '=' :: (after ++ (v ++ tail))).dropWhile CodePoint.isBlank =
      CodePoint.ofChar '=' :: (after ++ (v ++ tail)) := by
    rw [List.dropWhile_append_of_pos h.before]
    rfl
  have hvalue : (after ++ (v ++ tail)).dropWhile CodePoint.isBlank = v ++ tail := by
    obtain ⟨c, v, rfl⟩ := List.exists_cons_of_ne_nil h.ne_nil
    have hc := h.points c List.mem_cons_self
    rw [isValuePoint, Bool.and_eq_true, Bool.not_eq_true'] at hc
    rw [List.dropWhile_append_of_pos h.after, List.cons_append, List.dropWhile_cons_of_neg (by simp [hc.1])]
  have htake : (v ++ tail).takeWhile (fun c => !c.isBlank && !c.is ';') = v := by
    have hstop : tail.takeWhile isValuePoint = [] := by
      cases htail : tail with
      | nil => rfl
      | cons c tail' => rw [List.takeWhile_cons_of_neg (by simp [h.tail c (by rw [htail]; rfl)])]
    exact (List.takeWhile_append_of_pos h.points).trans (by rw [hstop, List.append_nil])
  rw [valueAt?, hafter, Option.map_some, hdrop]
  simp only [if_true, hvalue, htake]
  rw [if_neg (by simpa using h.ne_nil)]

lemma valueAt?_of_not_folded (hw : IsWord word) (h : IsAssigned before after v tail)
    (hpoints : ∀ c ∈ name, isTokenPoint c = true) (hname : folded name ≠ word) :
    valueAt? word (name ++ (before ++ CodePoint.ofChar '=' :: (after ++ (v ++ tail)))) = none := by
  by_contra hsome
  obtain ⟨u, hu⟩ := Option.ne_none_iff_exists'.mp hsome
  obtain ⟨front, blanks, rest, heq, rfl, hblanks⟩ := exists_of_valueAt? hw hu
  have htoken := congrArg (List.takeWhile isTokenPoint) heq
  rw [takeWhile_name hpoints h.before, takeWhile_name (isTokenPoint_of_folded hw) hblanks] at htoken
  exact hname (htoken ▸ rfl)

/-- Behind a name without the word, the value that is assigned to it is passed over. -/
lemma value?_assigned (hw : IsWord word) (h : IsAssigned before after v tail) (hv : CodePoint.ofChar '=' ∉ v)
    (htail : tail.find? isMark ≠ some (CodePoint.ofChar '=')) :
    value? word (before ++ CodePoint.ofChar '=' :: (after ++ (v ++ tail))) = value? word tail := by
  have hfront : ∀ c ∈ before ++ [CodePoint.ofChar '='], isTokenPoint c = false := by
    intro c hc
    rcases List.mem_append.mp hc with hc | hc
    · exact not_isTokenPoint_of_isBlank (h.before c hc)
    · rw [List.mem_singleton.mp hc]
      rfl
  have hvalue : CodePoint.ofChar '=' ∉ after ++ v := by
    rw [List.mem_append, not_or]
    exact ⟨fun hmem => absurd (h.after _ hmem) (by decide), hv⟩
  rw [← List.singleton_append, ← List.append_assoc, value?_append_of_head hw hfront, ← List.append_assoc,
    value?_append_of_find? hw hvalue htail]

/-- In a name the word is found only at its end. -/
lemma value?_name (hw : IsWord word) (h : IsAssigned before after v tail) (hv : CodePoint.ofChar '=' ∉ v)
    (htail : tail.find? isMark ≠ some (CodePoint.ofChar '=')) (hpoints : ∀ c ∈ name, isTokenPoint c = true) :
    value? word (name ++ (before ++ CodePoint.ofChar '=' :: (after ++ (v ++ tail)))) =
      if word <:+ folded name then some v else value? word tail := by
  induction name with
  | nil =>
    rw [List.nil_append, value?_assigned hw h hv htail]
    exact (if_neg fun hend => hw.ne_nil (List.suffix_nil.mp hend)).symm
  | cons c name ih =>
    obtain ⟨-, hname⟩ := List.forall_mem_cons.mp hpoints
    have hsuffix : word <:+ folded (c :: name) ↔ folded (c :: name) = word ∨ word <:+ folded name := by
      rw [eq_comm]
      exact List.suffix_cons_iff
    rw [List.cons_append, value?, ← List.cons_append, ih hname]
    by_cases hword : folded (c :: name) = word
    · rw [valueAt?_of_folded hw h hword, if_pos (hsuffix.mpr (.inl hword))]
      rfl
    · rw [valueAt?_of_not_folded hw h hpoints hword, Option.none_or]
      exact if_congr (hsuffix.trans (or_iff_right hword)).symm rfl rfl

end Assignment

namespace Parameter

variable {p : Parameter} {tail : Text}

lemma points_of_shown {c : CodePoint} (hc : c ∈ p.shown) : isTokenPoint c = true ∨ c = CodePoint.ofChar '"' := by
  rw [shown] at hc
  split_ifs at hc
  · rw [List.mem_cons, List.mem_append, List.mem_singleton] at hc
    rcases hc with hc | hc | hc
    · exact .inr hc
    · exact .inl (p.value.points c hc)
    · exact .inr hc
  · exact .inl (p.value.points c hc)

lemma isValuePoint_of_shown {c : CodePoint} (hc : c ∈ p.shown) : isValuePoint c = true := by
  rcases points_of_shown hc with hc | rfl
  · obtain ⟨hblank, hmark, -⟩ := isTokenPoint_iff.mp hc
    rw [isValuePoint, hblank, (Bool.or_eq_false_iff.mp hmark).1]
    rfl
  · rfl

lemma equals_not_mem_shown : CodePoint.ofChar '=' ∉ p.shown := fun hc =>
  (points_of_shown hc).elim (fun h => absurd h (by decide)) (fun h => absurd h (by decide))

lemma shown_ne_nil : p.shown ≠ [] := by
  rw [shown]
  split_ifs
  · exact List.cons_ne_nil _ _
  · exact p.value.ne_nil

/-- The quotation marks around a value are taken away. -/
lemma trim_shown : p.shown.trim isQuotation = p.value.text := by
  have hvalue : ∀ c ∈ p.value.text, isQuotation c = false :=
    fun c hc => (isTokenPoint_iff.mp (p.value.points c hc)).2.2
  rw [shown]
  split_ifs
  · have hquote : isQuotation (CodePoint.ofChar '"') = true := rfl
    have hdrop : (p.value.text ++ [CodePoint.ofChar '"']).dropWhile isQuotation =
        p.value.text ++ [CodePoint.ofChar '"'] := by
      obtain ⟨c, rest, hcons⟩ := List.exists_cons_of_ne_nil p.value.ne_nil
      have hc := hvalue c (by rw [hcons]; exact List.mem_cons_self)
      rw [hcons, List.cons_append, List.dropWhile_cons_of_neg (by simp [hc])]
    have hreverse : p.value.text.reverse.dropWhile isQuotation = p.value.text.reverse :=
      Text.dropWhile_eq_self fun c hc => hvalue c (List.mem_reverse.mp hc)
    rw [Text.trim, List.dropWhile_cons_of_pos hquote, hdrop, List.reverse_append, List.reverse_singleton,
      List.singleton_append, List.dropWhile_cons_of_pos hquote, hreverse, List.reverse_reverse]
  · exact Text.trim_eq_self hvalue

lemma isAssigned (p : Parameter) (htail : ∀ c ∈ tail.head?, isValuePoint c = false) :
    IsAssigned p.beforeEquals.text p.afterEquals.text p.shown tail where
  before := p.beforeEquals.blank
  after := p.afterEquals.blank
  ne_nil := shown_ne_nil
  points _ := isValuePoint_of_shown
  tail := htail

lemma find?_isMark_written (p : Parameter) (tail : Text) :
    (p.written ++ tail).find? isMark = some (CodePoint.ofChar ';') := by
  rw [written, List.append_assoc, find?_isMark_append fun c hc => not_isMark_of_isBlank (p.beforeSemicolon.blank c hc)]
  rfl

lemma head?_written (p : Parameter) (tail : Text) : ∀ c ∈ (p.written ++ tail).head?, isValuePoint c = false := by
  rw [written]
  cases hblanks : p.beforeSemicolon.text with
  | nil =>
    intro c hc
    obtain rfl := Option.some.inj hc
    rfl
  | cons b blanks =>
    intro c hc
    obtain rfl := Option.some.inj hc
    have hb := p.beforeSemicolon.blank b (by rw [hblanks]; exact List.mem_cons_self)
    rw [isValuePoint, hb]
    rfl

/-- A parameter whose name ends in the word gives its value; any other one is passed over. -/
lemma value?_written (hw : IsWord word) (p : Parameter) (hhead : ∀ c ∈ tail.head?, isValuePoint c = false)
    (htail : tail.find? isMark ≠ some (CodePoint.ofChar '=')) :
    value? word (p.written ++ tail) = if word <:+ folded p.name.text then some p.shown else value? word tail := by
  have hsemicolon : ∀ c ∈ p.beforeSemicolon.text ++ CodePoint.ofChar ';' :: p.afterSemicolon.text,
      isTokenPoint c = false := by
    intro c hc
    rw [List.mem_append, List.mem_cons] at hc
    rcases hc with hc | rfl | hc
    · exact not_isTokenPoint_of_isBlank (p.beforeSemicolon.blank c hc)
    · rfl
    · exact not_isTokenPoint_of_isBlank (p.afterSemicolon.blank c hc)
  have hwritten : p.written ++ tail = (p.beforeSemicolon.text ++ CodePoint.ofChar ';' :: p.afterSemicolon.text) ++
      (p.name.text ++ (p.beforeEquals.text ++ CodePoint.ofChar '=' :: (p.afterEquals.text ++ (p.shown ++ tail)))) := by
    simp [written, assigned]
  rw [hwritten, value?_append_of_head hw hsemicolon,
    value?_name hw (p.isAssigned hhead) equals_not_mem_shown htail p.name.points]

end Parameter

lemma find?_isMark_parameters (ps : List Parameter) :
    (ps.flatMap Parameter.written).find? isMark ≠ some (CodePoint.ofChar '=') := by
  cases ps with
  | nil => exact nofun
  | cons p ps =>
    rw [List.flatMap_cons, p.find?_isMark_written]
    decide

lemma head?_parameters (ps : List Parameter) :
    ∀ c ∈ (ps.flatMap Parameter.written).head?, isValuePoint c = false := by
  cases ps with
  | nil => exact nofun
  | cons p ps =>
    rw [List.flatMap_cons]
    exact p.head?_written _

lemma value?_parameters (hw : IsWord word) (ps : List Parameter) :
    value? word (ps.flatMap Parameter.written) =
      (ps.find? fun p => word <:+ folded p.name.text).map Parameter.shown := by
  induction ps with
  | nil => rfl
  | cons p ps ih =>
    rw [List.flatMap_cons, p.value?_written hw (head?_parameters ps) (find?_isMark_parameters ps), ih, List.find?_cons]
    by_cases h : word <:+ folded p.name.text <;> simp [h]

lemma isWord_charset : IsWord "charset" where
  ne_nil := by decide
  small := by
    have hall : List.all ("charset" : Text) (fun c => 97 ≤ c.val && c.val ≤ 122) = true := by decide
    simpa using List.all_eq_true.mp hall

/-- The value of the first parameter with a name of some kind. -/
def first? (kind : Text → Bool) (ps : List Parameter) : Option Text :=
  (ps.find? fun p => kind p.name.text).map (·.value.text)

/-- The name of the character set is the value of the first parameter whose name ends in `charset` in letters of any
form, and UTF-8 if there is none. Hence, if no name only ends so, it is the value of the first parameter of this name. -/
theorem charset_written {media : Text} (hmedia : CodePoint.ofChar '=' ∉ media) (ps : List Parameter) :
    charset (written media ps) = (first? (fun name => "charset" <:+ folded name) ps).getD "utf-8" ∧
    ((∀ p ∈ ps, "charset" <:+ folded p.name.text → folded p.name.text = "charset") →
      charset (written media ps) = (first? (fun name => folded name = "charset") ps).getD "utf-8") := by
  have hfirst : charset (written media ps) = (first? (fun name => "charset" <:+ folded name) ps).getD "utf-8" := by
    rw [charset, written, value?_append_of_find? isWord_charset hmedia (find?_isMark_parameters ps),
      value?_parameters isWord_charset, first?]
    cases ps.find? fun p => "charset" <:+ folded p.name.text with
    | none => rfl
    | some p => exact p.trim_shown
  refine ⟨hfirst, fun hnames => ?_⟩
  have hkinds : ps.filter (fun p => "charset" <:+ folded p.name.text) = ps.filter fun p => folded p.name.text = "charset" :=
    List.filter_congr fun p hp => decide_eq_decide.mpr ⟨hnames p hp, fun h => h ▸ List.suffix_rfl⟩
  rw [hfirst, first?, first?, ← List.head?_filter, hkinds, List.head?_filter]

/-- A value that is the name that is searched for, and a quoted value with white space around the equals sign. -/
theorem charset_written_quoted :
    let media : Text := "text/x-yaml"
    let ps : List Parameter :=
      [⟨⟨"type", by decide, by decide⟩, ⟨"charset", by decide, by decide⟩, false, ⟨[], rfl⟩, ⟨[], rfl⟩, ⟨[], rfl⟩, ⟨[], rfl⟩⟩,
        ⟨⟨"CharSet", by decide, by decide⟩, ⟨"latin-1", by decide, by decide⟩, true, ⟨[], rfl⟩, ⟨" ", rfl⟩, ⟨" ", rfl⟩,
          ⟨"  ", rfl⟩⟩]
    CodePoint.ofChar '=' ∉ media ∧ written media ps = "text/x-yaml;type=charset; CharSet =  \"latin-1\"" ∧
      (∀ p ∈ ps, "charset" <:+ folded p.name.text → folded p.name.text = "charset") ∧
      charset (written media ps) = "latin-1" := by
  intro media ps
  have hmedia : CodePoint.ofChar '=' ∉ media := by decide
  have hnames : ∀ p ∈ ps, "charset" <:+ folded p.name.text → folded p.name.text = "charset" := by decide
  exact ⟨hmedia, by decide, hnames, (charset_written hmedia ps).2 hnames⟩

/-- The value of a parameter with a longer name is taken for that of the character set. -/
theorem charset_of_longer_name :
    let ps : List Parameter := [⟨⟨"xcharset", by decide, by decide⟩, ⟨"ascii", by decide, by decide⟩, false, ⟨[], rfl⟩,
      ⟨" ", rfl⟩, ⟨[], rfl⟩, ⟨[], rfl⟩⟩]
    written "application/json" ps = "application/json; xcharset=ascii" ∧
      first? (fun name => folded name = "charset") ps = none ∧ charset (written "application/json" ps) = "ascii" := by
  decide

end DocPath.ContentType
