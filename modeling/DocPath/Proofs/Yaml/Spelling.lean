import DocPath.Yaml.Layout
import DocPath.Proofs.Yaml.Cursor

/-! The forms in which the text of a scalar may be written: where lines are broken depends on the column, so
a form is a relation between the text and what is written. -/

namespace DocPath.Yaml

open Layout

/-- A blank between other code points, in whose place a line may be broken. -/
def Foldable (before : Option CodePoint) (rest : Text) : Prop :=
  (∃ b, before = some b ∧ b ≠ ' ') ∧ ∃ d more, rest = d :: more ∧ d ≠ ' '

lemma hasBlankAtBreak_tail {c : CodePoint} {t : Text} (h : hasBlankAtBreak (c :: t) = false) :
    hasBlankAtBreak t = false := by
  cases t with
  | nil => rfl
  | cons d t =>
    rw [hasBlankAtBreak, Bool.or_eq_false_iff] at h
    exact h.2

lemma head_ne_blank_of_break {c : CodePoint} {t : Text} (h : hasBlankAtBreak (c :: t) = false)
    (hc : isTextBreak c = true) : t.head? ≠ some (CodePoint.ofChar ' ') := by
  cases t with
  | nil => simp
  | cons d t =>
    intro hd
    obtain rfl := Option.some.inj hd
    simp [hasBlankAtBreak, hc] at h

section Bodies

variable (split : Bool) (inner : Nat)

/-- A plain scalar behind the code point `before`. -/
inductive PlainBody : Option CodePoint → Text → Text → Prop
  | nil {before : Option CodePoint} : PlainBody before [] []
  | put {before : Option CodePoint} {c : CodePoint} {t w : Text} (h : PlainBody (some c) t w) :
    PlainBody before (c :: t) (c :: w)
  | fold {before : Option CodePoint} {t w : Text} (hs : split = true) (hf : Foldable before t)
    (h : PlainBody (some (CodePoint.ofChar ' ')) t w) :
    PlainBody before (CodePoint.ofChar ' ' :: t) (newLine inner ++ w)

/-- What is written for a break between single quotation marks: a line feed twice where breaks begin, and
the indentation where they end. -/
def singleBreak (before : Option CodePoint) (c : CodePoint) (rest : Text) : Text :=
  (if before.any isTextBreak = false ∧ c = '\n' then [CodePoint.ofChar '\n'] else []) ++
    c :: (if rest.head?.any isTextBreak then [] else blanks inner)

/-- The text between single quotation marks. -/
inductive SingleBody : Option CodePoint → Text → Text → Prop
  | nil {before : Option CodePoint} : SingleBody before [] []
  | put {before : Option CodePoint} {c : CodePoint} {t w : Text} (hb : isTextBreak c = false)
    (hq : c ≠ '\'') (h : SingleBody (some c) t w) : SingleBody before (c :: t) (c :: w)
  | quote {before : Option CodePoint} {t w : Text} (h : SingleBody (some (CodePoint.ofChar '\'')) t w) :
    SingleBody before (CodePoint.ofChar '\'' :: t)
      (CodePoint.ofChar '\'' :: CodePoint.ofChar '\'' :: w)
  | fold {before : Option CodePoint} {t w : Text} (hs : split = true) (hf : Foldable before t)
    (h : SingleBody (some (CodePoint.ofChar ' ')) t w) :
    SingleBody before (CodePoint.ofChar ' ' :: t) (newLine inner ++ w)
  | breaks {before : Option CodePoint} {c : CodePoint} {t w : Text} (hb : isTextBreak c = true)
    (h : SingleBody (some c) t w) :
    SingleBody before (c :: t) (singleBreak inner before c t ++ w)

/-- A backslash in front of a blank that begins a line. -/
def blankGuard (t : Text) : Text :=
  if t.head? = some (CodePoint.ofChar ' ') then [CodePoint.ofChar '\\'] else []

/-- A broken line between double quotation marks. -/
def escapedBreak (t : Text) : Text := CodePoint.ofChar '\\' :: (newLine inner ++ blankGuard t)

/-- The text between double quotation marks. `begun` tells that something was written before, `held` that a
backslash in front of the blank that comes next was. In a column that every line passes lines are broken
wherever they can be. -/
inductive DoubleBody : Bool → Bool → Text → Text → Prop
  | nil {begun : Bool} : DoubleBody begun false [] []
  | plain {begun held : Bool} {c : CodePoint} {t w : Text} (hc : isDoublePlain c = true)
    (hh : held = true → c = ' ' ∧ (width ≤ inner → t = [])) (h : DoubleBody true false t w) :
    DoubleBody begun held (c :: t) (c :: w)
  | breakPlain {held : Bool} {c : CodePoint} {t w : Text} (hs : split = true)
    (hc : isDoublePlain c = true) (ht : t ≠ []) (hh : held = true → c = ' ' ∧ width ≤ inner)
    (h : DoubleBody true false t w) :
    DoubleBody true held (c :: t) (escapedBreak inner (c :: t) ++ c :: w)
  | special {begun : Bool} {c : CodePoint} {t w : Text} (hc : isDoublePlain c = false)
    (hb : split = true → width ≤ inner → begun = true → t = []) (h : DoubleBody true false t w) :
    DoubleBody begun false (c :: t) (doubleEscape c ++ w)
  | breakSpecial {c : CodePoint} {t w : Text} (hs : split = true) (hc : isDoublePlain c = false)
    (ht : t ≠ []) (h : DoubleBody true (t.head? = some (CodePoint.ofChar ' ')) t w) :
    DoubleBody true false (c :: t) (doubleEscape c ++ (escapedBreak inner t ++ w))

end Bodies

/-- What single quotation marks make of a break: a next line (U+0085) in front of other breaks is lost, one
behind others is read as a line feed, and a lone one as a blank. -/
def heardBreak (before : Option CodePoint) (c : CodePoint) (rest : Text) : Text :=
  if c.val = 0x85 then
    if before.any isTextBreak then [CodePoint.ofChar '\n']
    else if rest.head?.any isTextBreak then [] else [CodePoint.ofChar ' ']
  else [c]

/-- The text that is read back from between single quotation marks. -/
def heardSingle (before : Option CodePoint) : Text → Text
  | [] => []
  | c :: t => (if isTextBreak c then heardBreak before c t else [c]) ++ heardSingle (some c) t

/-- The text that is read back from between double quotation marks where every line is too long: a special
code point in front of a blank is followed by a backslash and another blank. -/
def heardDouble (begun : Bool) : Text → Text
  | [] => []
  | c :: t =>
    c :: ((if begun ∧ isDoublePlain c = false ∧ t.head? = some (CodePoint.ofChar ' ') ∧ 1 < t.length
      then [CodePoint.ofChar '\\', CodePoint.ofChar ' '] else []) ++ heardDouble true t)

/-- The text that is read back from a scalar. -/
def heard (split : Bool) (inner : Nat) (tag t : Text) : Text :=
  match style (!split) tag t with
  | .plain => t
  | .single => heardSingle none t
  | .double => if split ∧ width ≤ inner then heardDouble false t else t

/-- The forms of a scalar. -/
def ScalarBody (split : Bool) (inner : Nat) (tag t w : Text) : Prop :=
  match style (!split) tag t with
  | .plain => PlainBody split inner none t w
  | .single => ∃ b, SingleBody split inner none t b ∧
      w = CodePoint.ofChar '\'' :: (b ++ [CodePoint.ofChar '\''])
  | .double => ∃ b, DoubleBody split inner false false t b ∧
      w = CodePoint.ofChar '"' :: (b ++ [CodePoint.ofChar '"'])

end DocPath.Yaml
