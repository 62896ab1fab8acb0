import DocPath.Text
import Mathlib.Data.List.Basic
import Mathlib.Data.List.Forall2

/-! Small facts about results, code points and texts that the theory of paths, numbers and formats shares. -/

namespace DocPath

section Results

variable {ε ε' α β : Type}

theorem bind_eq_ok {x : Except ε α} {f : α → Except ε β} {b : β} (h : (x >>= f) = .ok b) :
    ∃ a, x = .ok a ∧ f a = .ok b := by
  cases x with
  | error e => cases h
  | ok a => exact ⟨a, rfl, h⟩

theorem bind_ok {σ : Type} {x : StateT σ (Except ε) α} {f : α → StateT σ (Except ε) β} {a : α} {s t : σ}
    (h : x s = .ok (a, t)) : (x >>= f) s = f a t := by
  show Except.bind (x s) _ = _
  rw [h]
  rfl

theorem run_bind_eq_ok {σ : Type} {x : StateT σ (Except ε) α} {f : α → StateT σ (Except ε) β} {s s' : σ} {b : β}
    (h : (x >>= f) s = .ok (b, s')) : ∃ a t, x s = .ok (a, t) ∧ f a t = .ok (b, s') := by
  obtain ⟨r, hx, hf⟩ := bind_eq_ok (x := x s) h
  exact ⟨r.1, r.2, hx, hf⟩

theorem map_eq_ok {x : Except ε α} {f : α → β} {b : β} (h : x.map f = .ok b) : ∃ a, x = .ok a ∧ f a = b := by
  cases x with
  | error e => cases h
  | ok a => exact ⟨a, rfl, Except.ok.inj h⟩

theorem ok_of_toOption {x : Except ε α} {a : α} (h : x.toOption = some a) : x = .ok a := by
  cases x with
  | error e => cases h
  | ok a => exact congrArg _ (Option.some.inj h)

theorem map_eq_error {x : Except ε α} {f : α → β} {e : ε} (h : x.map f = .error e) : x = .error e := by
  cases x with
  | error e => exact congrArg _ (Except.error.inj h)
  | ok a => cases h

theorem bind_eq_error {x : Except ε α} {f : α → Except ε β} {e : ε} (h : (x >>= f) = .error e) :
    x = .error e ∨ ∃ a, x = .ok a ∧ f a = .error e := by
  cases x with
  | error e => exact .inl (congrArg _ (Except.error.inj h))
  | ok a => exact .inr ⟨a, rfl, h⟩

theorem mapError_eq_ok {x : Except ε α} {f : ε → ε'} {a : α} (h : x.mapError f = .ok a) : x = .ok a := by
  cases x with
  | error e => cases h
  | ok b => exact congrArg _ (Except.ok.inj h)

theorem isOk_bind_iff {x : Except ε α} {f : α → Except ε β} :
    (∃ b, (x >>= f) = .ok b) ↔ ∃ a, x = .ok a ∧ ∃ b, f a = .ok b := by
  refine ⟨fun ⟨b, h⟩ => ?_, fun ⟨a, hx, b, hb⟩ => ⟨b, by rw [hx]; exact hb⟩⟩
  obtain ⟨a, hx, hb⟩ := bind_eq_ok h
  exact ⟨a, hx, b, hb⟩

theorem isOk_map_iff {x : Except ε α} {f : α → β} : (∃ b, (x >>= fun a => pure (f a)) = .ok b) ↔ ∃ a, x = .ok a := by
  rw [isOk_bind_iff]
  exact exists_congr fun a => and_iff_left ⟨f a, rfl⟩

theorem isOk_mapError_iff {x : Except ε α} {f : ε → ε'} : (∃ a, x.mapError f = .ok a) ↔ ∃ a, x = .ok a :=
  exists_congr fun a => ⟨mapError_eq_ok, fun h => by rw [h]; rfl⟩

end Results

/-- A result has a property, and an error is among the expected ones. -/
def Settles {ε α : Type} (expected : ε → Prop) (p : α → Prop) (r : Except ε α) : Prop :=
  match r with
  | .ok a => p a
  | .error e => expected e

namespace Settles

variable {ε ε' α β : Type} {expected : ε → Prop} {p p' : α → Prop} {q : β → Prop} {r r' : Except ε α}

theorem ok {a : α} (h : p a) : Settles expected p (.ok a) := h

theorem error {e : ε} (h : expected e) : Settles expected p (.error e) := h

theorem of_ok {a : α} (h : Settles expected p r) (hr : r = .ok a) : p a := by
  rw [hr] at h
  exact h

theorem of_error {e : ε} (h : Settles expected p r) (hr : r = .error e) : expected e := by
  rw [hr] at h
  exact h

theorem bind {f : α → Except ε β} (hr : Settles expected p r) (hf : ∀ a, p a → Settles expected q (f a)) :
    Settles expected q (r >>= f) := by
  cases r with
  | error e => exact hr
  | ok a => exact hf a hr

theorem mono (hr : Settles expected p r) (hp : ∀ a, p a → p' a) : Settles expected p' r := by
  cases r with
  | error e => exact hr
  | ok a => exact hp a hr

theorem expect {expected' : ε → Prop} (hr : Settles expected p r) (he : ∀ e, expected e → expected' e) :
    Settles expected' p r := by
  cases r with
  | error e => exact he e hr
  | ok a => exact hr

theorem ite {c : Prop} [Decidable c] (h : c → Settles expected p r) (h' : ¬c → Settles expected p r') :
    Settles expected p (if c then r else r') := by
  by_cases hc : c
  · rw [if_pos hc]
    exact h hc
  · rw [if_neg hc]
    exact h' hc

theorem mapError {r : Except ε' α} {f : ε' → ε} (hf : ∀ e, expected (f e)) :
    Settles expected (fun _ => True) (r.mapError f) := by
  cases r with
  | error e => exact hf e
  | ok a => trivial

theorem mapM {f : β → Except ε α} (hf : ∀ b, Settles expected p (f b)) (bs : List β) :
    Settles expected (fun as => as.length = bs.length) (bs.mapM f) := by
  induction bs with
  | nil => exact rfl
  | cons b bs ih =>
    rw [List.mapM_cons]
    exact (hf b).bind fun a _ => ih.bind fun as has => ok (congrArg Nat.succ has)

end Settles

theorem mem_of_lookup {α β : Type} [BEq α] [LawfulBEq α] {l : List (α × β)} {a : α} {b : β} (h : l.lookup a = some b) :
    (a, b) ∈ l := by
  obtain ⟨before, after, rfl, -⟩ := List.lookup_eq_some_iff.mp h
  simp

theorem exists_of_forall₂ {α β : Type} {r : α → β → Prop} {xs : List α} {ys : List β} {y : β}
    (h : List.Forall₂ r xs ys) (hy : y ∈ ys) : ∃ x ∈ xs, r x y := by
  induction h with
  | nil => cases hy
  | cons hr _ ih =>
    rcases List.mem_cons.mp hy with rfl | hy
    · exact ⟨_, List.mem_cons_self, hr⟩
    · obtain ⟨x, hx, hr⟩ := ih hy
      exact ⟨x, List.mem_cons_of_mem _ hx, hr⟩

theorem eq_of_forall₂ {α β : Type} {r r' : α → β → Prop} {xs : List α} {ys zs : List β} (h : List.Forall₂ r xs ys)
    (h' : List.Forall₂ r' xs zs) (heq : ∀ x ∈ xs, ∀ y z, r x y → r' x z → y = z) : ys = zs := by
  induction h generalizing zs with
  | nil =>
    cases h'
    rfl
  | cons hr _ ih =>
    cases h' with
    | cons hr' h' =>
      rw [heq _ List.mem_cons_self _ _ hr hr', ih h' fun x hx => heq x (List.mem_cons_of_mem _ hx)]

theorem pairwise_of_forall₂ {α β : Type} {r : α → β → Prop} {p : α → α → Prop} {q : β → β → Prop} {xs : List α}
    {ys : List β} (h : List.Forall₂ r xs ys) (hp : xs.Pairwise p)
    (hq : ∀ x ∈ xs, ∀ x' ∈ xs, ∀ y y', r x y → r x' y' → p x x' → q y y') : ys.Pairwise q := by
  induction h with
  | nil => exact .nil
  | @cons x y xs ys hr hall ih =>
    obtain ⟨hfirst, hrest⟩ := List.pairwise_cons.mp hp
    refine List.pairwise_cons.mpr ⟨fun y' hy' => ?_, ih hrest fun a ha b hb =>
      hq a (List.mem_cons_of_mem _ ha) b (List.mem_cons_of_mem _ hb)⟩
    obtain ⟨x', hx', hr'⟩ := exists_of_forall₂ hall hy'
    exact hq x List.mem_cons_self x' (List.mem_cons_of_mem _ hx') y y' hr hr' (hfirst x' hx')

namespace CodePoint

@[simp] theorem ofChar_val (c : Char) : (ofChar c).val = c.toNat := rfl

@[simp] theorem ofChar_inj {c d : Char} : ofChar c = ofChar d ↔ c = d := by
  rw [Fin.ext_iff, ofChar_val, ofChar_val]
  exact ⟨fun h => Char.ext (UInt32.toNat.inj h), fun h => h ▸ rfl⟩

theorem eq_ofChar_iff {c : CodePoint} {d : Char} : c = ofChar d ↔ c.val = d.toNat := Fin.ext_iff

theorem is_iff {c : CodePoint} {d : Char} : c.is d = true ↔ c.val = d.toNat := by
  rw [is, beq_iff_eq, eq_ofChar_iff]

@[simp] theorem is_ofChar (c d : Char) : (ofChar c).is d = (c == d) := by
  rw [Bool.eq_iff_iff, is, beq_iff_eq, beq_iff_eq, ofChar_inj]

theorem ofNat_val {n : Nat} (h : n < 0x110000) : (ofNat n).val = n := by
  rw [ofNat, dif_pos h]

@[simp] theorem ofNat_of_val (c : CodePoint) : ofNat c.val = c := by
  rw [ofNat, dif_pos c.isLt]

theorem isDigit_iff {c : CodePoint} : c.isDigit = true ↔ 48 ≤ c.val ∧ c.val ≤ 57 := by
  rw [isDigit, Bool.and_eq_true, decide_eq_true_eq, decide_eq_true_eq]
  rfl

end CodePoint

namespace Text

theorem isPrefixOf_singleton (c : CodePoint) (t : Text) :
    List.isPrefixOf [c] t = true ↔ t.head? = some c := by
  cases t with
  | nil => simp
  | cons d rest =>
    rw [List.isPrefixOf_cons_cons, List.isPrefixOf_nil_left, Bool.and_true, beq_iff_eq,
      List.head?_cons, Option.some_inj]
    exact eq_comm

/-- A single code point occurs in a text exactly if it is one of its members. -/
theorem contains_singleton (c : CodePoint) (t : Text) : t.contains [c] = true ↔ c ∈ t := by
  induction t with
  | nil => simp [Text.contains]
  | cons d rest ih =>
    simp only [Text.contains, Bool.or_eq_true, isPrefixOf_singleton, ih, List.head?_cons,
      Option.some_inj, List.mem_cons]
    rw [eq_comm]

lemma dropWhile_eq_self {p : CodePoint → Bool} {t : Text} (h : ∀ c ∈ t, p c = false) :
    t.dropWhile p = t := by
  cases t with
  | nil => rfl
  | cons c rest => simp [h c (by simp)]

/-- A text has one piece more than separators. -/
theorem length_splitOn (sep : CodePoint) (t : Text) : (splitOn sep t).length = t.count sep + 1 := by
  induction t with
  | nil => rfl
  | cons c rest ih =>
    rw [splitOn]
    split_ifs with hc
    · rw [hc, List.length_cons, ih, List.count_cons_self]
    · rw [List.count_cons_of_ne hc]
      cases hpieces : splitOn sep rest with
      | nil => rw [hpieces] at ih; cases ih
      | cons piece pieces => rw [hpieces] at ih; exact ih

/-- A text without any code point of a class is not trimmed. -/
theorem trim_eq_self {p : CodePoint → Bool} {t : Text} (h : ∀ c ∈ t, p c = false) :
    t.trim p = t := by
  have hr : ∀ c ∈ t.reverse, p c = false := fun c hc => h c (List.mem_reverse.mp hc)
  rw [trim, dropWhile_eq_self h, dropWhile_eq_self hr, List.reverse_reverse]

end Text

end DocPath
