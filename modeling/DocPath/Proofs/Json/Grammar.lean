import DocPath.Proofs.Json.Tree

/-! The grammar of JSON texts as a relation between texts and trees, without fuel and without a rule for objects.
Reading a text by a rule for objects gives the value that the rule gives to its tree. -/

namespace DocPath.Json

open Numeral

/-- What is read at once: a value, or what stands between the brackets of an array or an object. -/
inductive Part where
  | value (x : Tree)
  | items (xs : List Tree)
  | members (ms : List (Text × Tree))

/-- A text begins with a part; what follows it is left over. -/
inductive Spells : Text → Part → Text → Prop
  | text {start u rest : Text} (h : string (CodePoint.ofChar '"' :: start) start = .ok (u, rest)) :
      Spells (CodePoint.ofChar '"' :: start) (.value (.leaf (.text u))) rest
  | word {c : CodePoint} {t rest : Text} {v : Value} (hc : c ≠ '"' ∧ c ≠ '\x7b' ∧ c ≠ '[')
      (h : word? (c :: t) = some (v, rest)) : Spells (c :: t) (.value (.leaf v)) rest
  | number {c : CodePoint} {t rest : Text} {v : Value} (hc : c ≠ '"' ∧ c ≠ '\x7b' ∧ c ≠ '[')
      (hw : word? (c :: t) = none) (h : number (c :: t) = .ok (v, rest)) : Spells (c :: t) (.value (.leaf v)) rest
  | emptyArray {t rest : Text} (h : skipSpace t = CodePoint.ofChar ']' :: rest) :
      Spells (CodePoint.ofChar '[' :: t) (.value (.array [])) rest
  | array {c : CodePoint} {t more rest : Text} {xs : List Tree} (h : skipSpace t = c :: more) (hc : c ≠ ']')
      (hxs : Spells (c :: more) (.items xs) rest) : Spells (CodePoint.ofChar '[' :: t) (.value (.array xs)) rest
  | emptyObject {t rest : Text} (h : skipSpace t = CodePoint.ofChar '\x7d' :: rest) :
      Spells (CodePoint.ofChar '\x7b' :: t) (.value (.object [])) rest
  | object {c : CodePoint} {t more rest : Text} {ms : List (Text × Tree)} (h : skipSpace t = c :: more)
      (hc : c ≠ '\x7d') (hms : Spells (c :: more) (.members ms) rest) :
      Spells (CodePoint.ofChar '\x7b' :: t) (.value (.object ms)) rest
  | lastItem {t more rest : Text} {x : Tree} (hx : Spells t (.value x) more)
      (h : skipSpace more = CodePoint.ofChar ']' :: rest) : Spells t (.items [x]) rest
  | item {t more after rest : Text} {x : Tree} {xs : List Tree} (hx : Spells t (.value x) more)
      (h : skipSpace more = CodePoint.ofChar ',' :: after) (hxs : Spells (skipSpace after) (.items xs) rest) :
      Spells t (.items (x :: xs)) rest
  | lastMember {start name colon assigned more rest : Text} {x : Tree}
      (hname : string (CodePoint.ofChar '"' :: start) start = .ok (name, colon))
      (hcolon : skipSpace colon = CodePoint.ofChar ':' :: assigned) (hx : Spells (skipSpace assigned) (.value x) more)
      (h : skipSpace more = CodePoint.ofChar '\x7d' :: rest) :
      Spells (CodePoint.ofChar '"' :: start) (.members [(name, x)]) rest
  | member {start name colon assigned more after rest : Text} {x : Tree} {ms : List (Text × Tree)}
      (hname : string (CodePoint.ofChar '"' :: start) start = .ok (name, colon))
      (hcolon : skipSpace colon = CodePoint.ofChar ':' :: assigned) (hx : Spells (skipSpace assigned) (.value x) more)
      (h : skipSpace more = CodePoint.ofChar ',' :: after) (hms : Spells (skipSpace after) (.members ms) rest) :
      Spells (CodePoint.ofChar '"' :: start) (.members ((name, x) :: ms)) rest

/-- A whole text spells a tree, with white space around it and without a byte order mark. -/
def Spelled (t : Text) (x : Tree) : Prop :=
  t.startsWith [CodePoint.ofNat 0xFEFF] = false ∧ ∃ rest, Spells (skipSpace t) (.value x) rest ∧ skipSpace rest = []

section Length

variable {start t u rest : Text} {v : Value}

/-! What is left over is no longer than the text. -/

lemma length_skipSpace (t : Text) : (skipSpace t).length ≤ t.length := (List.dropWhile_sublist _).length_le

lemma length_lt_of_skipSpace {c : CodePoint} (h : skipSpace t = c :: rest) : rest.length < t.length := by
  have := length_skipSpace t
  rwa [h, List.length_cons] at this

lemma length_behind {c : CodePoint} (h : skipSpace t = c :: rest) : (skipSpace rest).length < t.length :=
  Nat.lt_of_le_of_lt (length_skipSpace rest) (length_lt_of_skipSpace h)

lemma length_string (h : string start t = .ok (u, rest)) : rest.length ≤ t.length := by
  fun_induction string start t generalizing u
  case case2 => cases h; exact Nat.le_succ _
  all_goals first
    | cases h
    | rename_i ih
      obtain ⟨p, hp, heq⟩ := map_eq_ok h
      cases heq
      have := ih hp
      simp only [List.length_cons] at this ⊢
      omega

lemma length_word (h : word? t = some (v, rest)) : rest.length ≤ t.length := by
  obtain ⟨w, -, heq⟩ := Option.map_eq_some_iff.mp h
  cases heq
  exact (List.drop_sublist _ _).length_le

lemma length_spanDigits (t : Text) : (spanDigits t).2.length ≤ t.length := (List.dropWhile_sublist _).length_le

lemma length_splitWhole (t : Text) : (splitWhole t).2.length ≤ t.length := by
  cases t with
  | nil => exact Nat.le_refl _
  | cons c t =>
    rw [splitWhole]
    split_ifs
    · exact Nat.le_succ _
    · exact length_spanDigits _

lemma length_splitFraction (t : Text) : (splitFraction t).2.length ≤ t.length := by
  cases t with
  | nil => exact Nat.le_refl _
  | cons c t =>
    rw [splitFraction]
    dsimp only
    split_ifs
    · exact Nat.le_refl _
    · exact Nat.le_succ_of_le (length_spanDigits t)

lemma length_splitSign (t : Text) : (splitSign t).2.length ≤ t.length := by
  fun_cases splitSign t
  all_goals first
    | exact Nat.le_refl _
    | exact Nat.le_succ _

lemma length_splitExponent (t : Text) : (splitExponent t).2.length ≤ t.length := by
  cases t with
  | nil => exact Nat.le_refl _
  | cons c t =>
    have hafter := Nat.le_trans (length_spanDigits (splitSign t).2) (length_splitSign t)
    rw [splitExponent, exponent?]
    dsimp only
    split_ifs
    · exact Nat.le_refl _
    · exact Nat.le_succ_of_le hafter
    · exact Nat.le_succ_of_le hafter
    · exact Nat.le_refl _

lemma length_number (h : number t = .ok (v, rest)) : rest.length ≤ t.length := by
  cases t with
  | nil => cases h
  | cons c t =>
    simp only [number, failAt] at h
    generalize hsign : (if c = CodePoint.ofChar '-' then (true, t) else (false, c :: t)) = signed at h
    have hunsigned : signed.2.length ≤ (c :: t).length := by
      rw [← hsign]
      split_ifs
      · exact Nat.le_succ _
      · exact Nat.le_refl _
    have hwhole := Nat.le_trans (length_splitWhole signed.2) hunsigned
    split_ifs at h
    all_goals first
      | cases h
        exact Nat.le_trans (length_splitExponent _) (Nat.le_trans (length_splitFraction _) hwhole)
      | split at h
        · cases h
          exact hwhole
        · cases h

lemma Spells.length_le {part : Part} (h : Spells t part rest) : rest.length ≤ t.length := by
  induction h with
  | text h => exact Nat.le_succ_of_le (length_string h)
  | word _ h => exact length_word h
  | number _ _ h => exact length_number h
  | emptyArray h | emptyObject h => exact Nat.le_succ_of_le (Nat.le_of_lt (length_lt_of_skipSpace h))
  | array h _ _ ih | object h _ _ ih => exact Nat.le_succ_of_le (Nat.le_trans ih (length_lt_of_skipSpace h))
  | lastItem _ h ih => exact Nat.le_trans (Nat.le_of_lt (length_lt_of_skipSpace h)) ih
  | item _ h _ ih ihs =>
    have := length_behind h
    omega
  | lastMember hname hcolon _ h ih =>
    have := length_string hname
    have := length_behind hcolon
    have := length_lt_of_skipSpace h
    rw [List.length_cons]
    omega
  | member hname hcolon _ h _ ih ihs =>
    have := length_string hname
    have := length_behind hcolon
    have := length_behind h
    rw [List.length_cons]
    omega

end Length

section Steps

variable {finish : Finish} {fuel : Nat} {c : CodePoint} {t rest : Text}

lemma value_text (start : Text) : value finish (fuel + 1) (CodePoint.ofChar '"' :: start) =
    (string (CodePoint.ofChar '"' :: start) start).map fun p => (.text p.1, p.2) := by
  rw [value, if_pos rfl]

lemma value_word {v : Value} (hc : c ≠ '"' ∧ c ≠ '\x7b' ∧ c ≠ '[') (h : word? (c :: t) = some (v, rest)) :
    value finish (fuel + 1) (c :: t) = .ok (v, rest) := by
  rw [value, if_neg hc.1, if_neg hc.2.1, if_neg hc.2.2, h]

lemma value_number (hc : c ≠ '"' ∧ c ≠ '\x7b' ∧ c ≠ '[') (h : word? (c :: t) = none) :
    value finish (fuel + 1) (c :: t) = number (c :: t) := by
  rw [value, if_neg hc.1, if_neg hc.2.1, if_neg hc.2.2, h]

lemma value_emptyArray (h : skipSpace t = CodePoint.ofChar ']' :: rest) :
    value finish (fuel + 1) (CodePoint.ofChar '[' :: t) = .ok (.list [], rest) := by
  rw [value, if_neg (by decide), if_neg (by decide), if_pos rfl, h]
  rfl

lemma value_array (h : skipSpace t = c :: rest) (hc : c ≠ ']') : value finish (fuel + 1) (CodePoint.ofChar '[' :: t) =
    (items finish fuel (c :: rest)).map fun p => (.list p.1, p.2) := by
  rw [value, if_neg (by decide), if_neg (by decide), if_pos rfl, h]
  exact if_neg hc

lemma value_emptyObject (h : skipSpace t = CodePoint.ofChar '\x7d' :: rest) :
    value finish (fuel + 1) (CodePoint.ofChar '\x7b' :: t) = (finish []).map fun v => (v, rest) := by
  rw [value, if_neg (by decide), if_pos rfl, h]
  rfl

lemma value_object (h : skipSpace t = c :: rest) (hc : c ≠ '\x7d') :
    value finish (fuel + 1) (CodePoint.ofChar '\x7b' :: t) =
      members finish fuel (c :: rest) >>= fun p => (finish p.1).map fun v => (v, p.2) := by
  rw [value, if_neg (by decide), if_pos rfl, h]
  dsimp only
  rw [if_neg hc]
  refine congrArg (members finish fuel (c :: rest) >>= ·) (funext fun p => ?_)
  show (finish p.1 >>= fun v => pure (v, p.2)) = _
  cases finish p.1 <;> rfl

variable {x : Except Fault Value} {mark : CodePoint} {more after : Text}

/-- An item and the mark behind it: what the mark says is left open. -/
lemma items_of_value {t : Text} (hx : value finish fuel t = x.map fun v => (v, more))
    (hmark : skipSpace more = mark :: after) : items finish (fuel + 1) t = x >>= fun v =>
      if mark = ']' then .ok ([v], after)
      else if mark = ',' then (items finish fuel (skipSpace after)).map fun p => (v :: p.1, p.2)
      else failAt .comma (mark :: after) := by
  rw [items, hx]
  cases x with
  | error fault => rfl
  | ok v =>
    simp only [Except.map, bind, Except.bind, hmark]
    rfl

lemma members_of_value {start name colon assigned : Text}
    (hname : string (CodePoint.ofChar '"' :: start) start = .ok (name, colon))
    (hcolon : skipSpace colon = CodePoint.ofChar ':' :: assigned)
    (hx : value finish fuel (skipSpace assigned) = x.map fun v => (v, more)) (hmark : skipSpace more = mark :: after) :
    members finish (fuel + 1) (CodePoint.ofChar '"' :: start) = x >>= fun v =>
      if mark = '\x7d' then .ok ([(name, v)], after)
      else if mark = ',' then (members finish fuel (skipSpace after)).map fun p => ((name, v) :: p.1, p.2)
      else failAt .comma (mark :: after) := by
  rw [members.eq_def]
  simp only [ne_eq, not_true_eq_false, if_false, hname, bind, Except.bind, hcolon, hx]
  cases x with
  | error fault => rfl
  | ok v =>
    simp only [Except.map, hmark]
    rfl

end Steps

/-- What is read is what the rule for objects makes of the part, if there is enough fuel. -/
def Part.IsRead (finish : Finish) (t rest : Text) : Part → Prop
  | .value x => ∀ fuel, 2 * t.length < fuel + 2 * rest.length →
      Json.value finish fuel t = (x.meaning finish).map fun v => (v, rest)
  | .items xs => ∀ fuel, 2 * t.length ≤ fuel + 2 * rest.length →
      Json.items finish fuel t = (Tree.meanings finish xs).map fun vs => (vs, rest)
  | .members ms => ∀ fuel, 2 * t.length ≤ fuel + 2 * rest.length →
      Json.members finish fuel t = (Tree.memberMeanings finish ms).map fun es => (es, rest)

lemma exists_fuel {fuel m n : Nat} (hlt : 2 * m < fuel + 2 * n) (hle : n ≤ m) : ∃ k, fuel = k + 1 :=
  Nat.exists_eq_succ_of_ne_zero (by omega)

namespace Spells

variable {finish : Finish} {fuel : Nat} {t rest : Text} {part : Part}

/-- Enough fuel changes nothing. -/
theorem isRead (h : Spells t part rest) : part.IsRead finish t rest := by
  -- on the derivation: every part ends before the whole does, which leaves fuel for it
  induction h with
  | text h =>
    intro fuel hfuel
    obtain ⟨k, rfl⟩ := exists_fuel hfuel (text h).length_le
    rw [value_text, h]
    rfl
  | word hc h =>
    intro fuel hfuel
    obtain ⟨k, rfl⟩ := exists_fuel hfuel (word hc h).length_le
    exact value_word hc h
  | number hc hw h =>
    intro fuel hfuel
    obtain ⟨k, rfl⟩ := exists_fuel hfuel (number hc hw h).length_le
    exact (value_number hc hw).trans h
  | emptyArray h =>
    intro fuel hfuel
    obtain ⟨k, rfl⟩ := exists_fuel hfuel (emptyArray h).length_le
    exact value_emptyArray h
  | @array c t more rest xs h hc hxs ih =>
    intro fuel hfuel
    obtain ⟨k, rfl⟩ := exists_fuel hfuel (array h hc hxs).length_le
    have hk : 2 * (c :: more).length ≤ k + 2 * rest.length := by
      have := length_lt_of_skipSpace h
      rw [List.length_cons] at hfuel ⊢
      omega
    rw [value_array h hc, ih k hk, Tree.meaning]
    cases Tree.meanings finish xs <;> rfl
  | emptyObject h =>
    intro fuel hfuel
    obtain ⟨k, rfl⟩ := exists_fuel hfuel (emptyObject h).length_le
    exact value_emptyObject h
  | @object c t more rest ms h hc hms ih =>
    intro fuel hfuel
    obtain ⟨k, rfl⟩ := exists_fuel hfuel (object h hc hms).length_le
    have hk : 2 * (c :: more).length ≤ k + 2 * rest.length := by
      have := length_lt_of_skipSpace h
      rw [List.length_cons] at hfuel ⊢
      omega
    rw [value_object h hc, ih k hk, Tree.meaning]
    cases Tree.memberMeanings finish ms <;> rfl
  | @lastItem t more rest x hx h ih =>
    intro fuel hfuel
    have := length_lt_of_skipSpace h
    have := hx.length_le
    obtain ⟨k, rfl⟩ : ∃ k, fuel = k + 1 := Nat.exists_eq_succ_of_ne_zero (by omega)
    rw [items_of_value (ih k (by omega)) h, Tree.meanings]
    cases x.meaning finish <;> rfl
  | @item t more after rest x xs hx h hxs ih ihs =>
    intro fuel hfuel
    have := hx.length_le
    have := length_behind h
    have := hxs.length_le
    obtain ⟨k, rfl⟩ : ∃ k, fuel = k + 1 := Nat.exists_eq_succ_of_ne_zero (by omega)
    rw [items_of_value (ih k (by omega)) h, ihs k (by omega), Tree.meanings]
    cases x.meaning finish with
    | error fault => rfl
    | ok v => cases Tree.meanings finish xs <;> rfl
  | @lastMember start name colon assigned more rest x hname hcolon hx h ih =>
    intro fuel hfuel
    have := length_string hname
    have := length_behind hcolon
    have := hx.length_le
    have := length_lt_of_skipSpace h
    rw [List.length_cons] at hfuel
    obtain ⟨k, rfl⟩ : ∃ k, fuel = k + 1 := Nat.exists_eq_succ_of_ne_zero (by omega)
    rw [members_of_value hname hcolon (ih k (by omega)) h, Tree.memberMeanings]
    cases x.meaning finish <;> rfl
  | @member start name colon assigned more after rest x ms hname hcolon hx h hms ih ihs =>
    intro fuel hfuel
    have := length_string hname
    have := length_behind hcolon
    have := hx.length_le
    have := length_behind h
    have := hms.length_le
    rw [List.length_cons] at hfuel
    obtain ⟨k, rfl⟩ : ∃ k, fuel = k + 1 := Nat.exists_eq_succ_of_ne_zero (by omega)
    rw [members_of_value hname hcolon (ih k (by omega)) h, ihs k (by omega), Tree.memberMeanings]
    cases x.meaning finish with
    | error fault => rfl
    | ok v => cases Tree.memberMeanings finish ms <;> rfl

end Spells

/-- What is read with some fuel is a part at the front of the text. -/
structure ReadsParts (finish : Finish) (fuel : Nat) : Prop where
  value : ∀ t v rest, value finish fuel t = .ok (v, rest) → ∃ x, Spells t (.value x) rest
  items : ∀ t vs rest, items finish fuel t = .ok (vs, rest) → ∃ xs, Spells t (.items xs) rest
  members : ∀ t es rest, members finish fuel t = .ok (es, rest) → ∃ ms, Spells t (.members ms) rest

namespace ReadsParts

variable {finish : Finish} {fuel : Nat} {t rest : Text}

lemma zero : ReadsParts finish 0 where
  value t v rest h := by rw [Json.value] at h; cases h
  items t vs rest h := by rw [Json.items] at h; cases h
  members t es rest h := by rw [Json.members] at h; cases h

lemma value_succ {v : Value} (ih : ReadsParts finish fuel) (h : Json.value finish (fuel + 1) t = .ok (v, rest)) :
    ∃ x, Spells t (.value x) rest := by
  cases t with
  | nil => rw [Json.value] at h <;> cases h
  | cons c t =>
    rw [Json.value] at h
    split_ifs at h with hquote hbrace hbracket
    · obtain ⟨⟨u, _⟩, hu, heq⟩ := map_eq_ok h
      cases heq
      cases hquote
      exact ⟨_, .text hu⟩
    · cases hbrace
      cases hopen : skipSpace t with
      | nil => rw [hopen] at h; cases h
      | cons d more =>
        rw [hopen] at h
        dsimp only at h
        split_ifs at h with hclose
        · obtain ⟨_, -, heq⟩ := map_eq_ok h
          cases heq
          cases hclose
          exact ⟨_, .emptyObject hopen⟩
        · obtain ⟨⟨es, after⟩, hes, h⟩ := bind_eq_ok h
          obtain ⟨_, -, heq⟩ := bind_eq_ok h
          cases heq
          obtain ⟨ms, hms⟩ := ih.members _ _ _ hes
          exact ⟨_, .object hopen hclose hms⟩
    · cases hbracket
      cases hopen : skipSpace t with
      | nil => rw [hopen] at h; cases h
      | cons d more =>
        rw [hopen] at h
        dsimp only at h
        split_ifs at h with hclose
        · cases h
          cases hclose
          exact ⟨_, .emptyArray hopen⟩
        · obtain ⟨⟨vs, after⟩, hvs, heq⟩ := map_eq_ok h
          cases heq
          obtain ⟨xs, hxs⟩ := ih.items _ _ _ hvs
          exact ⟨_, .array hopen hclose hxs⟩
    · cases hword : word? (c :: t) with
      | some p =>
        rw [hword] at h
        cases h
        exact ⟨_, .word ⟨hquote, hbrace, hbracket⟩ hword⟩
      | none =>
        rw [hword] at h
        exact ⟨_, .number ⟨hquote, hbrace, hbracket⟩ hword h⟩

lemma items_succ {vs : List Value} (ih : ReadsParts finish fuel)
    (h : Json.items finish (fuel + 1) t = .ok (vs, rest)) : ∃ xs, Spells t (.items xs) rest := by
  rw [Json.items] at h
  obtain ⟨⟨v, more⟩, hv, h⟩ := bind_eq_ok h
  obtain ⟨x, hx⟩ := ih.value _ _ _ hv
  dsimp only at h
  cases hmark : skipSpace more with
  | nil => rw [hmark] at h; cases h
  | cons d after =>
    rw [hmark] at h
    dsimp only at h
    split_ifs at h with hclose hcomma
    · cases h
      cases hclose
      exact ⟨_, .lastItem hx hmark⟩
    · obtain ⟨⟨vs', _⟩, hvs, h⟩ := bind_eq_ok h
      cases h
      cases hcomma
      obtain ⟨xs, hxs⟩ := ih.items _ _ _ hvs
      exact ⟨_, .item hx hmark hxs⟩
    · cases h

lemma members_succ {es : List (Text × Value)} (ih : ReadsParts finish fuel)
    (h : Json.members finish (fuel + 1) t = .ok (es, rest)) : ∃ ms, Spells t (.members ms) rest := by
  cases t with
  | nil => rw [Json.members] at h <;> cases h
  | cons c t =>
    rw [Json.members] at h
    split_ifs at h with hquote
    · cases h
    · cases not_ne_iff.mp hquote
      obtain ⟨⟨name, colon⟩, hname, h⟩ := bind_eq_ok h
      dsimp only at h
      cases hcolon : skipSpace colon with
      | nil => rw [hcolon] at h; cases h
      | cons d assigned =>
        rw [hcolon] at h
        dsimp only at h
        split_ifs at h with hd
        · cases h
        · cases not_ne_iff.mp hd
          obtain ⟨⟨v, more⟩, hv, h⟩ := bind_eq_ok h
          obtain ⟨x, hx⟩ := ih.value _ _ _ hv
          dsimp only at h
          cases hmark : skipSpace more with
          | nil => rw [hmark] at h; cases h
          | cons e after =>
            rw [hmark] at h
            dsimp only at h
            split_ifs at h with hclose hcomma
            · cases h
              cases hclose
              exact ⟨_, .lastMember hname hcolon hx hmark⟩
            · obtain ⟨⟨es', _⟩, hes, h⟩ := bind_eq_ok h
              cases h
              cases hcomma
              obtain ⟨ms, hms⟩ := ih.members _ _ _ hes
              exact ⟨_, .member hname hcolon hx hmark hms⟩
            · cases h

lemma all (finish : Finish) (fuel : Nat) : ReadsParts finish fuel := by
  induction fuel with
  | zero => exact zero
  | succ fuel ih => exact ⟨fun _ _ _ => ih.value_succ, fun _ _ _ => ih.items_succ, fun _ _ _ => ih.members_succ⟩

end ReadsParts

section Documents

variable {finish : Finish} {t : Text} {x : Tree}

/-- A text that spells a tree is read as what the rule for objects makes of the tree. -/
theorem readWith_of_spelled (h : Spelled t x) : readWith finish t = x.meaning finish := by
  obtain ⟨hmark, rest, hx, hend⟩ := h
  have hvalue : value finish (2 * t.length + 2) (skipSpace t) = (x.meaning finish).map fun v => (v, rest) := by
    have := length_skipSpace t
    exact hx.isRead _ (by omega)
  rw [readWith, hmark, hvalue]
  cases x.meaning finish with
  | error fault => rfl
  | ok v =>
    simp only [Except.map, bind, Except.bind, hend]
    rfl

/-- A text that is read spells a tree. -/
theorem exists_spelled {v : Value} (h : readWith finish t = .ok v) : ∃ x, Spelled t x := by
  rw [readWith] at h
  split_ifs at h with hmark
  · cases h
  · obtain ⟨⟨w, rest⟩, hw, h⟩ := bind_eq_ok h
    obtain ⟨x, hx⟩ := (ReadsParts.all finish _).value _ _ _ hw
    dsimp only at h
    cases hend : skipSpace rest with
    | nil => exact ⟨x, by simpa using hmark, rest, hx, hend⟩
    | cons c more => rw [hend] at h; cases h

end Documents

end DocPath.Json
