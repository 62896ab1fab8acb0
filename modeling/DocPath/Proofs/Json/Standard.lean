import DocPath.Proofs.Json.RoundTrip
import DocPath.Proofs.Value.Plain

/-! The standard grammar of JSON, and the texts that are written. They derive from it exactly if every number in the value
is finite: NaN and the infinities are written as words that the grammar does not have. That they do not derive from it in
some other way is seen at what stands outside of strings, where no word of the grammar has a capital letter. -/

namespace DocPath

/-- A number other than NaN and the infinities. -/
def Binary64.IsFinite (x : Binary64) : Prop := ∃ negative m q, x.shape = .finite negative m q

namespace Json.Standard

open Numeral

/-- White space between tokens. -/
def Blank (t : Text) : Prop := ∀ c ∈ t, isSpace c = true

def Digits (t : Text) : Prop := t ≠ [] ∧ ∀ c ∈ t, c.isDigit = true

def Fraction (t : Text) : Prop := t = [] ∨ ∃ digits, Digits digits ∧ t = CodePoint.ofChar '.' :: digits

def Exponent (t : Text) : Prop :=
  t = [] ∨ ∃ (e : CodePoint) (sign digits : Text), (e = 'e' ∨ e = 'E') ∧ (sign = [] ∨ sign = "+" ∨ sign = "-") ∧
    Digits digits ∧ t = e :: (sign ++ digits)

inductive Number : Text → Prop
  | mk (negative : Bool) {whole fraction exponent : Text} (hwhole : IsWhole whole) (hfraction : Fraction fraction)
      (hexponent : Exponent exponent) : Number (signedText negative (whole ++ (fraction ++ exponent)))

/-- What stands between quotation marks. -/
inductive Body : Text → Prop
  | nil : Body []
  | plain {c : CodePoint} {t : Text} (hc : 0x20 ≤ c.val) (hquote : c ≠ '"') (hslash : c ≠ '\\') (ht : Body t) :
      Body (c :: t)
  | letter {c : CodePoint} {t : Text} (hc : c ∈ Text.ofString "\"\\/bfnrt") (ht : Body t) :
      Body (CodePoint.ofChar '\\' :: c :: t)
  | digits {ds t : Text} (hlength : ds.length = 4) (hds : ∀ d ∈ ds, d.isHexDigit = true) (ht : Body t) :
      Body (CodePoint.ofChar '\\' :: CodePoint.ofChar 'u' :: (ds ++ t))

inductive Quoted : Text → Prop
  | mk {body : Text} (h : Body body) : Quoted (CodePoint.ofChar '"' :: (body ++ [CodePoint.ofChar '"']))

/-- What stands between brackets, once or with commas between. -/
inductive Item where
  | value
  | member

def Item.opening : Item → CodePoint
  | value => '['
  | member => '\x7b'

def Item.closing : Item → CodePoint
  | value => ']'
  | member => '\x7d'

inductive Form where
  | one (item : Item)
  | many (item : Item)

/-- A text derives from a form. White space around values and members belongs to their list. -/
inductive Derives : Form → Text → Prop
  | word {t : Text} (h : t = "null" ∨ t = "true" ∨ t = "false") : Derives (.one .value) t
  | number {t : Text} (h : Number t) : Derives (.one .value) t
  | string {t : Text} (h : Quoted t) : Derives (.one .value) t
  | empty {item : Item} {blank : Text} (h : Blank blank) :
      Derives (.one .value) (item.opening :: (blank ++ [item.closing]))
  | nested {item : Item} {t : Text} (h : Derives (.many item) t) :
      Derives (.one .value) (item.opening :: (t ++ [item.closing]))
  | member {name before after t : Text} (hname : Quoted name) (hbefore : Blank before) (hafter : Blank after)
      (h : Derives (.one .value) t) : Derives (.one .member) (name ++ (before ++ CodePoint.ofChar ':' :: (after ++ t)))
  | last {item : Item} {before t after : Text} (hbefore : Blank before) (h : Derives (.one item) t)
      (hafter : Blank after) : Derives (.many item) (before ++ (t ++ after))
  | more {item : Item} {before t after rest : Text} (hbefore : Blank before) (h : Derives (.one item) t)
      (hafter : Blank after) (hrest : Derives (.many item) rest) :
      Derives (.many item) (before ++ (t ++ (after ++ CodePoint.ofChar ',' :: rest)))

section Unquoted

/-- Places in a text: outside of strings, inside one, or behind a backslash in one. -/
inductive Place where
  | outside
  | inside
  | escape

/-- What stands outside of strings, from a place on. -/
def unquoted : Place → Text → Text
  | _, [] => []
  | .outside, c :: t => if c = '"' then unquoted .inside t else c :: unquoted .outside t
  | .inside, c :: t => unquoted (if c = '"' then .outside else if c = '\\' then .escape else .inside) t
  | .escape, _ :: t => unquoted .inside t

/-- Strings that begin in a text end in it. -/
def Closed (t : Text) : Prop := ∀ rest, unquoted .outside (t ++ rest) = unquoted .outside t ++ unquoted .outside rest

/-- A letter of no token. -/
def Foreign (c : CodePoint) : Prop := c = 'N' ∨ c = 'I'

instance : DecidablePred Foreign := fun c => inferInstanceAs (Decidable (c = 'N' ∨ c = 'I'))

/-- No such letter stands outside of strings. -/
def Native (t : Text) : Prop := ∀ c ∈ unquoted .outside t, ¬Foreign c

instance : DecidablePred Native := fun t => List.decidableBAll _ (unquoted .outside t)

variable {t u : Text} {c : CodePoint}

lemma closed_nil : Closed [] := fun _ => rfl

lemma Closed.append (ht : Closed t) (hu : Closed u) : Closed (t ++ u) := by
  intro rest
  rw [List.append_assoc, ht, hu, ht, List.append_assoc]

lemma native_append (ht : Closed t) : Native (t ++ u) ↔ Native t ∧ Native u := by
  rw [Native, ht, List.forall_mem_append]
  rfl

lemma unquoted_cons (hc : c ≠ '"') (t : Text) : unquoted .outside (c :: t) = c :: unquoted .outside t := if_neg hc

lemma closed_cons (hc : c ≠ '"') (ht : Closed t) : Closed (c :: t) := by
  intro rest
  rw [List.cons_append, unquoted_cons hc, unquoted_cons hc, ht, List.cons_append]

lemma native_cons (hc : c ≠ '"') : Native (c :: t) ↔ ¬Foreign c ∧ Native t := by
  rw [Native, unquoted_cons hc, List.forall_mem_cons]
  rfl

lemma closed_of_not_mem (h : CodePoint.ofChar '"' ∉ t) : Closed t := by
  induction t with
  | nil => exact closed_nil
  | cons c t ih => exact closed_cons (fun hc => h (hc ▸ List.mem_cons_self)) (ih fun ht => h (List.mem_cons_of_mem c ht))

lemma unquoted_body (h : Body t) (rest : Text) :
    unquoted .inside (t ++ CodePoint.ofChar '"' :: rest) = unquoted .outside rest := by
  induction h with
  | nil => rfl
  | plain hc hquote hslash ht ih => rw [List.cons_append, unquoted, if_neg hquote, if_neg hslash, ih]
  | letter hc ht ih => exact ih
  | @digits ds t hlength hds ht ih =>
    have hplain (ds rest : Text) (hds : ∀ d ∈ ds, d.isHexDigit = true) :
        unquoted .inside (ds ++ rest) = unquoted .inside rest := by
      induction ds with
      | nil => rfl
      | cons d ds ih =>
        obtain ⟨hd, hds⟩ := List.forall_mem_cons.mp hds
        have hquote : d ≠ '"' := by rintro rfl; exact absurd hd (by decide)
        have hslash : d ≠ '\\' := by rintro rfl; exact absurd hd (by decide)
        rw [List.cons_append, unquoted, if_neg hquote, if_neg hslash, ih hds]
    show unquoted .inside (ds ++ t ++ CodePoint.ofChar '"' :: rest) = _
    rw [List.append_assoc, hplain _ _ hds, ih]

/-- What tokens other than strings, and blanks between them, are made of. -/
def Mark (c : CodePoint) : Prop := c ≠ '"' ∧ ¬Foreign c

instance : DecidablePred Mark := fun c => inferInstanceAs (Decidable (c ≠ '"' ∧ ¬Foreign c))

instance : DecidablePred fun t : Text => ∀ c ∈ t, Mark c := fun t => List.decidableBAll _ t

/-- Strings end in the text, and nothing else than the grammar knows stands outside of them. -/
structure Sound (t : Text) : Prop where
  closed : Closed t
  native : Native t

namespace Sound

lemma append (ht : Sound t) (hu : Sound u) : Sound (t ++ u) :=
  ⟨ht.closed.append hu.closed, (native_append ht.closed).mpr ⟨ht.native, hu.native⟩⟩

lemma cons (hc : Mark c) (ht : Sound t) : Sound (c :: t) :=
  ⟨closed_cons hc.1 ht.closed, (native_cons hc.1).mpr ⟨hc.2, ht.native⟩⟩

lemma of_marks (h : ∀ c ∈ t, Mark c) : Sound t := by
  induction t with
  | nil => exact ⟨closed_nil, List.forall_mem_nil _⟩
  | cons c t ih => exact cons (h c List.mem_cons_self) (ih fun d hd => h d (List.mem_cons_of_mem c hd))

lemma quoted (h : Quoted t) : Sound t := by
  obtain ⟨h⟩ := h
  have hrest (rest : Text) : unquoted .outside (CodePoint.ofChar '"' :: (_ ++ CodePoint.ofChar '"' :: rest)) =
      unquoted .outside rest := unquoted_body h rest
  refine ⟨fun rest => ?_, ?_⟩
  · rw [hrest [], List.cons_append, List.append_assoc]
    exact hrest rest
  · rw [Native, hrest []]
    exact List.forall_mem_nil _

lemma of_class {p : CodePoint → Bool} (hp : p '"' = false ∧ p 'N' = false ∧ p 'I' = false)
    (h : ∀ c ∈ t, p c = true) : Sound t := by
  refine of_marks fun c hc => ⟨?_, ?_⟩
  · rintro rfl
    exact Bool.noConfusion ((h _ hc).symm.trans hp.1)
  · rintro (rfl | rfl)
    · exact Bool.noConfusion ((h _ hc).symm.trans hp.2.1)
    · exact Bool.noConfusion ((h _ hc).symm.trans hp.2.2)

lemma blank (h : Blank t) : Sound t := of_class (by decide) h

lemma digits (h : ∀ c ∈ t, c.isDigit = true) : Sound t := of_class (by decide) h

lemma fraction (h : Fraction t) : Sound t := by
  rcases h with rfl | ⟨ds, hds, rfl⟩
  · exact of_marks (List.forall_mem_nil _)
  · exact (digits hds.2).cons (by decide)

lemma exponent (h : Exponent t) : Sound t := by
  rcases h with rfl | ⟨e, sign, ds, he, hsign, hds, rfl⟩
  · exact of_marks (List.forall_mem_nil _)
  · have hmark : Mark e := by rcases he with rfl | rfl <;> decide
    have hsigned : Sound sign := by rcases hsign with rfl | rfl | rfl <;> exact of_marks (by decide)
    exact (hsigned.append (digits hds.2)).cons hmark

lemma number (h : Number t) : Sound t := by
  obtain ⟨negative, hwhole, hfraction, hexponent⟩ := h
  have hnumber := (digits hwhole.isDigit).append ((fraction hfraction).append (exponent hexponent))
  cases negative with
  | true => exact hnumber.cons (by decide)
  | false => exact hnumber

end Sound

lemma mark_opening (item : Item) : Mark item.opening := by cases item <;> decide

lemma mark_closing (item : Item) : Mark item.closing := by cases item <;> decide

lemma Sound.between {item : Item} (h : Sound t) : Sound (item.opening :: (t ++ [item.closing])) :=
  (h.append (.of_marks (List.forall_mem_singleton.mpr (mark_closing item)))).cons (mark_opening item)

lemma Derives.sound {form : Form} (h : Derives form t) : Sound t := by
  induction h with
  | word h => rcases h with rfl | rfl | rfl <;> exact .of_marks (by decide)
  | number h => exact .number h
  | string h => exact .quoted h
  | empty h => exact (Sound.blank h).between
  | nested _ ih => exact ih.between
  | member hname hbefore hafter _ ih =>
    exact (Sound.quoted hname).append ((Sound.blank hbefore).append (((Sound.blank hafter).append ih).cons (by decide)))
  | last hbefore _ hafter ih => exact (Sound.blank hbefore).append (ih.append (.blank hafter))
  | more hbefore _ hafter _ ih ihrest =>
    exact (Sound.blank hbefore).append (ih.append ((Sound.blank hafter).append (ihrest.cons (by decide))))

end Unquoted

section Written

variable {t u : Text} {ts : List Text} {item : Item} {xs ys : List Binary64}

/-- A text tells of numbers: it derives from the grammar exactly if they are finite. As its strings end in it, what
stands outside of them does not depend on what is around the text. -/
structure Tells (item : Item) (t : Text) (xs : List Binary64) : Prop where
  closed : Closed t
  finite : Native t → ∀ x ∈ xs, x.IsFinite
  derives : (∀ x ∈ xs, x.IsFinite) → Derives (.one item) t

structure TellsAll (item : Item) (ts : List Text) (xs : List Binary64) : Prop where
  closed : ∀ t ∈ ts, Closed t
  finite : (∀ t ∈ ts, Native t) → ∀ x ∈ xs, x.IsFinite
  derives : (∀ x ∈ xs, x.IsFinite) → ∀ t ∈ ts, Derives (.one item) t

lemma Tells.of_derives (h : Derives (.one item) t) (hfinite : ∀ x ∈ xs, x.IsFinite) : Tells item t xs :=
  ⟨h.sound.closed, fun _ => hfinite, fun _ => h⟩

lemma TellsAll.nil : TellsAll item [] [] :=
  ⟨List.forall_mem_nil _, fun _ => List.forall_mem_nil _, fun _ => List.forall_mem_nil _⟩

lemma TellsAll.cons (h : Tells item t xs) (hs : TellsAll item ts ys) : TellsAll item (t :: ts) (xs ++ ys) := by
  refine ⟨List.forall_mem_cons.mpr ⟨h.closed, hs.closed⟩, fun hnative => ?_, fun hfinite => ?_⟩
  · obtain ⟨ht, hts⟩ := List.forall_mem_cons.mp hnative
    exact List.forall_mem_append.mpr ⟨h.finite ht, hs.finite hts⟩
  · obtain ⟨hxs, hys⟩ := List.forall_mem_append.mp hfinite
    exact List.forall_mem_cons.mpr ⟨h.derives hxs, hs.derives hys⟩

lemma closed_join {sep : Text} (hsep : Closed sep) (h : ∀ t ∈ ts, Closed t) : Closed (Text.join sep ts) := by
  induction ts with
  | nil => exact closed_nil
  | cons t ts ih =>
    obtain ⟨ht, hts⟩ := List.forall_mem_cons.mp h
    cases ts with
    | nil => exact ht
    | cons u ts =>
      rw [join_cons_cons]
      exact ht.append (hsep.append (ih hts))

lemma native_join {sep : Text} (hsep : Sound sep) (h : ∀ t ∈ ts, Closed t) :
    Native (Text.join sep ts) ↔ ∀ t ∈ ts, Native t := by
  induction ts with
  | nil => exact iff_of_true (List.forall_mem_nil _) (List.forall_mem_nil _)
  | cons t ts ih =>
    obtain ⟨ht, hts⟩ := List.forall_mem_cons.mp h
    cases ts with
    | nil => exact List.forall_mem_singleton.symm
    | cons u ts =>
      rw [join_cons_cons, native_append ht, native_append hsep.closed, ih hts, List.forall_mem_cons (a := t),
        and_iff_right hsep.native]

lemma derives_join {lead sep trail : Text} (hlead : Blank lead) (hsep : Blank sep) (htrail : Blank trail)
    (hne : ts ≠ []) (h : ∀ t ∈ ts, Derives (.one item) t) :
    Derives (.many item) (lead ++ (Text.join (CodePoint.ofChar ',' :: sep) ts ++ trail)) := by
  induction ts generalizing lead with
  | nil => exact absurd rfl hne
  | cons t ts ih =>
    obtain ⟨ht, hts⟩ := List.forall_mem_cons.mp h
    cases ts with
    | nil => exact .last hlead ht htrail
    | cons u ts =>
      rw [join_cons_cons, List.append_assoc, List.cons_append, List.cons_append, List.append_assoc]
      exact .more hlead ht (List.forall_mem_nil _) (ih hsep (List.cons_ne_nil u ts) hts)

/-- Items between brackets tell what the items tell. -/
lemma TellsAll.bracketed (style : Style) (level : Nat) (h : TellsAll item ts xs) :
    Tells .value (Json.bracketed style level item.opening item.closing ts) xs := by
  by_cases hne : ts = []
  · subst hne
    exact .of_derives (.empty (List.forall_mem_nil _)) (h.finite (List.forall_mem_nil _))
  obtain ⟨lead, sep, trail, hlead, hsep, htrail, heq⟩ := bracketed_eq style level item.opening item.closing hne
  have hcomma : Sound (CodePoint.ofChar ',' :: sep) := (Sound.blank hsep).cons (by decide)
  have hjoin := closed_join hcomma.closed h.closed
  have hend := (Sound.blank htrail).append (.of_marks (List.forall_mem_singleton.mpr (mark_closing item)))
  rw [heq]
  refine ⟨?_, fun hnative => ?_, fun hfinite => ?_⟩
  · exact closed_cons (mark_opening item).1 ((Sound.blank hlead).closed.append (hjoin.append hend.closed))
  · rw [native_cons (mark_opening item).1, native_append (Sound.blank hlead).closed, native_append hjoin,
      native_join hcomma h.closed] at hnative
    exact h.finite hnative.2.2.1
  · have hitems := derives_join hlead hsep htrail hne (h.derives hfinite)
    rw [← List.append_assoc, ← List.append_assoc, List.append_assoc lead]
    exact .nested hitems

section Tokens

lemma body_escaped (c : CodePoint) (h : Body t) : Body (escaped c ++ t) := by
  unfold escaped
  split_ifs with h1 h2 h3 h4 h5 h6 h7 h8
  iterate 7 exact .letter (by decide) h
  · obtain ⟨a, b, d, e, hhex⟩ := hex_eq c.val h8
    exact .digits (by rw [hhex]; rfl) (Text.isHexDigit_hex 4 c.val) h
  · exact .plain (Nat.le_of_not_lt h8) h1 h2 h

lemma quoted_quote (t : Text) : Quoted (quote t) := by
  have hbody : Body (t.flatMap escaped) := by
    induction t with
    | nil => exact .nil
    | cons c t ih => exact body_escaped c ih
  have hquote := quote_append t []
  rw [List.append_nil] at hquote
  exact hquote ▸ .mk hbody

lemma number_integer {i : Int} (h : writeInteger i = .ok t) : Number t := by
  have hnumber := Number.mk (decide (i < 0)) (isWhole_ofNat i.natAbs) (.inl rfl) (.inl rfl)
  rw [List.append_nil, List.append_nil] at hnumber
  exact writeInteger_eq h ▸ hnumber

lemma exponent_exponentText (e : Int) : Exponent (Binary64.exponentText e) := by
  have hdigits : Digits (Text.ofNatPadded 2 e.natAbs) := ⟨ofNatPadded_ne_nil 2 _, ofNatPadded_isDigit 2 _⟩
  refine .inr ⟨'e', [if e < 0 then '-' else '+'], _, .inl rfl, ?_, hdigits, rfl⟩
  split_ifs
  · exact .inr (.inr rfl)
  · exact .inr (.inl rfl)

lemma number_spelling {s : Spelling} (hd : s.Digital) (hs : s.Strict) (negative : Bool) :
    Number (signedText negative s.text) := by
  refine .mk negative ⟨hd.whole_ne_nil, hd.whole, hs.whole⟩ ?_ ?_
  · cases hf : s.fraction with
    | none => exact .inl rfl
    | some f => exact .inr ⟨f, ⟨fun h => hs.fraction (h ▸ hf), hd.fraction f hf⟩, rfl⟩
  · cases he : s.exponent with
    | none => exact .inl rfl
    | some e => exact exponent_exponentText e

/-- The words of NaN and the infinities are not in the grammar. -/
lemma tells_float (x : Binary64) : Tells .value (x.layout floatLayout) [x] := by
  have hforeign {t : Text} (hquote : CodePoint.ofChar '"' ∉ t) (hword : ¬Native t) (hx : ¬x.IsFinite) :
      Tells .value t [x] :=
    ⟨closed_of_not_mem hquote, fun h => absurd h hword, fun h => absurd (h x List.mem_cons_self) hx⟩
  cases hx : x.shape with
  | notANumber =>
    have hinfinite : ¬x.IsFinite := by simp [Binary64.IsFinite, hx]
    rw [Binary64.layout, hx]
    exact hforeign (by decide) (by decide) hinfinite
  | infinite negative =>
    have hinfinite : ¬x.IsFinite := by simp [Binary64.IsFinite, hx]
    rw [Binary64.layout, hx]
    cases negative <;> exact hforeign (by decide) (by decide) hinfinite
  | finite negative m q =>
    obtain ⟨s, hd, hs, -, ht⟩ := Binary64.layout_strict hx floatLayout rfl
    rw [ht]
    exact .of_derives (.number (number_spelling hd hs negative)) (List.forall_mem_singleton.mpr ⟨negative, m, q, hx⟩)

lemma Tells.of_token (h : Derives (.one item) t) : Tells item t [] := .of_derives h (List.forall_mem_nil _)

lemma tells_scalar {style : Style} {level : Nat} {s : Scalar} (h : writeAt style level (.scalar s) = .ok t) :
    Tells .value t (Value.scalar s).floats := by
  cases s with
  | bool b =>
    obtain rfl := Except.ok.inj h
    exact .of_token (.word (by cases b <;> simp))
  | int i => exact .of_token (.number (number_integer (mapError_eq_ok h)))
  | float x =>
    obtain rfl := Except.ok.inj h
    exact tells_float x
  | text u =>
    obtain rfl := Except.ok.inj h
    exact .of_token (.string (quoted_quote u))
  | _ => cases h

lemma Tells.member (name : Text) (h : Tells .value t xs) : Tells .member (.concat [quote name, ": ", t]) xs := by
  have hname := Sound.quoted (quoted_quote name)
  have hcolon : Sound (Text.ofString ": ") := .of_marks (by decide)
  have heq : Text.concat [quote name, ": ", t] = quote name ++ (Text.ofString ": " ++ t) := by simp [Text.concat]
  rw [heq]
  refine ⟨hname.closed.append (hcolon.closed.append h.closed), fun hnative => ?_, fun hfinite => ?_⟩
  · rw [native_append hname.closed, native_append hcolon.closed] at hnative
    exact h.finite hnative.2.2
  · have hblank : Blank [] := List.forall_mem_nil _
    have hspace : Blank [CodePoint.ofChar ' '] := List.forall_mem_singleton.mpr rfl
    exact .member (quoted_quote name) hblank hspace (h.derives hfinite)

end Tokens

mutual

/-- What is written for a value tells of the numbers in it. -/
theorem tells_writeAt {style : Style} {level : Nat} {t : Text} : (v : Value) →
    writeAt style level v = .ok t → Tells .value t v.floats
  | .null, h => by
    obtain rfl := Except.ok.inj h
    exact .of_token (.word (.inl rfl))
  | .scalar s, h => tells_scalar h
  | .list vs, h | .tuple vs, h => by
    obtain ⟨ts, hts, h⟩ := bind_eq_ok h
    exact Except.ok.inj h ▸ (tells_writeItems vs hts).bracketed style level
  | .map _ es, h => by
    obtain ⟨ts, hts, h⟩ := bind_eq_ok h
    exact Except.ok.inj h ▸ (tells_writeMembers es hts).bracketed style level
  | .anchor _ v, h => tells_writeAt v h
  | .range .., h | .sequence .., h | .set .., h | .alias _, h => nomatch h

theorem tells_writeItems {style : Style} {level : Nat} {ts : List Text} : (vs : List Value) →
    writeItems style level vs = .ok ts → TellsAll .value ts (Value.floatsAll vs)
  | [], h => by
    obtain rfl := Except.ok.inj h
    exact .nil
  | v :: vs, h => by
    obtain ⟨t, ht, h⟩ := bind_eq_ok h
    obtain ⟨us, hus, h⟩ := bind_eq_ok h
    exact Except.ok.inj h ▸ .cons (tells_writeAt v ht) (tells_writeItems vs hus)

theorem tells_writeMembers {style : Style} {level : Nat} {ts : List Text} : (es : List (Value × Value)) →
    writeMembers style level es = .ok ts → TellsAll .member ts (Value.floatsEntries es)
  | [], h => by
    obtain rfl := Except.ok.inj h
    exact .nil
  | (k, v) :: es, h => by
    obtain ⟨key, hkey, h⟩ := bind_eq_ok h
    obtain ⟨t, ht, h⟩ := bind_eq_ok h
    obtain ⟨us, hus, h⟩ := bind_eq_ok h
    exact Except.ok.inj h ▸ .cons ((tells_writeAt v ht).member key) (tells_writeMembers es hus)

end

end Written

end Standard

/-- A whole text of the standard grammar: a value with white space around it. -/
def IsStandard (t : Text) : Prop :=
  ∃ before value after, Standard.Blank before ∧ Standard.Derives (.one .value) value ∧ Standard.Blank after ∧
    t = before ++ (value ++ after)

lemma IsStandard.native {t : Text} (h : IsStandard t) : Standard.Native t := by
  obtain ⟨before, value, after, hbefore, hvalue, hafter, rfl⟩ := h
  exact ((Standard.Sound.blank hbefore).append (hvalue.sound.append (.blank hafter))).native

/-- A text that is written is a text of the standard exactly if all numbers in the value are finite. -/
theorem isStandard_write_iff {style : Style} {v : Value} {t : Text} (h : write style v = .ok t) :
    IsStandard t ↔ ∀ x ∈ v.floats, x.IsFinite := by
  have htells := Standard.tells_writeAt v h
  refine ⟨fun ht => htells.finite ht.native, fun hfinite => ?_⟩
  exact ⟨[], t, [], List.forall_mem_nil _, htells.derives hfinite, List.forall_mem_nil _, (List.append_nil t).symm⟩

end Json

end DocPath
