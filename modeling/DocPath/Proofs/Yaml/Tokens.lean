import DocPath.Proofs.Yaml.Key

/-! The tokens of what is written: the scanner comes through the text of every tree, unless a key is too long
for it. -/

namespace DocPath.Yaml

open Layout

/-- The escapes and other code points of a text between double quotation marks. -/
def escaped (t : Text) : Text := t.flatMap fun c => if isDoublePlain c then [c] else doubleEscape c

/-- What is written for a key without a sign is not too long to be read. Escapes may take up to ten code
points where the writer counts one. -/
def KeyFits (tag t : Text) : Prop :=
  isShortKey tag t = true → style true tag t = .double → (escaped t).length + 2 ≤ Scan.keyLimit

mutual

/-- All keys are read. -/
def Fits : Tree → Prop
  | .sequence ts => FitsAll ts
  | .mapping _ es => FitsEntries es
  | _ => True

def FitsAll : List Tree → Prop
  | [] => True
  | t :: ts => Fits t ∧ FitsAll ts

def FitsEntries : List (Tree × Tree) → Prop
  | [] => True
  | (.scalar tag t, v) :: es => KeyFits tag t ∧ Fits v ∧ FitsEntries es
  | (_, v) :: es => Fits v ∧ FitsEntries es

end

mutual

/-- The tokens of a node behind its sign. -/
def nodeKinds (indent : Nat) (fresh : Bool) : Tree → List TokenKind
  | .scalar tag t => [.scalar (heard true (indent + indentStep) tag t) (style false tag t = .plain)]
  | .sequence ts =>
    if ts.isEmpty then [.flowSequenceStart, .flowSequenceEnd]
    else if fresh then .blockSequenceStart :: (itemsKinds (indent + indentStep) ts ++ [.blockEnd])
    else itemsKinds indent ts
  | .mapping _ es =>
    if es.isEmpty then [.flowMappingStart, .flowMappingEnd]
    else .blockMappingStart :: (entriesKinds (indent + indentStep) es ++ [.blockEnd])
  | _ => []

def itemsKinds (indent : Nat) : List Tree → List TokenKind
  | [] => []
  | t :: ts => .blockEntry :: (nodeKinds indent true t ++ itemsKinds indent ts)

def entriesKinds (indent : Nat) : List (Tree × Tree) → List TokenKind
  | [] => []
  | (.scalar tag t, v) :: es =>
    .key :: .scalar (heard (!isShortKey tag t) (indent + indentStep) tag t)
        (style (isShortKey tag t) tag t = .plain) :: .value ::
      (nodeKinds indent (!isShortKey tag t) v ++ entriesKinds indent es)
  | _ :: _ => []

end

mutual

lemma streamEnd_notMem_node (t : Tree) (indent : Nat) (fresh : Bool) :
    .streamEnd ∉ nodeKinds indent fresh t := by
  cases t with
  | sequence ts =>
    have h := streamEnd_notMem_items ts
    rw [nodeKinds]
    split_ifs <;> simp [h]
  | mapping tag es =>
    have h := streamEnd_notMem_entries es
    rw [nodeKinds]
    split_ifs <;> simp [h]
  | _ => simp [nodeKinds]

lemma streamEnd_notMem_items (ts : List Tree) (indent : Nat) : .streamEnd ∉ itemsKinds indent ts := by
  cases ts with
  | nil => simp [itemsKinds]
  | cons t ts =>
    have h := streamEnd_notMem_node t indent true
    have h' := streamEnd_notMem_items ts indent
    simp [itemsKinds, h, h']

lemma streamEnd_notMem_entries (es : List (Tree × Tree)) (indent : Nat) :
    .streamEnd ∉ entriesKinds indent es := by
  match es with
  | [] => simp [entriesKinds]
  | (k, v) :: es =>
    have h (fresh : Bool) := streamEnd_notMem_node v indent fresh
    have h' := streamEnd_notMem_entries es indent
    cases k with
    | scalar tag t => simp [entriesKinds, h, h']
    | _ => simp [entriesKinds]

end

section Length

variable {inner : Nat} {before : Option CodePoint} {begun : Bool} {t w : Text}

lemma eq_of_plainBody (h : PlainBody false inner before t w) : w = t := by
  induction h with
  | nil => rfl
  | put h ih => rw [ih]
  | fold hs => cases hs

/-- At most two code points are written for one. -/
lemma length_singleBody (h : SingleBody false inner before t w) (hm : isMultiline t = false) :
    w.length ≤ 2 * t.length := by
  induction h with
  | nil => exact Nat.zero_le _
  | put hb hq h ih =>
    rw [isMultiline, List.any_cons, Bool.or_eq_false_iff] at hm
    have := ih hm.2
    simp only [List.length_cons]
    omega
  | quote h ih =>
    rw [isMultiline, List.any_cons, Bool.or_eq_false_iff] at hm
    have := ih hm.2
    simp only [List.length_cons]
    omega
  | fold hs => cases hs
  | breaks hb =>
    rw [isMultiline, List.any_cons, hb] at hm
    cases hm

lemma eq_of_doubleBody (h : DoubleBody false inner begun held t w) : w = escaped t := by
  induction h with
  | nil => rfl
  | plain hc hh h ih => simp [escaped, hc, ih]
  | breakPlain hs => cases hs
  | special hc hb h ih => simp [escaped, hc, ih]
  | breakSpecial hs => cases hs

/-- The length of a key without a sign. -/
lemma length_key_le {tag key : Text} (hshort : isShortKey tag t = true)
    (hw : ScalarBody false inner tag t key) : key.length ≤ Scan.keyLimit ↔ KeyFits tag t := by
  have hm := (isMultiline_of_short hshort).2
  have hlen : t.length ≤ keyLimit := by
    rw [isShortKey, keyLength?] at hshort
    split_ifs at hshort
    · simp at hshort
    · simp only [Option.any_some, decide_eq_true_eq] at hshort
      omega
  unfold ScalarBody at hw
  unfold KeyFits
  simp only [hshort, forall_const]
  rw [Bool.not_false] at hw
  cases hs : style true tag t with
  | plain =>
    rw [hs] at hw
    rw [eq_of_plainBody hw]
    simp only [reduceCtorEq, false_implies, iff_true, Scan.keyLimit]
    rw [keyLimit] at hlen
    omega
  | single =>
    rw [hs] at hw
    obtain ⟨b, hb, rfl⟩ := hw
    have := length_singleBody hb hm
    simp only [reduceCtorEq, false_implies, iff_true, Scan.keyLimit, List.length_cons, List.length_append,
      List.length_nil]
    rw [keyLimit] at hlen
    omega
  | double =>
    rw [hs] at hw
    obtain ⟨b, hb, rfl⟩ := hw
    rw [eq_of_doubleBody hb]
    simp only [List.length_cons, List.length_append, List.length_nil, forall_const]

end Length

section Heads

variable {indent : Nat} {fresh : Bool} {t : Tree} {ts : List Tree} {e : Tree × Tree} {es : List (Tree × Tree)}
  {a k x : Text}

/-- A node is not joined to the sign in front of it. -/
lemma isSpace_head_node (h : NodeText indent fresh t a) : isSpaceOrEnd ((a ++ k).headD CodePoint.nul) = true := by
  have hblank (b : Text) : isSpaceOrEnd ((CodePoint.ofChar ' ' :: b ++ k).headD CodePoint.nul) = true := by
    rw [List.cons_append, List.headD_cons]
    decide
  have hline (n : Nat) (b : Text) : isSpaceOrEnd ((newLine n ++ b ++ k).headD CodePoint.nul) = true := by
    rw [List.append_assoc]
    exact Token.isSpaceOrEnd_newLine n (b ++ k)
  cases t with
  | scalar tag t =>
    obtain ⟨b, -, rfl⟩ := h
    exact hblank b
  | sequence ts =>
    cases ts with
    | nil =>
      obtain rfl : a = _ := h
      exact hblank _
    | cons t ts =>
      cases fresh with
      | true =>
        obtain ⟨b, -, rfl⟩ := h
        exact hblank b
      | false =>
        obtain ⟨c, more, -, -, rfl⟩ := h
        exact hline _ _
  | mapping tag es =>
    cases es with
    | nil =>
      obtain rfl : a = _ := h
      exact hblank _
    | cons e es =>
      cases fresh with
      | true =>
        obtain ⟨b, -, rfl⟩ := h
        exact hblank b
      | false =>
        obtain ⟨k, v⟩ := e
        cases k with
        | scalar tag t =>
          obtain ⟨key, c, more, -, -, -, rfl⟩ := h
          exact hline _ _
        | _ => exact absurd h id
  | literal tag lines => exact absurd h id
  | shared l t => exact absurd h id

lemma starts_sign {d : CodePoint} (h : Scan.Starts [d]) (k : Text) : Scan.Starts (d :: k) := h

lemma items_newLine (hne : ts ≠ []) (h : ItemsText indent ts a) : ∃ x, a = newLine indent ++ x := by
  cases ts with
  | nil => exact absurd rfl hne
  | cons t ts =>
    obtain ⟨b, more, -, -, rfl⟩ := h
    exact ⟨_, rfl⟩

lemma entries_newLine (ho : OrdinaryEntries es) (hne : es ≠ []) (h : EntriesText indent es a) :
    ∃ x, a = newLine indent ++ x := by
  match es, ho, hne with
  | [], _, hne => exact absurd rfl hne
  | (k, v) :: es, ho, _ =>
    obtain ⟨⟨tag, t, rfl, -⟩, -⟩ := ho
    obtain ⟨key, b, more, -, -, -, rfl⟩ := h
    exact ⟨_, rfl⟩

lemma starts_items (hne : ts ≠ []) (h : ItemsText indent ts (newLine indent ++ x)) (k : Text) :
    Scan.Starts (x ++ k) := by
  cases ts with
  | nil => exact absurd rfl hne
  | cons t ts =>
    obtain ⟨a, more, -, -, hx⟩ := h
    rw [List.append_cancel_left hx]
    exact starts_sign (by simp [Scan.Starts]; decide) _

/-- A line of a mapping begins with a key or its sign. -/
lemma starts_entries (ho : OrdinaryEntries es) (hne : es ≠ []) (h : EntriesText indent es (newLine indent ++ x))
    (k : Text) : Scan.Starts (x ++ k) := by
  match es, ho, hne with
  | [], _, hne => exact absurd rfl hne
  | (key, v) :: es, ho, _ =>
    obtain ⟨⟨tag, t, rfl, hordinary⟩, -⟩ := ho
    obtain ⟨key, a, more, hkey, -, -, hx⟩ := h
    rw [List.append_cancel_left hx]
    cases hs : isShortKey tag t with
    | true =>
      rw [keyText, if_pos rfl, List.append_assoc]
      exact (Scan.scalar_cons hkey (fun hp => ne_nil_of_plain hordinary hp) _).choose_spec.choose_spec.2
    | false => exact starts_sign (by simp [Scan.Starts]; decide) _

end Heads

namespace Scan

/-- A scan comes to a view exactly if a condition holds; else it does not come to the end of the text. -/
structure Comes (s : Scan) (fits : Prop) (v : View) : Prop where
  here : fits → ∃ u, Leads s u ∧ Here u v
  fails : ¬fits → .streamEnd ∉ v.kinds → Fails s

variable {s t : Scan} {v w : View} {p q : Prop}

lemma Comes.of_leads (h : Leads s t) (ht : Comes t p v) : Comes s p v where
  here hp := by
    obtain ⟨u, hu, hv⟩ := ht.here hp
    exact ⟨u, h.trans hu, hv⟩
  fails hp hv := h.fails (ht.fails hp hv)

lemma Comes.of_here (h : ∃ u, Leads s u ∧ Here u v) : Comes s True v where
  here _ := h
  fails hp := absurd trivial hp

lemma Comes.trans (h : Comes s p v) (hn : ∀ u, Here u v → Comes u q w) (hsub : v.kinds ⊆ w.kinds) :
    Comes s (p ∧ q) w where
  here hpq := by
    obtain ⟨u, hu, hv⟩ := h.here hpq.1
    obtain ⟨u', hu', hw⟩ := (hn u hv).here hpq.2
    exact ⟨u', hu.trans hu', hw⟩
  fails hpq hw := by
    by_cases hp : p
    · obtain ⟨u, hu, hv⟩ := h.here hp
      exact hu.fails ((hn u hv).fails (fun hq => hpq ⟨hp, hq⟩) hw)
    · exact h.fails hp fun hv => hw (hsub hv)

lemma Comes.of_imp (h : p → ∃ u, Leads s u ∧ Comes u q w) (hf : ¬p → .streamEnd ∉ w.kinds → Fails s) :
    Comes s (p ∧ q) w where
  here hpq := by
    obtain ⟨u, hsu, hu⟩ := h hpq.1
    exact (Comes.of_leads hsu hu).here hpq.2
  fails hpq hw := by
    by_cases hp : p
    · obtain ⟨u, hsu, hu⟩ := h hp
      exact (Comes.of_leads hsu hu).fails (fun hq => hpq ⟨hp, hq⟩) hw
    · exact hf hp hw

lemma subset_settle {rest : Text} {column : Nat} {ka : Bool} {is : List Int} {kinds more : List TokenKind} :
    kinds ⊆ (View.settle ⟨rest, column, ka, is, kinds ++ more⟩).kinds :=
  List.Subset.trans (List.subset_append_left _ _) (List.subset_append_left _ _)

section Nodes

variable {column indent j : Nat} {ka : Bool} {is : List Int} {kinds : List TokenKind} {r x a : Text}

/-- A block collection ends in front of a line that is indented less. -/
lemma settle_block {n : Nat} (start : TokenKind) (inner : List TokenKind) (h : j < n) :
    View.settle ⟨r, j, true, (n : Int) :: is, kinds ++ [start] ++ inner⟩ =
      View.settle ⟨r, j, true, is, kinds ++ (start :: (inner ++ [.blockEnd]))⟩ := by
  rw [View.settle_close (Int.ofNat_lt.mpr h)]
  simp

lemma opened_inner (start : TokenKind) :
    View.opened ⟨r, indent + indentStep, ka, (indent : Int) :: is, kinds⟩ start =
      ⟨r, indent + indentStep, ka, ((indent + indentStep : Nat) : Int) :: (indent : Int) :: is,
        kinds ++ [start]⟩ :=
  View.opened_of_lt (by show (indent : Int) < ((indent + indentStep : Nat) : Int); rw [indentStep]; omega)

lemma opened_again (start : TokenKind) :
    View.opened ⟨r, indent, ka, (indent : Int) :: is, kinds⟩ start = ⟨r, indent, ka, (indent : Int) :: is, kinds⟩ :=
  View.opened_eq_self (by show ¬((indent : Int) < (indent : Int)); omega)

lemma head_le_of_opened {v w : View} {start : TokenKind} (h : v.opened start = w)
    (hw : w.indents = (w.column : Int) :: is) : v.indents.headD (-1) ≤ v.column := by
  by_cases hlt : v.indents.headD (-1) < v.column
  · exact le_of_lt hlt
  · rw [View.opened_eq_self hlt] at h
    subst h
    rw [hw]
    exact le_refl _

lemma kinds_of_opened {v w : View} {start : TokenKind} (h : v.opened start = w) : v.kinds ⊆ w.kinds := by
  rw [← h, View.opened]
  split_ifs
  · exact List.subset_append_left _ _
  · exact List.Subset.refl _

lemma Shows.here_blank (hs : s.Shows ⟨CodePoint.ofChar ' ' :: x, column, ka, (indent : Int) :: is, kinds⟩)
    (hx : Starts x) (hv : -1 ∈ (indent : Int) :: is) (hcol : indent < column) :
    Here s ⟨x, column + 1, ka, (indent : Int) :: is, kinds⟩ := by
  have h := hs.here_blanks (n := 1) hx hv
  rwa [View.settle_eq_self rfl (by show (indent : Int) ≤ ((column + 1 : Nat) : Int); omega)] at h

lemma Shows.here_line {n : Nat} (hs : s.Shows ⟨newLine n ++ x, column, ka, (indent : Int) :: is, kinds⟩)
    (hx : Starts x) (hv : -1 ∈ (indent : Int) :: is) (hn : indent ≤ n) :
    Here s ⟨x, n, true, (indent : Int) :: is, kinds⟩ := by
  have hbehind : Behind s 0 (newLine n ++ x) ((indent : Int) :: is) kinds :=
    ⟨hs.rest, hs.flow, hs.indents, by simp [hs.keys], hs.count, hs.kinds⟩
  have h := hbehind.here hx hv
  rwa [View.settle_eq_self rfl (by show (indent : Int) ≤ (n : Int); omega)] at h

/-- The tokens of a key and its colon, if it is not too long. -/
lemma key_scan {tag t key : Text} {v : View} (h : Here s v) (ho : IsOrdinary tag t)
    (hw : ScalarBody (!isShortKey tag t) (indent + indentStep) tag t key)
    (hopen : v.opened .blockMappingStart =
      ⟨keyText indent (isShortKey tag t) key ++ CodePoint.ofChar ':' :: x, indent, true,
        (indent : Int) :: is, kinds⟩)
    (hv : -1 ∈ (indent : Int) :: is) (hspace : isSpaceOrEnd (x.headD CodePoint.nul) = true) :
    (KeyFits tag t → ∃ u column, Leads s u ∧ indent < column ∧
      ((!isShortKey tag t) = true → column = indent + 1 ∧ (!isShortKey tag t) = true) ∧
      u.Shows ⟨x, column, !isShortKey tag t, (indent : Int) :: is, kinds ++
        [.key, .scalar (heard (!isShortKey tag t) (indent + indentStep) tag t)
          (style (isShortKey tag t) tag t = .plain), .value]⟩) ∧
    (¬KeyFits tag t → .streamEnd ∉ kinds → Fails s) := by
  have hrest : v.rest = _ := (View.opened_rest v _).symm.trans (congrArg View.rest hopen)
  have hcolumn : v.column = indent := (View.opened_column v _).symm.trans (congrArg View.column hopen)
  have hka : v.keyAllowed = true := (View.opened_keyAllowed v _).symm.trans (congrArg View.keyAllowed hopen)
  have hin : v.indents.headD (-1) ≤ v.column := head_le_of_opened hopen rfl
  -- a short key is known by the colon behind it, any other is announced by a question mark
  cases hshort : isShortKey tag t with
  | true =>
    rw [hshort] at hw hrest
    have hrest : v.rest = key ++ CodePoint.ofChar ':' :: x := hrest
    obtain ⟨hne, hm⟩ := isMultiline_of_short hshort
    have hinner : v.column < indent + indentStep := by rw [hcolumn, indentStep]; omega
    rw [Bool.not_true] at hw ⊢
    rw [← length_key_le hshort hw, heard_of_not_multiline hm]
    refine ⟨fun hlen => ?_, fun hlen hend => ?_⟩
    · obtain ⟨u, hsu, hu⟩ := h.shortKey hne hm hw hrest hspace hka hin hinner hlen
      rw [hopen] at hu
      refine ⟨u, _, hsu, ?_, fun h => absurd h (by decide), hu⟩
      omega
    · exact h.longKey hne hm hw hrest hspace hka hin hinner (not_le.mp hlen)
        fun hmem => hend (by simpa [hopen] using kinds_of_opened hopen hmem)
  | false =>
    rw [hshort] at hw hrest
    have hrest : v.rest = CodePoint.ofChar '?' :: CodePoint.ofChar ' ' ::
        (key ++ (newLine indent ++ CodePoint.ofChar ':' :: x)) := by simp [hrest, keyText]
    refine ⟨fun _ => ?_, fun hfits => absurd (fun h => by rw [hshort] at h; cases h) hfits⟩
    obtain ⟨u, hsu, hu⟩ := h.question hrest (by rw [List.headD_cons]; decide) hka
    rw [View.behindSign, hopen, hcolumn] at hu
    have hbody := (scalar_cons hw (fun hp => ne_nil_of_plain ho hp)
      (newLine indent ++ CodePoint.ofChar ':' :: x)).choose_spec.choose_spec.2
    have hkey := hu.here_blank hbody hv (Nat.lt_succ_self _)
    obtain ⟨c, huc, hc⟩ := hkey.scalar ho hw rfl
      (by show (indent : Int) < ((indent + 1 + 1 : Nat) : Int); omega) (by show (indent : Int) ≤ indent; omega)
      (by show (indent : Int) < ((indent + indentStep : Nat) : Int); rw [indentStep]; omega) (Nat.succ_pos _)
      (starts_sign (by simp [Starts]; decide) x) hv
    rw [View.settle_eq_self rfl (le_refl _)] at hc
    obtain ⟨w, hcw, hw⟩ := hc.colon rfl hspace rfl
    rw [View.behindSign, opened_again] at hw
    refine ⟨w, indent + 1, (hsu.trans huc).trans hcw, Nat.lt_succ_self _, fun _ => ⟨rfl, rfl⟩, ?_⟩
    simpa using hw

lemma dash_scan {v : View} (h : Here s v)
    (hopen : v.opened .blockSequenceStart = ⟨CodePoint.ofChar '-' :: x, indent, true, (indent : Int) :: is, kinds⟩)
    (hspace : isSpaceOrEnd (x.headD CodePoint.nul) = true) :
    ∃ u, Leads s u ∧ u.Shows ⟨x, indent + 1, true, (indent : Int) :: is, kinds ++ [.blockEntry]⟩ := by
  have hrest : v.rest = CodePoint.ofChar '-' :: x := (View.opened_rest v _).symm.trans (congrArg View.rest hopen)
  have hcolumn : v.column = indent := (View.opened_column v _).symm.trans (congrArg View.column hopen)
  have hka : v.keyAllowed = true := (View.opened_keyAllowed v _).symm.trans (congrArg View.keyAllowed hopen)
  obtain ⟨u, hsu, hu⟩ := h.dash hrest hspace hka
  rw [View.behindSign, hopen, hcolumn] at hu
  exact ⟨u, hsu, hu⟩

mutual

/-- The tokens of a node, up to the line behind it. -/
theorem node_scan (t : Tree) (ht : Ordinary t) {indent : Nat} {fresh : Bool} {a : Text}
    (hw : NodeText indent fresh t a) {s : Scan} {column : Nat} {ka : Bool} {is : List Int} {kinds : List TokenKind} {j : Nat} {r : Text}
    (hs : s.Shows ⟨a ++ (newLine j ++ r), column, ka, (indent : Int) :: is, kinds⟩)
    (hv : -1 ∈ (indent : Int) :: is) (hcol : indent < column)
    (hfresh : fresh = true → column = indent + 1 ∧ ka = true) (hj : j ≤ indent) (hr : Starts r) :
    Comes s (Fits t) (View.settle ⟨r, j, true, (indent : Int) :: is, kinds ++ nodeKinds indent fresh t⟩) := by
  cases t with
  | scalar tag t =>
    obtain ⟨b, hb, rfl⟩ := hw
    obtain ⟨d, w, -, hstarts⟩ := scalar_cons hb (fun hp => ne_nil_of_plain ht hp) (newLine j ++ r)
    have h := hs.here_blank hstarts hv hcol
    have hin : (indent : Int) < ((column + 1 : Nat) : Int) := by omega
    have hinner : (indent : Int) < ((indent + indentStep : Nat) : Int) := by rw [indentStep]; omega
    exact .of_here (h.scalar ht hb rfl hin (by simpa using hj) hinner (Nat.succ_pos _) hr hv)
  | sequence ts =>
    cases ts with
    | nil =>
      obtain rfl : a = _ := hw
      have h := hs.here_blank (x := Text.ofString "[]" ++ (newLine j ++ r)) (by simp [Starts, Text.ofString]; decide) hv hcol
      exact .of_here (h.emptySequence rfl (by show (indent : Int) < ((column + 1 : Nat) : Int); omega) hr hv)
    | cons t ts =>
      -- on the line of its sign a sequence opens a column, else it stands in that of the mapping around it
      cases fresh with
      | true =>
        obtain ⟨b, hb, rfl⟩ := hw
        obtain ⟨rfl, rfl⟩ := hfresh rfl
        have h := hs.here_blank (starts_items (List.cons_ne_nil _ _) hb (newLine j ++ r)) hv hcol
        have hitems := items_scan (t :: ts) ht (List.cons_ne_nil _ _) hb h (opened_inner _) (List.mem_cons_of_mem _ hv)
          (hj.trans (Nat.le_add_right _ _)) hr
        rwa [settle_block _ _ (Nat.lt_of_le_of_lt hj (Nat.lt_add_of_pos_right (by decide)))] at hitems
      | false =>
        obtain ⟨x, rfl⟩ := items_newLine (List.cons_ne_nil _ _) hw
        rw [List.append_assoc] at hs
        have h := hs.here_line (starts_items (List.cons_ne_nil _ _) hw (newLine j ++ r)) hv (le_refl _)
        exact items_scan (t :: ts) ht (List.cons_ne_nil _ _) hw h (opened_again _) hv hj hr
  | mapping tag es =>
    obtain ⟨rfl, ht⟩ := ht
    cases es with
    | nil =>
      obtain rfl : a = _ := hw
      have h := hs.here_blank (x := Text.ofString "\x7b\x7d" ++ (newLine j ++ r))
        (by simp [Starts, Text.ofString]; decide) hv hcol
      exact .of_here (h.emptyMapping rfl (by show (indent : Int) < ((column + 1 : Nat) : Int); omega) hr hv)
    | cons e es =>
      have hdeeper := Nat.lt_of_le_of_lt hj (Nat.lt_add_of_pos_right (by decide : 0 < indentStep))
      cases fresh with
      | true =>
        obtain ⟨b, hb, rfl⟩ := hw
        obtain ⟨rfl, rfl⟩ := hfresh rfl
        have h := hs.here_blank (starts_entries ht (List.cons_ne_nil _ _) hb (newLine j ++ r)) hv hcol
        have hentries := entries_scan (e :: es) ht (List.cons_ne_nil _ _) hb h (opened_inner _) (List.mem_cons_of_mem _ hv)
          (le_of_lt hdeeper) hr
        rwa [settle_block _ _ hdeeper] at hentries
      | false =>
        obtain ⟨x, rfl⟩ := entries_newLine ht (List.cons_ne_nil _ _) hw
        rw [List.append_assoc] at hs
        have h := hs.here_line (starts_entries ht (List.cons_ne_nil _ _) hw (newLine j ++ r)) hv (Nat.le_add_right _ _)
        have hentries := entries_scan (e :: es) ht (List.cons_ne_nil _ _) hw h (opened_inner _) (List.mem_cons_of_mem _ hv)
          (le_of_lt hdeeper) hr
        rwa [settle_block _ _ hdeeper] at hentries
  | literal tag lines => exact absurd ht id
  | shared l t => exact absurd ht id

/-- The tokens of items, the first of which may begin the sequence. -/
theorem items_scan (ts : List Tree) (ht : OrdinaryAll ts) (hne : ts ≠ []) {indent : Nat} {x : Text}
    (hw : ItemsText indent ts (newLine indent ++ x)) {s : Scan} {v : View} {is : List Int}
    {kinds : List TokenKind} {j : Nat} {r : Text} (h : Here s v)
    (hopen : v.opened .blockSequenceStart = ⟨x ++ (newLine j ++ r), indent, true, (indent : Int) :: is, kinds⟩)
    (hv : -1 ∈ (indent : Int) :: is) (hj : j ≤ indent) (hr : Starts r) :
    Comes s (FitsAll ts) (View.settle ⟨r, j, true, (indent : Int) :: is, kinds ++ itemsKinds indent ts⟩) := by
  cases ts with
  | nil => exact absurd rfl hne
  | cons t ts =>
    obtain ⟨a, more, ha, hmore, hx⟩ := hw
    obtain rfl := List.append_cancel_left hx
    obtain ⟨u, hsu, hu⟩ := dash_scan h (by simpa using hopen) (isSpace_head_node ha)
    have hkinds : kinds ++ itemsKinds indent (t :: ts) =
        kinds ++ [.blockEntry] ++ nodeKinds indent true t ++ itemsKinds indent ts := by simp [itemsKinds]
    rw [hkinds]
    by_cases hts : ts = []
    · subst hts
      obtain rfl : more = [] := hmore
      have hnode := node_scan t ht.1 ha hu hv (Nat.lt_succ_self _) (fun _ => ⟨rfl, rfl⟩) hj hr
      simp only [FitsAll, and_true, itemsKinds, List.append_nil]
      exact hnode.of_leads hsu
    · obtain ⟨x', rfl⟩ := items_newLine hts hmore
      rw [List.append_assoc] at hu
      have hstarts := starts_items hts hmore (newLine j ++ r)
      have hnode := node_scan t ht.1 ha hu hv (Nat.lt_succ_self _) (fun _ => ⟨rfl, rfl⟩) (le_refl _) hstarts
      rw [View.settle_eq_self rfl (le_refl _)] at hnode
      refine (hnode.of_leads hsu).trans (fun u' hu' => ?_) subset_settle
      exact items_scan ts ht.2 hts hmore hu' (opened_again _) hv hj hr

/-- The tokens of entries, the first of which may begin the mapping. -/
theorem entries_scan (es : List (Tree × Tree)) (ht : OrdinaryEntries es) (hne : es ≠ []) {indent : Nat}
    {x : Text} (hw : EntriesText indent es (newLine indent ++ x)) {s : Scan} {v : View} {is : List Int}
    {kinds : List TokenKind} {j : Nat} {r : Text} (h : Here s v)
    (hopen : v.opened .blockMappingStart = ⟨x ++ (newLine j ++ r), indent, true, (indent : Int) :: is, kinds⟩)
    (hv : -1 ∈ (indent : Int) :: is) (hj : j ≤ indent) (hr : Starts r) :
    Comes s (FitsEntries es)
      (View.settle ⟨r, j, true, (indent : Int) :: is, kinds ++ entriesKinds indent es⟩) := by
  match es, ht, hne with
  | [], _, hne => exact absurd rfl hne
  | (k, val) :: es, ht, _ =>
    obtain ⟨⟨tag, t, rfl, ho⟩, hval, hes⟩ := ht
    obtain ⟨key, a, more, hkey, ha, hmore, hx⟩ := hw
    obtain rfl := List.append_cancel_left hx
    have hk := key_scan h ho hkey (by simpa using hopen) hv (isSpace_head_node ha)
    have hkinds : kinds ++ entriesKinds indent ((.scalar tag t, val) :: es) = kinds ++
        [.key, .scalar (heard (!isShortKey tag t) (indent + indentStep) tag t)
          (style (isShortKey tag t) tag t = .plain), .value] ++
        nodeKinds indent (!isShortKey tag t) val ++ entriesKinds indent es := by simp [entriesKinds]
    rw [hkinds]
    refine .of_imp (fun hfits => ?_) fun hfits hend => hk.2 hfits fun hmem => hend ?_
    · obtain ⟨u, column, hsu, hcol, hfresh, hu⟩ := hk.1 hfits
      refine ⟨u, hsu, ?_⟩
      by_cases hes' : es = []
      · subst hes'
        obtain rfl : more = [] := hmore
        have hnode := node_scan val hval ha hu hv hcol hfresh hj hr
        simp only [FitsEntries, and_true, entriesKinds, List.append_nil]
        exact hnode
      · obtain ⟨x', rfl⟩ := entries_newLine hes hes' hmore
        rw [List.append_assoc] at hu
        have hstarts := starts_entries hes hes' hmore (newLine j ++ r)
        have hnode := node_scan val hval ha hu hv hcol hfresh (le_refl _) hstarts
        rw [View.settle_eq_self rfl (le_refl _)] at hnode
        refine hnode.trans (fun u' hu' => ?_) subset_settle
        exact entries_scan es hes hes' hmore hu' (opened_again _) hv hj hr
    · rw [List.append_assoc, List.append_assoc]
      exact subset_settle hmem

end

end Nodes

section Documents

lemma start_shows (source : Text) :
    (start source).Shows ⟨source, 0, true, [-1], [.streamStart]⟩ :=
  ⟨rfl, rfl, rfl, rfl, rfl, rfl, rfl, rfl⟩

/-- At the end of a text with one mapping on the outermost level. -/
lemma Here.finish {kinds : List TokenKind} (h : Here s ⟨[], 0, true, [0, -1], kinds⟩) :
    ∃ u, s.advance = .ok (u, true) ∧
      u.tokens.reverse.map (·.kind) = kinds ++ [.blockEnd, .streamEnd] := by
  obtain ⟨-, -, t, hadvance, ht⟩ := h
  obtain ⟨hindent, houter⟩ := List.cons.inj ht.indents
  have hempty : t.cursor.rest.isEmpty = true := by rw [ht.rest]; rfl
  have hunwind : t.unwind (-1) = { t.pushAt .blockEnd t.mark with indent := -1, outer := [] } := by
    rw [unwind, if_pos ht.flow, houter, closeBlocks, if_pos (by rw [hindent]; decide), closeBlocks]
  have hdrop : (t.unwind (-1)).dropKey = .ok (t.unwind (-1)) :=
    giveUp_of_keys_eq_nil (by rw [hunwind]; exact ht.keys)
  rw [hadvance, read, hempty, if_pos rfl, Scan.finish, hdrop, hunwind]
  refine ⟨_, rfl, ?_⟩
  show (_ :: _ :: t.tokens).reverse.map _ = _
  rw [List.reverse_cons, List.reverse_cons, List.map_append, List.map_append, ht.kinds, List.append_assoc]
  rfl

end Documents

end Scan

/-- The tokens of a document with entries. -/
theorem scan_entries {es : List (Tree × Tree)} (ht : OrdinaryEntries es) (hne : es ≠ []) {w : Text}
    (hw : EntriesText 0 es (newLine 0 ++ w)) :
    (FitsEntries es → (Tokens.scan (w ++ newLine 0)).tokens.map (·.kind) =
      .streamStart :: .blockMappingStart :: (entriesKinds 0 es ++ [.blockEnd, .streamEnd])) ∧
    (¬FitsEntries es → ∀ t ∈ (Tokens.scan (w ++ newLine 0)).tokens, t.kind ≠ .streamEnd) := by
  have hstarts := starts_entries ht hne hw (newLine 0)
  have hhere := (Scan.start_shows (w ++ newLine 0)).here_blanks (n := 0) hstarts (List.mem_singleton_self _)
  rw [View.settle_eq_self rfl (show (-1 : Int) ≤ (0 : Nat) by decide)] at hhere
  have hopen : View.opened ⟨w ++ newLine 0, 0, true, [-1], [.streamStart]⟩ .blockMappingStart =
      ⟨w ++ (newLine 0 ++ []), 0, true, [((0 : Nat) : Int), -1], [.streamStart] ++ [.blockMappingStart]⟩ :=
    View.opened_of_lt (show (-1 : Int) < (0 : Nat) by decide)
  have hcomes := Scan.entries_scan es ht hne hw hhere hopen (by decide) (le_refl 0) (by simp [Scan.Starts])
  rw [View.settle_eq_self rfl (le_refl _)] at hcomes
  have hfuel : (Scan.start (w ++ newLine 0)).cursor.rest.length < (w ++ newLine 0).length + 2 :=
    Nat.lt_add_of_pos_right (by decide)
  constructor
  · intro hfits
    obtain ⟨u, hsu, hu⟩ := hcomes.here hfits
    obtain ⟨fuel, hlt, hscan⟩ := hsu _ hfuel
    obtain ⟨v, hv, hkinds⟩ := hu.finish
    cases fuel with
    | zero => exact absurd hlt (Nat.not_lt_zero _)
    | succ fuel =>
      rw [Tokens.scan, hscan, Scan.scanFrom_succ, hv]
      show v.tokens.reverse.map _ = _
      rw [hkinds]
      simp
  · intro hfits
    refine hcomes.fails hfits ?_ _ hfuel
    simp [streamEnd_notMem_entries]

end DocPath.Yaml
