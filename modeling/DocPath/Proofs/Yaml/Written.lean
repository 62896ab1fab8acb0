import DocPath.Proofs.Yaml.Pen

/-! The texts of nodes: what is written for a tree without tags and anchors, up to the places where the
lines of its scalars are broken. -/

namespace DocPath.Yaml.Layout

section Scalar

variable {position : Position} {indent : Option Nat} {tag t : Text} {p : Pen}

lemma plain_run (split : Bool) (inner : Nat) (ht : t ≠ []) :
    ∃ w p', plain split inner t p = (gap p ++ w, p') ∧ PlainBody split inner none t w ∧
      p'.fresh = false ∧ p'.openEnded = p.openEnded ∧ (split = false → p.column ≤ p'.column) := by
  have hne : t.isEmpty = false := by simpa using ht
  have hrun : plain split inner t p =
      (gap p ++ (plainFrom split inner none t
          ⟨p.column + (gap p).length, false, false, p.openEnded⟩).1,
        (plainFrom split inner none t ⟨p.column + (gap p).length, false, false, p.openEnded⟩).2) := by
    rw [plain, get_bind_run]
    unfold gap
    cases hs : p.spaced with
    | false => simp only [hne, Bool.or_false, Bool.false_eq_true, if_false]; rfl
    | true => simp only [Bool.or_true, if_true]; rw [bind_run]; simp [hne]; rfl
  obtain ⟨hbody, hfresh, hopen, hcol⟩ := @plainFrom_run split inner none t
    ⟨p.column + (gap p).length, false, false, p.openEnded⟩ rfl
  exact ⟨_, _, hrun, hbody, hfresh, hopen, fun h => Nat.le_trans (Nat.le_add_right _ _) (hcol h)⟩

/-- The pen behind an opening quotation mark. -/
def quotePen (p : Pen) : Pen := ⟨p.column + (gap p).length + 1, false, false, false⟩

lemma enclosed_run (q : CodePoint) (w : Writing) :
    sequentially [sign [q] true false false, w, sign [q] false false false] p =
      (gap p ++ q :: ((w (quotePen p)).1 ++ [q]),
        ⟨(w (quotePen p)).2.column + 1, false, false, false⟩) := by
  have hopen : sign [q] true false false p = (gap p ++ [q], quotePen p) := by
    rw [sign_run, gap, quotePen, gap]
    cases p.spaced <;> simp
  rw [sequentially_cons_run, hopen, sequentially_cons_run, sequentially_cons_run, sequentially_nil_run]
  simp [sign_run]

lemma scalar_of_style (hpos : position ≠ .root)
    (hshow : showsTag tag t (style (position == .simpleKey) tag t) = false) :
    scalar position indent tag t p = match style (position == .simpleKey) tag t with
      | .plain => plain (position != .simpleKey) (indent.getD 0 + indentStep) t p
      | .single => single (position != .simpleKey) (indent.getD 0 + indentStep) t p
      | .double => double (position != .simpleKey) (indent.getD 0 + indentStep) t p := by
  rw [scalar]
  simp only [hshow, Bool.false_eq_true, if_false, hpos]
  cases style (position == .simpleKey) tag t <;> rfl

/-- A scalar is written in one of its forms, with a blank in front if there is none. -/
theorem scalar_run (ho : IsOrdinary tag t) (hpos : position ≠ .root)
    (hcol : position ≠ .simpleKey → indent.getD 0 < p.column) (hp : p.openEnded = false) :
    ∃ w p', scalar position indent tag t p = (gap p ++ w, p') ∧
      ScalarBody (position != .simpleKey) (indent.getD 0 + indentStep) tag t w ∧ p'.fresh = false ∧
      p'.openEnded = false ∧ (position = .simpleKey → p.column ≤ p'.column) := by
  have hshow : showsTag tag t (style (position == .simpleKey) tag t) = false :=
    showsTag_eq_false ho
  have hstyle : style (!(position != .simpleKey)) tag t = style (position == .simpleKey) tag t := by
    rw [bne, Bool.not_not]
  rw [scalar_of_style hpos hshow]
  unfold ScalarBody
  rw [hstyle]
  cases hs : style (position == .simpleKey) tag t with
  | plain =>
    obtain ⟨w, p', hrun, hbody, hfresh, hopen, hmono⟩ := plain_run (p := p) (position != .simpleKey)
      (indent.getD 0 + indentStep) (ne_nil_of_plain ho hs)
    exact ⟨w, p', hrun, hbody, hfresh, hopen.trans hp, fun h => hmono (by simp [h])⟩
  | single =>
    obtain ⟨ha, hm⟩ := style_eq_single hs
    have hblank : hasBlankAtBreak t = false := by
      simp only [allowsSingle, Bool.not_eq_true', Bool.or_eq_false_iff] at ha
      exact ha.2
    obtain ⟨hbody, hmono⟩ := @singleFrom_run (position != .simpleKey)
      (indent.getD 0 + indentStep) (Nat.succ_pos _) none t (quotePen p) hblank
      (fun h => hm (by simpa using h)) (fun h => absurd h (by simp [quotePen]))
    refine ⟨_, _, enclosed_run '\'' _, ⟨_, hbody, rfl⟩, rfl, rfl, fun h => ?_⟩
    have := hmono (by simp [h])
    simp only [quotePen] at this ⊢
    omega
  | double =>
    have hpen : DoublePen (position != .simpleKey) (indent.getD 0 + indentStep) false t (quotePen p) := by
      refine ⟨rfl, fun hsplit hw => ?_, by simp⟩
      have := hcol (by simpa using hsplit)
      simp only [quotePen, indentStep] at hw ⊢
      omega
    obtain ⟨hbody, hmono⟩ := @doubleFrom_run (position != .simpleKey)
      (indent.getD 0 + indentStep) false false false t (quotePen p) (by simp) hpen
    refine ⟨_, _, enclosed_run '"' _, ⟨_, hbody, rfl⟩, rfl, rfl, fun h => ?_⟩
    have := hmono (by simp [h])
    simp only [quotePen] at this ⊢
    omega

end Scalar

/-- Whether a key with a tag needs no sign. -/
def isShortKey (tag t : Text) : Bool := (keyLength? (.scalar tag t)).any (· ≤ keyLimit)

lemma isSimpleKey_scalar (a : Anchors) (tag t : Text) :
    isSimpleKey a (.scalar tag t) = isShortKey tag t := rfl

lemma isMultiline_of_short {tag t : Text} (h : isShortKey tag t = true) :
    t ≠ [] ∧ isMultiline t = false := by
  rw [isShortKey, keyLength?] at h
  split_ifs at h with hk
  · simp at h
  · simpa using hk

mutual

/-- Trees without tags and anchors whose keys are scalars. -/
def Ordinary : Tree → Prop
  | .scalar tag t => IsOrdinary tag t
  | .sequence ts => OrdinaryAll ts
  | .mapping tag es => tag = Tag.mapping ∧ OrdinaryEntries es
  | _ => False

def OrdinaryAll : List Tree → Prop
  | [] => True
  | t :: ts => Ordinary t ∧ OrdinaryAll ts

def OrdinaryEntries : List (Tree × Tree) → Prop
  | [] => True
  | (k, v) :: es => (∃ tag t, k = .scalar tag t ∧ IsOrdinary tag t) ∧ Ordinary v ∧ OrdinaryEntries es

end

/-- A key in front of its colon: alone, or behind a sign and with the colon on a line of its own. -/
def keyText (indent : Nat) (short : Bool) (key : Text) : Text :=
  if short then key else '?' :: CodePoint.ofChar ' ' :: (key ++ newLine indent)

mutual

/-- A node behind its sign, which stands in the given column if nothing but signs stands on the line. -/
def NodeText (indent : Nat) (fresh : Bool) : Tree → Text → Prop
  | .scalar tag t, w =>
    ∃ b, ScalarBody true (indent + indentStep) tag t b ∧ w = CodePoint.ofChar ' ' :: b
  | .sequence ts, w =>
    if ts.isEmpty then w = " []"
    else if fresh then
      ∃ b, ItemsText (indent + indentStep) ts (newLine (indent + indentStep) ++ b) ∧
        w = CodePoint.ofChar ' ' :: b
    else ItemsText indent ts w
  | .mapping _ es, w =>
    if es.isEmpty then w = " \x7b\x7d"
    else if fresh then
      ∃ b, EntriesText (indent + indentStep) es (newLine (indent + indentStep) ++ b) ∧
        w = CodePoint.ofChar ' ' :: b
    else EntriesText (indent + indentStep) es w
  | _, _ => False

/-- Items, each on a new line. -/
def ItemsText (indent : Nat) : List Tree → Text → Prop
  | [], w => w = []
  | t :: ts, w => ∃ a more, NodeText indent true t a ∧ ItemsText indent ts more ∧
      w = newLine indent ++ CodePoint.ofChar '-' :: (a ++ more)

/-- Entries, each on a new line. -/
def EntriesText (indent : Nat) : List (Tree × Tree) → Text → Prop
  | [], w => w = []
  | (.scalar tag t, v) :: es, w =>
    ∃ key a more, ScalarBody (!isShortKey tag t) (indent + indentStep) tag t key ∧
      NodeText indent (!isShortKey tag t) v a ∧ EntriesText indent es more ∧
      w = newLine indent ++
        (keyText indent (isShortKey tag t) key ++ CodePoint.ofChar ':' :: (a ++ more))
  | _ :: _, _ => False

end

section Nodes

variable (a : Anchors) (p : Pen)

lemma node_scalar_run (position : Position) (indent : Option Nat) (tag t : Text) :
    node position indent (.scalar tag t) a p =
      (((scalar position indent tag t p).1, a), (scalar position indent tag t p).2) := by
  rw [node]
  rfl

lemma node_sequence_nil_run (position : Position) (indent : Option Nat) :
    node position indent (.sequence []) a p =
      let r := sequentially [sign "[" true true false, sign "]" false false false] p
      ((r.1, a), r.2) := by
  rw [node]
  rfl

lemma node_sequence_run (position : Position) (indent : Option Nat) (t : Tree) (ts : List Tree) :
    node position indent (.sequence (t :: ts)) a p =
      items (if (position == .entry || position == .simpleKey) && !p.fresh then indent.getD 0
        else deeper indent) (t :: ts) a p := by
  rw [node]
  rfl

lemma node_mapping_run (position : Position) (indent : Option Nat) (es : List (Tree × Tree)) :
    node position indent (.mapping Tag.mapping es) a p =
      if es.isEmpty then
        let r := sequentially [sign "\x7b" true true false, sign "\x7d" false false false] p
        ((r.1, a), r.2)
      else entries (deeper indent) es a p := by
  rw [node, if_pos rfl]
  split_ifs
  · rfl
  · rfl

lemma items_cons_run (indent : Nat) (t : Tree) (ts : List Tree) : items indent (t :: ts) a p =
    let r := sequentially [goTo indent, sign "-" true false true] p
    let n := node .item (some indent) t a r.2
    let m := items indent ts n.1.2 n.2
    ((.concat [r.1, n.1.1, m.1.1], m.1.2), m.2) := by
  rw [items]
  rfl

lemma draw_bind_run {α : Type} (x : StateT Anchors (StateM Pen) α) (f : α → Drawing) :
    (x >>= f) a p = f (x a p).1.1 (x a p).1.2 (x a p).2 := rfl

lemma draw_pure_run (t : Text) : (pure t : Drawing) a p = ((t, a), p) := rfl

lemma draw_lift_run (w : Writing) : (liftM w : Drawing) a p = (((w p).1, a), (w p).2) := rfl

lemma draw_pen_run : (getThe Pen : StateT Anchors (StateM Pen) Pen) a p = ((p, a), p) := rfl

lemma draw_get_run : (getThe Anchors : StateT Anchors (StateM Pen) Anchors) a p = ((a, a), p) := rfl

/-- What is written for a key and its colon with a pen in the column of the mapping. -/
def keyRun (indent : Nat) (k : Tree) : (Text × Anchors) × Pen :=
  if isSimpleKey a k then
    let n := node .simpleKey (some indent) k a p
    let s := sign ":" false false false n.2
    ((n.1.1 ++ s.1, n.1.2), s.2)
  else
    let m := sign "?" true false true p
    let n := node .entry (some indent) k a m.2
    let h := goTo indent n.2
    let s := sign ":" true false true h.2
    ((Text.concat [m.1, n.1.1, h.1, s.1], n.1.2), s.2)

lemma entries_cons_run (indent : Nat) (k v : Tree) (es : List (Tree × Tree)) :
    entries indent ((k, v) :: es) a p =
      let g := goTo indent p
      let key := keyRun a g.2 indent k
      let n := node .entry (some indent) v key.1.2 key.2
      let m := entries indent es n.1.2 n.2
      ((Text.concat [g.1, key.1.1, n.1.1, m.1.1], m.1.2), m.2) := by
  unfold keyRun
  rw [entries, draw_bind_run, draw_lift_run, draw_bind_run, draw_get_run]
  dsimp only
  split_ifs <;> rfl

end Nodes

/-- A pen behind the sign of a node in a collection of the given indentation. -/
structure BehindSign (indent : Nat) (p : Pen) : Prop where
  spaced : p.spaced = false
  openEnded : p.openEnded = false
  column : indent < p.column
  fresh : p.fresh = true → p.column = indent + 1

/-- A pen behind a node, where the next sign begins a new line. -/
structure BehindNode (p : Pen) : Prop where
  fresh : p.fresh = false
  openEnded : p.openEnded = false

lemma goTo_newLine {p : Pen} (hp : BehindNode p) (indent : Nat) :
    goTo indent p = (newLine indent, ⟨indent, true, true, false⟩) := by
  rw [goTo_run p (.inl hp.fresh), hp.openEnded]

/-- The pen in front of the first sign of an inner collection. -/
lemma goTo_deeper {indent : Nat} {p : Pen} (hp : BehindSign indent p) :
    goTo (indent + indentStep) p =
      (if p.fresh then [CodePoint.ofChar ' '] else newLine (indent + indentStep),
        ⟨indent + indentStep, true, true, false⟩) := by
  cases hf : p.fresh with
  | false =>
    rw [goTo_newLine ⟨hf, hp.openEnded⟩]
    rfl
  | true =>
    have hc := hp.fresh hf
    rw [goTo_fresh p hf (by rw [hc, indentStep]; omega), hc, hf, hp.openEnded,
      show indent + indentStep - (indent + 1) = 1 by rw [indentStep]; omega]
    rfl

/-- A key that is a scalar is written in one of its forms. -/
lemma keyRun_scalar (a : Anchors) (indent : Nat) {tag t : Text} (ho : IsOrdinary tag t) :
    ∃ key q, keyRun a ⟨indent, true, true, false⟩ indent (.scalar tag t) =
        ((keyText indent (isShortKey tag t) key ++ [CodePoint.ofChar ':'], a), q) ∧
      ScalarBody (!isShortKey tag t) (indent + indentStep) tag t key ∧
      BehindSign indent q ∧ q.fresh = !isShortKey tag t := by
  rw [keyRun, isSimpleKey_scalar]
  cases isShortKey tag t with
  | true =>
    obtain ⟨key, q, hrun, hbody, hfresh, -, hcol⟩ := @scalar_run .simpleKey (some indent) tag t
      ⟨indent, true, true, false⟩ ho nofun
      (fun h => absurd rfl h) rfl
    simp only [if_true, node_scalar_run, hrun, sign_run, hfresh]
    have hcolon : (if q.spaced || !false then Text.ofString ":" else ' ' :: Text.ofString ":") =
        [CodePoint.ofChar ':'] := by simp [Text.ofString]
    simp only [hcolon]
    refine ⟨key, ⟨q.column + 1, false, false, false⟩, rfl, hbody, ⟨rfl, rfl, ?_, nofun⟩, rfl⟩
    exact Nat.lt_of_le_of_lt (hcol rfl) (Nat.lt_succ_self _)
  | false =>
    obtain ⟨key, q, hrun, hbody, hfresh, hopen, -⟩ := @scalar_run .entry (some indent) tag t
      ⟨indent + 1, false, true, false⟩ ho nofun
      (fun _ => Nat.lt_succ_self _) rfl
    have hsign : sign "?" true false true ⟨indent, true, true, false⟩ =
        ([CodePoint.ofChar '?'], ⟨indent + 1, false, true, false⟩) := rfl
    have hcolon : sign ":" true false true ⟨indent, true, true, false⟩ =
        ([CodePoint.ofChar ':'], ⟨indent + 1, false, true, false⟩) := rfl
    simp only [Bool.false_eq_true, if_false, hsign, node_scalar_run, hrun, goTo_newLine ⟨hfresh, hopen⟩,
      hcolon]
    refine ⟨key, ⟨indent + 1, false, true, false⟩, ?_, hbody,
      ⟨rfl, rfl, Nat.lt_succ_self _, fun _ => rfl⟩, rfl⟩
    simp [Text.concat, gap, keyText]

mutual

/-- A node is written in one of its forms, and the anchors stay as they are. -/
theorem node_run (t : Tree) (ht : Ordinary t) {position : Position} {indent : Nat} {a : Anchors}
    {p : Pen} (hpos : position = .item ∧ p.fresh = true ∨ position = .entry) (hp : BehindSign indent p) :
    ∃ w p', node position (some indent) t a p = ((w, a), p') ∧ NodeText indent p.fresh t w ∧
      BehindNode p' := by
  cases t with
  | scalar tag t =>
    have hp' : position ≠ .root ∧ position ≠ .simpleKey := by
      rcases hpos with ⟨rfl, -⟩ | rfl <;> exact ⟨nofun, nofun⟩
    obtain ⟨w, p', hrun, hbody, hfresh, hopen, -⟩ := @scalar_run position (some indent) tag t p ht hp'.1
      (fun _ => hp.column) hp.openEnded
    rw [node_scalar_run, hrun]
    refine ⟨_, _, rfl, ?_, hfresh, hopen⟩
    rw [NodeText, gap, hp.spaced]
    refine ⟨w, ?_, rfl⟩
    rw [show (position != .simpleKey) = true by simpa using hp'.2] at hbody
    exact hbody
  | sequence ts =>
    cases ts with
    | nil =>
      rw [node_sequence_nil_run]
      simp only [sequentially_cons_run, sign_run, sequentially_nil_run, hp.spaced]
      exact ⟨_, _, rfl, by rw [NodeText]; rfl, by simp, rfl⟩
    | cons t ts =>
      rw [node_sequence_run]
      have hloose : ((position == .entry || position == .simpleKey) && !p.fresh) = !p.fresh := by
        rcases hpos with ⟨rfl, h⟩ | rfl
        · simp [h]
        · rfl
      rw [hloose]
      simp only [NodeText, List.isEmpty_cons, Bool.false_eq_true, if_false, Option.getD_some, deeper]
      have hgo := goTo_deeper hp
      cases hf : p.fresh with
      | true =>
        simp only [Bool.not_true, Bool.false_eq_true, if_false, if_true]
        rw [hf, if_pos rfl] at hgo
        obtain ⟨w, p', hrun, hw, hp'⟩ := items_run (t :: ts) ht (a := a) hgo (by simp)
        exact ⟨_, _, hrun, ⟨w, hw, rfl⟩, hp'⟩
      | false =>
        simp only [Bool.not_false, Bool.false_eq_true, if_false, if_true]
        have hgo := goTo_newLine ⟨hf, hp.openEnded⟩ indent
        obtain ⟨w, p', hrun, hw, hp'⟩ := items_run (t :: ts) ht (a := a) hgo (by simp)
        exact ⟨_, _, hrun, hw, hp'⟩
  | mapping tag es =>
    obtain ⟨rfl, hes⟩ := ht
    rw [node_mapping_run]
    cases es with
    | nil =>
      simp only [NodeText, List.isEmpty_nil, if_true, sequentially_cons_run, sign_run,
        sequentially_nil_run, hp.spaced]
      exact ⟨_, _, rfl, rfl, by simp, rfl⟩
    | cons e es =>
      simp only [NodeText, List.isEmpty_cons, Bool.false_eq_true, if_false, deeper]
      have hgo := goTo_deeper hp
      obtain ⟨w, p', hrun, hw, hp'⟩ := entries_run (e :: es) hes (a := a) hgo (by simp)
      rw [hrun]
      cases hf : p.fresh with
      | true => exact ⟨_, _, rfl, ⟨w, hw, rfl⟩, hp'⟩
      | false => exact ⟨_, _, rfl, hw, hp'⟩
  | literal tag lines => exact absurd ht id
  | shared l t => exact absurd ht id

theorem items_run (ts : List Tree) (ht : OrdinaryAll ts) {indent : Nat} {a : Anchors} {p : Pen}
    {lead : Text} (hgo : goTo indent p = (lead, ⟨indent, true, true, false⟩)) (hne : ts ≠ []) :
    ∃ w p', items indent ts a p = ((lead ++ w, a), p') ∧ ItemsText indent ts (newLine indent ++ w) ∧
      BehindNode p' := by
  cases ts with
  | nil => exact absurd rfl hne
  | cons t ts =>
    have hsign : sequentially [goTo indent, sign "-" true false true] p =
        (lead ++ [CodePoint.ofChar '-'], ⟨indent + 1, false, true, false⟩) := by
      simp only [sequentially_cons_run, hgo, sign_run, sequentially_nil_run]
      rfl
    obtain ⟨w, q, hnode, hw, hq⟩ := @node_run t ht.1 .item indent a
      ⟨indent + 1, false, true, false⟩ (.inl ⟨rfl, rfl⟩) ⟨rfl, rfl, Nat.lt_succ_self _, fun _ => rfl⟩
    rw [items_cons_run, hsign]
    simp only [hnode, Text.concat, List.flatten_cons, List.flatten_nil, List.append_nil]
    by_cases hts : ts = []
    · subst hts
      refine ⟨CodePoint.ofChar '-' :: w, q, ?_, ⟨w, [], hw, rfl, by simp⟩, hq⟩
      simp [items, draw_pure_run]
    · obtain ⟨more, q', hitems, hmore, hq'⟩ :=
        items_run ts ht.2 (a := a) (goTo_newLine hq indent) hts
      rw [hitems]
      exact ⟨CodePoint.ofChar '-' :: (w ++ (newLine indent ++ more)), q', by simp,
        ⟨w, _, hw, hmore, rfl⟩, hq'⟩

theorem entries_run (es : List (Tree × Tree)) (ht : OrdinaryEntries es) {indent : Nat} {a : Anchors}
    {p : Pen} {lead : Text} (hgo : goTo indent p = (lead, ⟨indent, true, true, false⟩))
    (hne : es ≠ []) :
    ∃ w p', entries indent es a p = ((lead ++ w, a), p') ∧ EntriesText indent es (newLine indent ++ w) ∧
      BehindNode p' := by
  match es, ht, hne with
  | [], _, hne => exact absurd rfl hne
  | (k, v) :: es, ht, _ =>
    obtain ⟨⟨tag, t, rfl, ho⟩, hv, hes⟩ := ht
    obtain ⟨key, q, hkey, hbody, hq, hfresh⟩ := keyRun_scalar a indent ho
    obtain ⟨w, q', hnode, hw, hq'⟩ := @node_run v hv .entry indent a q (.inr rfl) hq
    rw [entries_cons_run, hgo]
    simp only [hkey, hnode, Text.concat, List.flatten_cons, List.flatten_nil, List.append_nil]
    rw [hfresh] at hw
    by_cases hne : es = []
    · subst hne
      refine ⟨keyText indent (isShortKey tag t) key ++ CodePoint.ofChar ':' :: w, q', ?_,
        ⟨key, w, [], hbody, hw, rfl, by simp⟩, hq'⟩
      simp [entries, draw_pure_run]
    · obtain ⟨more, q'', hentries, hmore, hq''⟩ :=
        entries_run es hes (a := a) (goTo_newLine hq' indent) hne
      rw [hentries]
      exact ⟨keyText indent (isShortKey tag t) key ++ CodePoint.ofChar ':' ::
        (w ++ (newLine indent ++ more)), q'', by simp, ⟨key, w, _, hbody, hw, hmore, rfl⟩, hq''⟩

end

/-- A document with entries begins in the first column and ends with a line feed. -/
theorem document_run {es : List (Tree × Tree)} (ht : OrdinaryEntries es) (hne : es ≠ []) :
    ∃ w, document (.mapping Tag.mapping es) = w ++ newLine 0 ∧ EntriesText 0 es (newLine 0 ++ w) := by
  have hgo : goTo 0 ⟨0, true, true, false⟩ = ([], ⟨0, true, true, false⟩) := rfl
  obtain ⟨w, p, hrun, hw, hp⟩ :=
    entries_run es ht (a := ⟨(Tree.mapping Tag.mapping es).anchored, []⟩) hgo hne
  have hnode : node .root none (.mapping Tag.mapping es) ⟨(Tree.mapping Tag.mapping es).anchored, []⟩
      ⟨0, true, true, false⟩ = ((w, ⟨(Tree.mapping Tag.mapping es).anchored, []⟩), p) := by
    rw [node_mapping_run, if_neg (by simpa using hne)]
    exact hrun
  refine ⟨w, ?_, hw⟩
  rw [document]
  show (_ : Drawing) _ _ |>.1.1 = _
  rw [draw_bind_run, hnode, draw_bind_run, draw_lift_run, goTo_newLine hp, draw_bind_run, draw_pen_run]
  simp [draw_pure_run, Text.concat]

end DocPath.Yaml.Layout
