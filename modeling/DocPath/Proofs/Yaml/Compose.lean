import DocPath.Proofs.Yaml.Tokens
import DocPath.Yaml.Node

/-! The nodes of what is written: composing its tokens gives the tree back, with the nodes numbered in order. -/

namespace DocPath.Yaml

namespace Compose

section Steps

variable {s s' : Composition} {t : Token} {rest : List Token} {fuel : Nat} {form : Form}

lemma peek_cons (hs : s.tokens = t :: rest) : peek s = .ok (t, s) := by
  rw [peek, hs]

lemma take_cons (hs : s.tokens = t :: rest) : take s = .ok (t, { s with tokens := rest }) := by
  rw [take, hs]

/-- What stands in front of a node only if it has an anchor, a tag or is an alias. -/
def IsPlainStart (kind : TokenKind) : Prop :=
  (∀ name, kind ≠ .anchor name) ∧ (∀ handle suffix, kind ≠ .tag handle suffix) ∧ ∀ name, kind ≠ .alias name

lemma properties_none (hs : s.tokens = t :: rest) (h : IsPlainStart t.kind) :
    properties s = .ok (⟨none, none, none⟩, s) := by
  obtain ⟨hanchor, htag, -⟩ := h
  rw [properties, bind_ok (peek_cons hs)]
  cases hk : t.kind with
  | anchor name => exact absurd hk (hanchor name)
  | tag handle suffix => exact absurd hk (htag handle suffix)
  | _ => rfl

lemma declare_none (m : Mark) : declare none m s = .ok (s.count, { s with count := s.count + 1 }) := rfl

lemma node_scalar {text : Text} {plain : Bool} (hs : s.tokens = t :: rest) (hkind : t.kind = .scalar text plain) :
    node (fuel + 1) form s = .ok (.scalar ⟨s.count, scalarTag none plain text, t.start⟩ text,
      { s with tokens := rest, count := s.count + 1 }) := by
  have hplain : IsPlainStart t.kind := by simp [IsPlainStart, hkind]
  rw [node, bind_ok (peek_cons hs)]
  simp only [hkind]
  rw [bind_ok (properties_none hs hplain), bind_ok (peek_cons hs)]
  simp only [hkind]
  rw [bind_ok (take_cons hs), bind_ok (declare_none _)]
  rfl

section Collections

variable {ns : List Node} {es : List (Node × Node)}

lemma node_sequence (hs : s.tokens = t :: rest) (hkind : t.kind = .blockSequenceStart) (hform : form ≠ .flow)
    (hitems : blockItems fuel t.start { s with tokens := rest, count := s.count + 1 } = .ok (ns, s')) :
    node (fuel + 1) form s = .ok (.sequence ⟨s.count, Tag.sequence, t.start⟩ ns, s') := by
  have hplain : IsPlainStart t.kind := by simp [IsPlainStart, hkind]
  have htake := take_cons (s := { s with count := s.count + 1 }) hs
  rw [node, bind_ok (peek_cons hs)]
  simp only [hkind]
  rw [bind_ok (properties_none hs hplain), bind_ok (peek_cons hs)]
  simp only [hkind]
  cases form with
  | flow => exact absurd rfl hform
  | _ =>
    dsimp only
    rw [bind_ok (bind_ok (declare_none _)), bind_ok htake, bind_ok hitems]
    rfl

lemma node_mapping (hs : s.tokens = t :: rest) (hkind : t.kind = .blockMappingStart) (hform : form ≠ .flow)
    (hentries : blockEntries fuel t.start { s with tokens := rest, count := s.count + 1 } = .ok (es, s')) :
    node (fuel + 1) form s = .ok (.mapping ⟨s.count, Tag.mapping, t.start⟩ es, s') := by
  have hplain : IsPlainStart t.kind := by simp [IsPlainStart, hkind]
  have htake := take_cons (s := { s with count := s.count + 1 }) hs
  rw [node, bind_ok (peek_cons hs)]
  simp only [hkind]
  rw [bind_ok (properties_none hs hplain), bind_ok (peek_cons hs)]
  simp only [hkind]
  cases form with
  | flow => exact absurd rfl hform
  | _ =>
    dsimp only
    rw [bind_ok (bind_ok (declare_none _)), bind_ok htake, bind_ok hentries]
    rfl

lemma node_loose (hs : s.tokens = t :: rest) (hkind : t.kind = .blockEntry)
    (hitems : looseItems fuel { s with count := s.count + 1 } = .ok (ns, s')) :
    node (fuel + 1) .blockValue s = .ok (.sequence ⟨s.count, Tag.sequence, t.start⟩ ns, s') := by
  have hplain : IsPlainStart t.kind := by simp [IsPlainStart, hkind]
  rw [node, bind_ok (peek_cons hs)]
  simp only [hkind]
  rw [bind_ok (properties_none hs hplain), bind_ok (peek_cons hs)]
  simp only [hkind]
  rw [bind_ok (bind_ok (declare_none _)), bind_ok hitems]
  rfl

lemma flowItems_end {m : Mark} (hs : s.tokens = t :: rest) (hkind : t.kind = .flowSequenceEnd) :
    flowItems (fuel + 1) m true s = .ok ([], { s with tokens := rest }) := by
  rw [flowItems, bind_ok (peek_cons hs), if_pos hkind, bind_ok (take_cons hs)]
  rfl

lemma flowEntries_end {m : Mark} (hs : s.tokens = t :: rest) (hkind : t.kind = .flowMappingEnd) :
    flowEntries (fuel + 1) m true s = .ok ([], { s with tokens := rest }) := by
  rw [flowEntries, bind_ok (peek_cons hs), if_pos hkind, bind_ok (take_cons hs)]
  rfl

variable {u : Token}

lemma node_emptySequence (hs : s.tokens = t :: u :: rest) (ht : t.kind = .flowSequenceStart)
    (hu : u.kind = .flowSequenceEnd) :
    node (fuel + 2) form s = .ok (.sequence ⟨s.count, Tag.sequence, t.start⟩ [],
      { s with tokens := rest, count := s.count + 1 }) := by
  have hplain : IsPlainStart t.kind := by simp [IsPlainStart, ht]
  have htake := take_cons (s := { s with count := s.count + 1 }) hs
  rw [node, bind_ok (peek_cons hs)]
  simp only [ht]
  rw [bind_ok (properties_none hs hplain), bind_ok (peek_cons hs)]
  simp only [ht]
  rw [bind_ok (bind_ok (declare_none _)), bind_ok htake, bind_ok (flowItems_end rfl hu)]
  rfl

lemma node_emptyMapping (hs : s.tokens = t :: u :: rest) (ht : t.kind = .flowMappingStart)
    (hu : u.kind = .flowMappingEnd) :
    node (fuel + 2) form s = .ok (.mapping ⟨s.count, Tag.mapping, t.start⟩ [],
      { s with tokens := rest, count := s.count + 1 }) := by
  have hplain : IsPlainStart t.kind := by simp [IsPlainStart, ht]
  have htake := take_cons (s := { s with count := s.count + 1 }) hs
  rw [node, bind_ok (peek_cons hs)]
  simp only [ht]
  rw [bind_ok (properties_none hs hplain), bind_ok (peek_cons hs)]
  simp only [ht]
  rw [bind_ok (bind_ok (declare_none _)), bind_ok htake, bind_ok (flowEntries_end rfl hu)]
  rfl

lemma blockItems_end {m : Mark} (hs : s.tokens = t :: rest) (hkind : t.kind = .blockEnd) :
    blockItems (fuel + 1) m s = .ok ([], { s with tokens := rest }) := by
  rw [blockItems, bind_ok (peek_cons hs)]
  simp only [hkind]
  rw [bind_ok (take_cons hs)]
  rfl

lemma blockEntries_end {m : Mark} (hs : s.tokens = t :: rest) (hkind : t.kind = .blockEnd) :
    blockEntries (fuel + 1) m s = .ok ([], { s with tokens := rest }) := by
  rw [blockEntries, bind_ok (peek_cons hs)]
  simp only [hkind]
  rw [bind_ok (take_cons hs)]
  rfl

lemma looseItems_end (hs : s.tokens = t :: rest) (hkind : t.kind ≠ .blockEntry) :
    looseItems (fuel + 1) s = .ok ([], s) := by
  rw [looseItems, bind_ok (peek_cons hs)]
  cases hk : t.kind with
  | blockEntry => exact absurd hk hkind
  | _ => rfl

variable {n : Node} {s'' : Composition}

lemma blockItems_item {m : Mark} (hs : s.tokens = t :: u :: rest) (ht : t.kind = .blockEntry)
    (hu : u.kind ≠ .blockEntry ∧ u.kind ≠ .blockEnd)
    (hnode : node fuel .block { s with tokens := u :: rest } = .ok (n, s'))
    (hitems : blockItems fuel m s' = .ok (ns, s'')) : blockItems (fuel + 1) m s = .ok (n :: ns, s'') := by
  have hpeek := peek_cons (s := { s with tokens := u :: rest }) rfl
  rw [blockItems, bind_ok (peek_cons hs)]
  simp only [ht]
  rw [bind_ok (take_cons hs), bind_ok hpeek]
  cases hk : u.kind with
  | blockEntry => exact absurd hk hu.1
  | blockEnd => exact absurd hk hu.2
  | _ => exact (bind_ok hnode).trans (bind_ok hitems)

lemma looseItems_item (hs : s.tokens = t :: u :: rest) (ht : t.kind = .blockEntry)
    (hu : u.kind ≠ .blockEntry ∧ endsEntry u.kind = false)
    (hnode : node fuel .block { s with tokens := u :: rest } = .ok (n, s'))
    (hitems : looseItems fuel s' = .ok (ns, s'')) : looseItems (fuel + 1) s = .ok (n :: ns, s'') := by
  have hpeek := peek_cons (s := { s with tokens := u :: rest }) rfl
  rw [looseItems, bind_ok (peek_cons hs)]
  simp only [ht]
  rw [bind_ok (take_cons hs), bind_ok hpeek, if_neg (by simp [hu.1, hu.2]), bind_ok hnode, bind_ok hitems]
  rfl

lemma blockPart_node {m : Mark} (hs : s.tokens = t :: rest) (ht : endsEntry t.kind = false)
    (hnode : node fuel .blockValue s = .ok (n, s')) : blockPart (fuel + 1) m s = .ok (n, s') := by
  rw [blockPart, bind_ok (peek_cons hs), if_neg (by simp [ht])]
  exact hnode

lemma blockEntries_entry {m : Mark} {k v : Node} {s₁ s₂ s₃ : Composition} (hs : s.tokens = t :: rest)
    (ht : t.kind = .key) (hkey : blockPart fuel t.stop { s with tokens := rest } = .ok (k, s₁))
    {rest' : List Token} (hs₁ : s₁.tokens = u :: rest') (hu : u.kind = .value)
    (hvalue : blockPart fuel u.stop { s₁ with tokens := rest' } = .ok (v, s₂))
    (hentries : blockEntries fuel m s₂ = .ok (es, s₃)) :
    blockEntries (fuel + 1) m s = .ok ((k, v) :: es, s₃) := by
  rw [blockEntries, bind_ok (peek_cons hs)]
  simp only [ht]
  rw [bind_ok (take_cons hs), bind_ok hkey, bind_ok (peek_cons hs₁)]
  simp only [hu]
  rw [bind_ok (take_cons hs₁), bind_ok hvalue, bind_ok hentries]
  rfl

end Collections

end Steps

end Compose

open Layout

mutual

/-- The tree that is read back. -/
def heardTree (indent : Nat) (fresh : Bool) : Tree → Tree
  | .scalar tag t => .scalar tag (heard true (indent + indentStep) tag t)
  | .sequence ts => .sequence (heardItems (if fresh then indent + indentStep else indent) ts)
  | .mapping tag es => .mapping tag (heardEntries (indent + indentStep) es)
  | t => t

def heardItems (indent : Nat) : List Tree → List Tree
  | [] => []
  | t :: ts => heardTree indent true t :: heardItems indent ts

def heardEntries (indent : Nat) : List (Tree × Tree) → List (Tree × Tree)
  | [] => []
  | (.scalar tag t, v) :: es =>
    (.scalar tag (heard (!isShortKey tag t) (indent + indentStep) tag t),
      heardTree indent (!isShortKey tag t) v) :: heardEntries indent es
  | e :: es => e :: heardEntries indent es

end

mutual

/-- A node has the form of a tree, and its parts are numbered in order from `lo` up to `hi`. -/
def Shape (lo : Nat) (n : Node) : Tree → Nat → Prop
  | .scalar tag t, hi => ∃ m, n = .scalar ⟨lo, tag, m⟩ t ∧ hi = lo + 1
  | .sequence ts, hi => ∃ m ns, n = .sequence ⟨lo, Tag.sequence, m⟩ ns ∧ ShapeAll (lo + 1) ns ts hi
  | .mapping tag es, hi => ∃ m ns, n = .mapping ⟨lo, tag, m⟩ ns ∧ ShapeEntries (lo + 1) ns es hi
  | _, _ => False

def ShapeAll (lo : Nat) (ns : List Node) : List Tree → Nat → Prop
  | [], hi => ns = [] ∧ hi = lo
  | t :: ts, hi => ∃ n ms mid, ns = n :: ms ∧ Shape lo n t mid ∧ ShapeAll mid ms ts hi

def ShapeEntries (lo : Nat) (ns : List (Node × Node)) : List (Tree × Tree) → Nat → Prop
  | [], hi => ns = [] ∧ hi = lo
  | (k, v) :: es, hi => ∃ n m ms a b, ns = (n, m) :: ms ∧ Shape lo n k a ∧ Shape a m v b ∧ ShapeEntries b ms es hi

end

section Kinds

variable {t : Tree}

lemma nodeKinds_cons (ht : Ordinary t) (indent : Nat) (fresh : Bool) :
    ∃ kind more, nodeKinds indent fresh t = kind :: more ∧ Compose.endsEntry kind = false ∧
      (fresh = true → kind ≠ .blockEntry) := by
  cases t with
  | scalar tag t => exact ⟨_, _, rfl, rfl, by simp⟩
  | sequence ts =>
    cases ts with
    | nil => exact ⟨_, _, rfl, rfl, by simp⟩
    | cons t ts =>
      cases fresh with
      | true => exact ⟨_, _, rfl, rfl, by simp⟩
      | false => exact ⟨_, _, rfl, rfl, by simp⟩
  | mapping tag es =>
    cases es with
    | nil => exact ⟨_, _, rfl, rfl, by simp⟩
    | cons e es => exact ⟨_, _, rfl, rfl, by simp⟩
  | literal tag lines => exact absurd ht id
  | shared l t => exact absurd ht id

/-- The tag that is told by what is read back. -/
lemma scalarTag_heard {tag t : Text} {short : Bool} {inner : Nat} (ho : IsOrdinary tag t) :
    Compose.scalarTag none (style short tag t = .plain) (heard (!short) inner tag t) = tag := by
  have hshow : showsTag tag t (style short tag t) = false := showsTag_eq_false ho
  unfold heard
  rw [Bool.not_not]
  cases h : style short tag t with
  | plain => simpa [Compose.scalarTag] using (style_eq_plain h).1.symm
  | _ =>
    rw [h] at hshow
    have htag : tag = Tag.string := by simpa [showsTag] using hshow
    simpa [Compose.scalarTag] using htag.symm

end Kinds

namespace Compose

variable {b : Token} {ts k : List Token} {fuel : Nat} {s : Composition}

/-- Behind a value no item follows. -/
lemma entries_behind {es : List (Tree × Tree)} {indent : Nat} (hts : ts.map (·.kind) = entriesKinds indent es)
    (hb : b.kind = .blockEnd) (k : List Token) :
    ∃ b' k', ts ++ b :: k = b' :: k' ∧ b'.kind ≠ .blockEntry := by
  cases ts with
  | nil => exact ⟨b, k, rfl, by simp [hb]⟩
  | cons x ts =>
    refine ⟨x, ts ++ b :: k, rfl, fun hx => ?_⟩
    rw [List.map_cons, hx] at hts
    match es, hts with
    | [], hts => cases hts
    | (.scalar tag t, v) :: es, hts => cases hts
    | (.literal .., v) :: es, hts | (.sequence .., v) :: es, hts | (.mapping .., v) :: es, hts
    | (.shared .., v) :: es, hts => cases hts

mutual

/-- A node is composed of its tokens. -/
theorem compose_node (t : Tree) (ht : Ordinary t) {indent : Nat} {fresh : Bool} {form : Form} {fuel : Nat}
    {ts k : List Token} {s : Composition} (hts : ts.map (·.kind) = nodeKinds indent fresh t) (hform : form ≠ .flow)
    (hfresh : fresh = false → form = .blockValue ∧ ∃ b k', k = b :: k' ∧ b.kind ≠ .blockEntry)
    (hfuel : 2 * ts.length ≤ fuel) (hs : s.tokens = ts ++ k) :
    ∃ n hi, node fuel form s = .ok (n, { s with tokens := k, count := hi }) ∧
      Shape s.count n (heardTree indent fresh t) hi := by
  cases t with
  | scalar tag t =>
    obtain ⟨x, rfl, hx⟩ := List.map_eq_singleton_iff.mp hts
    obtain ⟨fuel, rfl⟩ : ∃ m, fuel = m + 1 := ⟨fuel - 1, by simp at hfuel; omega⟩
    have htag : scalarTag none (style false tag t = .plain) (heard true (indent + indentStep) tag t) = tag :=
      scalarTag_heard ht
    refine ⟨_, _, node_scalar hs hx, ?_⟩
    rw [htag]
    exact ⟨_, rfl, rfl⟩
  | sequence items =>
    cases items with
    | nil =>
      obtain ⟨x, rest, rfl, hx, hrest⟩ := List.map_eq_cons_iff.mp hts
      obtain ⟨y, rfl, hy⟩ := List.map_eq_singleton_iff.mp hrest
      obtain ⟨fuel, rfl⟩ : ∃ m, fuel = m + 2 := ⟨fuel - 2, by simp at hfuel; omega⟩
      exact ⟨_, _, node_emptySequence hs hx hy, _, _, rfl, rfl, rfl⟩
    | cons t items =>
      -- items in the column of the mapping around them have no block of their own
      cases fresh with
      | true =>
        obtain ⟨x, rest, rfl, hx, hrest⟩ := List.map_eq_cons_iff.mp hts
        obtain ⟨inner, last, rfl, hinner, hlast⟩ := List.map_eq_append_iff.mp hrest
        obtain ⟨y, rfl, hy⟩ := List.map_eq_singleton_iff.mp hlast
        simp only [List.length_cons, List.length_append, List.length_nil] at hfuel
        obtain ⟨fuel, rfl⟩ : ∃ m, fuel = m + 1 := ⟨fuel - 1, by omega⟩
        obtain ⟨ns, hi, hitems, hshape⟩ := compose_items (t :: items) ht (m := x.start)
          (s := { s with tokens := inner ++ [y] ++ k, count := s.count + 1 }) hinner hy
          (show 2 * inner.length + 1 ≤ fuel by omega)
          (List.append_assoc ..)
        exact ⟨_, hi, node_sequence hs hx hform hitems, _, ns, rfl, hshape⟩
      | false =>
        obtain ⟨rfl, b, k, rfl, hb⟩ := hfresh rfl
        obtain ⟨x, rest, rfl, hx, -⟩ := List.map_eq_cons_iff.mp hts
        simp only [List.length_cons] at hfuel
        obtain ⟨fuel, rfl⟩ : ∃ m, fuel = m + 1 := ⟨fuel - 1, by omega⟩
        obtain ⟨ns, hi, hitems, hshape⟩ := compose_loose (t :: items) ht
          (s := { s with count := s.count + 1 }) hts hb (show 0 < fuel by omega) (by simp; omega) hs
        exact ⟨_, hi, node_loose hs hx hitems, _, ns, rfl, hshape⟩
  | mapping tag es =>
    obtain ⟨rfl, ht⟩ := ht
    cases es with
    | nil =>
      obtain ⟨x, rest, rfl, hx, hrest⟩ := List.map_eq_cons_iff.mp hts
      obtain ⟨y, rfl, hy⟩ := List.map_eq_singleton_iff.mp hrest
      obtain ⟨fuel, rfl⟩ : ∃ m, fuel = m + 2 := ⟨fuel - 2, by simp at hfuel; omega⟩
      exact ⟨_, _, node_emptyMapping hs hx hy, _, _, rfl, rfl, rfl⟩
    | cons e es =>
      obtain ⟨x, rest, rfl, hx, hrest⟩ := List.map_eq_cons_iff.mp hts
      obtain ⟨inner, last, rfl, hinner, hlast⟩ := List.map_eq_append_iff.mp hrest
      obtain ⟨y, rfl, hy⟩ := List.map_eq_singleton_iff.mp hlast
      simp only [List.length_cons, List.length_append, List.length_nil] at hfuel
      obtain ⟨fuel, rfl⟩ : ∃ m, fuel = m + 1 := ⟨fuel - 1, by omega⟩
      obtain ⟨ns, hi, hentries, hshape⟩ := compose_entries (e :: es) ht (m := x.start)
        (s := { s with tokens := inner ++ [y] ++ k, count := s.count + 1 }) hinner hy
        (show 2 * inner.length + 1 ≤ fuel by omega)
        (List.append_assoc ..)
      exact ⟨_, hi, node_mapping hs hx hform hentries, _, ns, rfl, hshape⟩
  | literal tag lines => exact absurd ht id
  | shared l t => exact absurd ht id

/-- The items of a block sequence. -/
theorem compose_items (items : List Tree) (ht : OrdinaryAll items) {indent fuel : Nat} {m : Mark}
    {ts k : List Token} {b : Token} {s : Composition} (hts : ts.map (·.kind) = itemsKinds indent items)
    (hb : b.kind = .blockEnd) (hfuel : 2 * ts.length + 1 ≤ fuel) (hs : s.tokens = ts ++ b :: k) :
    ∃ ns hi, blockItems fuel m s = .ok (ns, { s with tokens := k, count := hi }) ∧
      ShapeAll s.count ns (heardItems indent items) hi := by
  obtain ⟨fuel, rfl⟩ : ∃ m, fuel = m + 1 := ⟨fuel - 1, by omega⟩
  cases items with
  | nil =>
    obtain rfl : ts = [] := List.map_eq_nil_iff.mp hts
    exact ⟨[], s.count, blockItems_end hs hb, rfl, rfl⟩
  | cons t items =>
    obtain ⟨x, rest, rfl, hx, hrest⟩ := List.map_eq_cons_iff.mp hts
    obtain ⟨first, more, rfl, hfirst, hmore⟩ := List.map_eq_append_iff.mp hrest
    obtain ⟨kind, kinds, hkind, hends, hentry⟩ := nodeKinds_cons ht.1 indent true
    obtain ⟨u, first, rfl, rfl, -⟩ := List.map_eq_cons_iff.mp (hfirst.trans hkind)
    simp only [List.length_cons, List.length_append] at hfuel
    obtain ⟨n, mid, hnode, hn⟩ := @compose_node t ht.1 indent true .block fuel _ (more ++ b :: k)
      { s with tokens := u :: first ++ (more ++ b :: k) } hfirst nofun nofun (by simp; omega) rfl
    obtain ⟨ns, hi, hitems, hns⟩ := compose_items items ht.2 (m := m)
      (s := { s with tokens := more ++ b :: k, count := mid }) hmore hb (show _ ≤ fuel by omega) rfl
    have hs : s.tokens = x :: u :: (first ++ (more ++ b :: k)) := by rw [hs]; simp
    have hu : u.kind ≠ .blockEntry ∧ u.kind ≠ .blockEnd :=
      ⟨hentry rfl, fun h => by rw [h] at hends; cases hends⟩
    exact ⟨n :: ns, hi, blockItems_item hs hx hu hnode hitems, n, ns, mid, rfl, hn, hns⟩

/-- The items of a sequence without indentation of its own. -/
theorem compose_loose (items : List Tree) (ht : OrdinaryAll items) {indent fuel : Nat}
    {ts k : List Token} {b : Token} {s : Composition} (hts : ts.map (·.kind) = itemsKinds indent items)
    (hb : b.kind ≠ .blockEntry) (hpos : 0 < fuel) (hfuel : 2 * ts.length ≤ fuel + 1)
    (hs : s.tokens = ts ++ b :: k) :
    ∃ ns hi, looseItems fuel s = .ok (ns, { s with tokens := b :: k, count := hi }) ∧
      ShapeAll s.count ns (heardItems indent items) hi := by
  obtain ⟨fuel, rfl⟩ : ∃ m, fuel = m + 1 := ⟨fuel - 1, by omega⟩
  cases items with
  | nil =>
    obtain rfl : ts = [] := List.map_eq_nil_iff.mp hts
    refine ⟨[], s.count, (looseItems_end hs hb).trans ?_, rfl, rfl⟩
    rw [← List.nil_append (b :: k), ← hs]
  | cons t items =>
    obtain ⟨x, rest, rfl, hx, hrest⟩ := List.map_eq_cons_iff.mp hts
    obtain ⟨first, more, rfl, hfirst, hmore⟩ := List.map_eq_append_iff.mp hrest
    obtain ⟨kind, kinds, hkind, hends, hentry⟩ := nodeKinds_cons ht.1 indent true
    obtain ⟨u, first, rfl, rfl, -⟩ := List.map_eq_cons_iff.mp (hfirst.trans hkind)
    simp only [List.length_cons, List.length_append] at hfuel
    obtain ⟨n, mid, hnode, hn⟩ := @compose_node t ht.1 indent true .block fuel _ (more ++ b :: k)
      { s with tokens := u :: first ++ (more ++ b :: k) } hfirst nofun nofun (by simp; omega) rfl
    obtain ⟨ns, hi, hitems, hns⟩ := compose_loose items ht.2
      (s := { s with tokens := more ++ b :: k, count := mid }) hmore hb (show 0 < fuel by omega) (by omega) rfl
    have hs : s.tokens = x :: u :: (first ++ (more ++ b :: k)) := by rw [hs]; simp
    exact ⟨n :: ns, hi, looseItems_item hs hx ⟨hentry rfl, hends⟩ hnode hitems, n, ns, mid, rfl, hn, hns⟩

/-- The entries of a block mapping. -/
theorem compose_entries (es : List (Tree × Tree)) (ht : OrdinaryEntries es) {indent fuel : Nat} {m : Mark}
    {ts k : List Token} {b : Token} {s : Composition} (hts : ts.map (·.kind) = entriesKinds indent es)
    (hb : b.kind = .blockEnd) (hfuel : 2 * ts.length + 1 ≤ fuel) (hs : s.tokens = ts ++ b :: k) :
    ∃ ns hi, blockEntries fuel m s = .ok (ns, { s with tokens := k, count := hi }) ∧
      ShapeEntries s.count ns (heardEntries indent es) hi := by
  obtain ⟨fuel, rfl⟩ : ∃ m, fuel = m + 1 := ⟨fuel - 1, by omega⟩
  match es, ht, hts with
  | [], _, hts =>
    obtain rfl : ts = [] := List.map_eq_nil_iff.mp hts
    exact ⟨[], s.count, blockEntries_end hs hb, rfl, rfl⟩
  | (key, v) :: es, ht, hts =>
    obtain ⟨⟨tag, t, rfl, ho⟩, hv, hes⟩ := ht
    obtain ⟨x, rest, rfl, hx, hrest⟩ := List.map_eq_cons_iff.mp hts
    obtain ⟨c, rest, rfl, hc, hrest⟩ := List.map_eq_cons_iff.mp hrest
    obtain ⟨y, rest, rfl, hy, hrest⟩ := List.map_eq_cons_iff.mp hrest
    obtain ⟨first, more, rfl, hfirst, hmore⟩ := List.map_eq_append_iff.mp hrest
    obtain ⟨kind, kinds, hkind, hends, -⟩ := nodeKinds_cons hv indent (!isShortKey tag t)
    obtain ⟨u, first, rfl, rfl, -⟩ := List.map_eq_cons_iff.mp (hfirst.trans hkind)
    simp only [List.length_cons, List.length_append] at hfuel
    obtain ⟨fuel, rfl⟩ : ∃ m, fuel = m + 2 := ⟨fuel - 2, by omega⟩
    have htag : scalarTag none (style (isShortKey tag t) tag t = .plain)
        (heard (!isShortKey tag t) (indent + indentStep) tag t) = tag :=
      scalarTag_heard ho
    have hkey := @node_scalar { s with tokens := c :: y :: u :: (first ++ (more ++ b :: k)) } _ _ fuel .blockValue _ _ rfl hc
    rw [htag] at hkey
    obtain ⟨b', k', hk, hb'⟩ := entries_behind hmore hb k
    obtain ⟨n, mid, hnode, hn⟩ := @compose_node v hv indent (!isShortKey tag t) .blockValue (fuel + 1) _ (more ++ b :: k)
      { s with tokens := u :: first ++ (more ++ b :: k), count := s.count + 1 } hfirst nofun
      (fun _ => ⟨rfl, b', k', hk, hb'⟩) (by simp; omega) rfl
    obtain ⟨ns, hi, hentries, hns⟩ := compose_entries es hes (m := m)
      (s := { s with tokens := more ++ b :: k, count := mid }) hmore hb (show _ ≤ fuel + 2 by omega) rfl
    have hs : s.tokens = x :: c :: y :: u :: (first ++ (more ++ b :: k)) := by rw [hs]; simp
    have hcends : endsEntry c.kind = false := by rw [hc]; rfl
    exact ⟨_, hi, blockEntries_entry hs hx (blockPart_node rfl hcends hkey) rfl hy
      (blockPart_node rfl hends hnode) hentries, _, n, ns, _, mid, rfl, ⟨_, rfl, rfl⟩, hn, hns⟩

end

lemma skipEnds_of_ne {t : Token} {rest : List Token} (hs : s.tokens = t :: rest) (ht : t.kind ≠ .documentEnd) :
    skipEnds (fuel + 1) s = .ok ((), s) := by
  rw [skipEnds, bind_ok (peek_cons hs), if_neg ht]
  rfl

/-- A document is its root if the text ends behind it. -/
lemma document_of_node {x t y : Token} {rest : List Token} {n : Node} {s' : Composition}
    (hs : s.tokens = x :: t :: rest) (ht : endsDocument t.kind = false)
    (hnode : node (fuel + 1) .block { s with tokens := t :: rest } = .ok (n, s')) (hs' : s'.tokens = [y])
    (hy : y.kind = .streamEnd) :
    document (fuel + 1) s = .ok (⟨some n, s'.anchored, s'.count⟩, s') := by
  have hpeek := peek_cons (s := { s with tokens := t :: rest }) rfl
  have hroot : root (fuel + 1) { s with tokens := t :: rest } = .ok (some n, s') := by
    rw [root, bind_ok hpeek, if_neg (by simp [ht]), bind_ok hnode]
    rfl
  have hend : documentStart (fuel + 1) s' = .ok (none, s') := by
    rw [documentStart, bind_ok (skipEnds_of_ne hs' (by simp [hy])), bind_ok (peek_cons hs'), if_pos hy]
    rfl
  rw [document, bind_ok (take_cons hs), bind_ok hroot]
  dsimp only
  rw [bind_ok (peek_cons hs'), if_neg (by simp [hy])]
  exact (bind_ok (s := s') rfl).trans (bind_ok hend)

end Compose

/-- The document of the tokens of entries. -/
theorem compose_of_entries {es : List (Tree × Tree)} (ht : OrdinaryEntries es) {t : Tokens}
    (hts : t.tokens.map (·.kind) =
      .streamStart :: .blockMappingStart :: (entriesKinds 0 es ++ [.blockEnd, .streamEnd])) :
    ∃ n hi, Document.ofTokens t = .ok ⟨some n, [], hi⟩ ∧
      Shape 0 n (.mapping Tag.mapping (heardEntries 0 es)) hi := by
  obtain ⟨tokens, fault⟩ := t
  obtain ⟨x, rest, rfl, -, hrest⟩ := List.map_eq_cons_iff.mp hts
  obtain ⟨y, rest, rfl, hy, hrest⟩ := List.map_eq_cons_iff.mp hrest
  obtain ⟨inner, rest, rfl, hinner, hrest⟩ := List.map_eq_append_iff.mp hrest
  obtain ⟨b, rest, rfl, hb, hrest⟩ := List.map_eq_cons_iff.mp hrest
  obtain ⟨z, rfl, hz⟩ := List.map_eq_singleton_iff.mp hrest
  obtain ⟨fuel, hfuel⟩ : ∃ m, 4 * (x :: y :: (inner ++ [b, z])).length + 4 = m + 1 := ⟨_, rfl⟩
  have hlen : 2 * inner.length + 1 ≤ fuel := by
    simp only [List.length_cons, List.length_append, List.length_nil] at hfuel
    omega
  obtain ⟨ns, hi, hentries, hshape⟩ := Compose.compose_entries es ht (m := y.start) (k := [z])
    (s := ⟨inner ++ [b, z], fault, Compose.defaultHandles, 1, [], []⟩) hinner hb hlen rfl
  have hnode := Compose.node_mapping (s := ⟨y :: (inner ++ [b, z]), fault, Compose.defaultHandles, 0, [], []⟩) rfl hy
    (show Compose.Form.block ≠ .flow from nofun) hentries
  have hdocument := Compose.document_of_node
    (s := ⟨x :: y :: (inner ++ [b, z]), fault, Compose.defaultHandles, 0, [], []⟩) rfl (by rw [hy]; rfl) hnode rfl hz
  refine ⟨.mapping ⟨0, Tag.mapping, y.start⟩ ns, hi, ?_, _, ns, rfl, hshape⟩
  rw [Document.ofTokens, hfuel, hdocument]
  rfl

end DocPath.Yaml
