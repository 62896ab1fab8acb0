import DocPath.Proofs.Value.Plain
import DocPath.Proofs.Yaml.Meaning
import DocPath.Proofs.Yaml.Representable
import DocPath.Proofs.Yaml.Scalars

/-! The trees of values that are built from atoms: they are written without tags and anchors, and can be read. Those of
simple values mean the values. -/

namespace DocPath.Yaml

open Layout Yaml.Tree

section Atoms

variable {tag t : Text} {i : Int} {v : Value} {tree : Tree}

/-- The tree of an integer is its digits. -/
lemma tree_of_integer (h : ofValue (.int i) = .ok tree) :
    ∃ t, tree = .scalar Tag.integer t ∧ IsOrdinary Tag.integer t ∧ Value.asName (.int i) = .ok t ∧
      plainScalar Tag.integer t = .ok (.int i) := by
  rw [ofValue, ofScalar] at h
  cases hi : Numeral.writeInteger i with
  | error fault => simp [hi] at h
  | ok t =>
    simp only [hi, Except.ok.injEq] at h
    obtain ⟨ht, hread⟩ := integer_written hi
    have hd := Numeral.isWhole_ofNat i.natAbs
    have hsize := isSize_of_isWhole hd
    refine ⟨t, h.symm, .inr ?_, hi, hread⟩
    rw [ht]
    exact ⟨(tag_integer hd).symm, hsize.allowsPlain_signed, hsize.signed_ne_nil⟩

/-- The trees of atoms are scalars that are written without tags, and their values have names. -/
lemma tree_of_atom (hv : v.IsAtom) (h : ofValue v = .ok tree) :
    ∃ tag t, tree = .scalar tag t ∧ IsOrdinary tag t ∧ IsName tag t := by
  match v, hv with
  | .null, _ =>
    cases h
    exact ⟨_, _, rfl, .inr ⟨rfl, rfl, by decide⟩, ⟨by decide, .null, rfl⟩, .null, _, rfl, rfl⟩
  | .bool true, _ =>
    cases h
    exact ⟨_, _, rfl, .inr ⟨rfl, rfl, by decide⟩, ⟨by decide, .bool true, rfl⟩, .bool true, _, rfl, rfl⟩
  | .bool false, _ =>
    cases h
    exact ⟨_, _, rfl, .inr ⟨rfl, rfl, by decide⟩, ⟨by decide, .bool false, rfl⟩, .bool false, _, rfl, rfl⟩
  | .int i, _ =>
    obtain ⟨t, rfl, ho, hname, hread⟩ := tree_of_integer h
    exact ⟨_, _, rfl, ho, ⟨by decide, _, hread⟩, _, _, hread, hname⟩
  | .float x, _ =>
    cases h
    obtain ⟨htag, hplain, hne, y, hy⟩ := float_written x
    exact ⟨_, _, rfl, .inr ⟨htag.symm, hplain, hne⟩, ⟨by decide, _, hy⟩, _, _, hy, rfl⟩
  | .text u, _ =>
    cases h
    exact ⟨_, _, rfl, .inl rfl, isName_string u⟩

end Atoms

lemma hasIdentity_of_atoms {v : Value} (h : v.OfAtoms) : v.hasIdentity = false := by
  cases v with
  | scalar s =>
    cases s with
    | date d => exact absurd h id
    | dateTime d => exact absurd h id
    | _ => rfl
  | set b xs => exact absurd h id
  | _ => rfl

lemma ofValue_anchor {v : Value} {l : Nat} {t : Tree} (hv : v.OfAtoms) (h : ofValue (.anchor l v) = .ok t) :
    ofValue v = .ok t := by
  obtain ⟨part, hpart, h⟩ := bind_eq_ok h
  rw [if_neg (Bool.eq_false_iff.mp (hasIdentity_of_atoms hv))] at h
  cases h
  exact hpart

mutual

/-- What is built from atoms is written without tags and anchors, and can be read. -/
theorem plain_ofValue : (v : Value) → v.OfAtoms → {t : Tree} → ofValue v = .ok t → Ordinary t ∧ Readable t
  | .null, hv, _, h | .scalar _, hv, _, h => by
    obtain ⟨tag, t, rfl, ho, hname⟩ := tree_of_atom hv h
    exact ⟨ho, hname.readable⟩
  | .list xs, hv, _, h | .tuple xs, hv, _, h => by
    obtain ⟨ts, hts, h⟩ := bind_eq_ok h
    cases h
    exact plain_ofItems xs hv hts
  | .map o es, hv, _, h => by
    obtain ⟨ts, hts, h⟩ := bind_eq_ok h
    cases h
    obtain ⟨ho, hr⟩ := plain_ofEntries es hv hts
    exact ⟨⟨rfl, ho⟩, rfl, hr⟩
  | .anchor _ v, hv, _, h => plain_ofValue v hv (ofValue_anchor hv h)

theorem plain_ofItems : (vs : List Value) → Value.OfAtomsAll vs → {ts : List Tree} → ofItems vs = .ok ts →
    OrdinaryAll ts ∧ ReadableAll ts
  | [], _, _, h => by
    cases h
    exact ⟨trivial, trivial⟩
  | v :: vs, hv, _, h => by
    obtain ⟨t, ht, h⟩ := bind_eq_ok h
    obtain ⟨us, hus, h⟩ := bind_eq_ok h
    cases h
    obtain ⟨ho, hr⟩ := plain_ofValue v hv.1 ht
    obtain ⟨hos, hrs⟩ := plain_ofItems vs hv.2 hus
    exact ⟨⟨ho, hos⟩, hr, hrs⟩

theorem plain_ofEntries : (es : List (Value × Value)) → Value.OfAtomsEntries es → {ts : List (Tree × Tree)} →
    ofEntries es = .ok ts → OrdinaryEntries ts ∧ ReadableEntries ts
  | [], _, _, h => by
    cases h
    exact ⟨trivial, trivial⟩
  | (k, v) :: es, hv, _, h => by
    obtain ⟨key, hkey, h⟩ := bind_eq_ok h
    obtain ⟨t, ht, h⟩ := bind_eq_ok h
    obtain ⟨us, hus, h⟩ := bind_eq_ok h
    cases h
    obtain ⟨tag, name, rfl, hplain, hname⟩ := tree_of_atom hv.1 hkey
    obtain ⟨ho, hr⟩ := plain_ofValue v hv.2.1 ht
    obtain ⟨hos, hrs⟩ := plain_ofEntries es hv.2.2 hus
    exact ⟨⟨⟨tag, name, rfl, hplain⟩, ho, hos⟩, ⟨tag, name, rfl, hname⟩, hr, hrs⟩

end

lemma length_ofEntries {es : List (Value × Value)} {ts : List (Tree × Tree)} (h : ofEntries es = .ok ts) :
    ts.length = es.length := by
  induction es generalizing ts with
  | nil =>
    cases h
    rfl
  | cons e es ih =>
    obtain ⟨key, -, h⟩ := bind_eq_ok h
    obtain ⟨t, -, h⟩ := bind_eq_ok h
    obtain ⟨us, hus, h⟩ := bind_eq_ok h
    cases h
    rw [List.length_cons, List.length_cons, ih hus]

mutual

/-- The tree of a simple value whose keys are texts means it in normal form. -/
theorem meaning_ofValue : (v : Value) → v.Simple → v.TextKeyed → {t : Tree} → ofValue v = .ok t →
    t.meaning = v.normalize.withoutAnchors
  | .null, _, _, _, h | .bool true, _, _, _, h | .bool false, _, _, _, h | .text _, _, _, _, h => by
    cases h
    rfl
  | .int i, _, _, _, h => by
    obtain ⟨t, rfl, -, -, hread⟩ := tree_of_integer h
    rw [Tree.meaning, hread]
    rfl
  | .list xs, hs, hk, _, h | .tuple xs, hs, hk, _, h => by
    obtain ⟨ts, hts, h⟩ := bind_eq_ok h
    cases h
    exact congrArg Value.list (meanings_ofItems xs hs hk hts)
  | .map o es, hs, hk, _, h => by
    obtain ⟨ts, hts, h⟩ := bind_eq_ok h
    cases h
    exact congrArg (Value.map false) (meaningEntries_ofEntries es hs hk.1 hk.2.2 hts)
  | .anchor _ v, hs, hk, _, h =>
    meaning_ofValue v hs hk (ofValue_anchor (v.ofAtoms_of_simple hs hk) h)

theorem meanings_ofItems : (vs : List Value) → Value.SimpleAll vs → Value.TextKeyedAll vs → {ts : List Tree} →
    ofItems vs = .ok ts → meanings ts = Value.withoutAnchorsAll (Value.normalizeAll vs)
  | [], _, _, _, h => by
    cases h
    rfl
  | v :: vs, hs, hk, _, h => by
    obtain ⟨t, ht, h⟩ := bind_eq_ok h
    obtain ⟨us, hus, h⟩ := bind_eq_ok h
    cases h
    exact congrArg₂ List.cons (meaning_ofValue v hs.1 hk.1 ht) (meanings_ofItems vs hs.2 hk.2 hus)

theorem meaningEntries_ofEntries : (es : List (Value × Value)) → Value.SimpleEntries es →
    (∀ e ∈ es, ∃ t, e.1 = .text t) → Value.TextKeyedEntries es → {ts : List (Tree × Tree)} → ofEntries es = .ok ts →
    meaningEntries ts = Value.withoutAnchorsEntries (Value.normalizeEntries es)
  | [], _, _, _, _, h => by
    cases h
    rfl
  | (k, v) :: es, hs, htexts, hk, _, h => by
    obtain ⟨⟨name, rfl⟩, hrest⟩ := List.forall_mem_cons.mp htexts
    obtain ⟨key, hkey, h⟩ := bind_eq_ok h
    obtain ⟨t, ht, h⟩ := bind_eq_ok h
    obtain ⟨us, hus, h⟩ := bind_eq_ok h
    cases hkey
    cases h
    rw [meaningEntries, meaning_ofValue v hs.1 hk.1 ht, meaningEntries_ofEntries es hs.2 hrest hk.2 hus]
    rfl

end

/-- A tree that is written plainly and means a value, no two keys of which have one name. -/
structure Tells (t : Tree) (v : Value) : Prop where
  ordinary : Ordinary t
  readable : Readable t
  distinct : t.Distinct
  meaning : t.meaning = v

/-- The tree of a simple value whose keys are texts tells it in normal form. -/
theorem tells_ofValue (v : Value) (hs : v.Simple) (hk : v.TextKeyed) {t : Tree} (h : ofValue v.normalize = .ok t) :
    Tells t v.normalize.withoutAnchors := by
  rw [ofValue_normalize] at h
  obtain ⟨ho, hr⟩ := plain_ofValue v (v.ofAtoms_of_simple hs hk) h
  have hm := meaning_ofValue v hs hk h
  exact ⟨ho, hr, (distinct_iff_textKeyed t hr).mpr (hm ▸ v.textKeyed_normalize hk), hm⟩

end DocPath.Yaml
