import DocPath.Value.Normal
import DocPath.Number.Shortest
import Mathlib.Data.List.Nodup

/-! The values that formats carry: mappings with texts as names, and values without the labels of shared
parts. -/

namespace DocPath.Value

mutual

/-- Without the anchors of shared parts. -/
def withoutAnchors : Value → Value
  | .list xs => .list (withoutAnchorsAll xs)
  | .tuple xs => .tuple (withoutAnchorsAll xs)
  | .map o es => .map o (withoutAnchorsEntries es)
  | .anchor _ v => withoutAnchors v
  | v => v

def withoutAnchorsAll : List Value → List Value
  | [] => []
  | v :: vs => withoutAnchors v :: withoutAnchorsAll vs

def withoutAnchorsEntries : List (Value × Value) → List (Value × Value)
  | [] => []
  | (k, v) :: es => (k, withoutAnchors v) :: withoutAnchorsEntries es

end

mutual

/-- The keys of all mappings are texts, none twice in a mapping. -/
def TextKeyed : Value → Prop
  | .list xs => TextKeyedAll xs
  | .tuple xs => TextKeyedAll xs
  | .sequence _ xs => TextKeyedAll xs
  | .map _ es => (∀ e ∈ es, ∃ t, e.1 = .text t) ∧ (es.map (·.1)).Nodup ∧ TextKeyedEntries es
  | .anchor _ v => TextKeyed v
  | _ => True

def TextKeyedAll : List Value → Prop
  | [] => True
  | v :: vs => TextKeyed v ∧ TextKeyedAll vs

def TextKeyedEntries : List (Value × Value) → Prop
  | [] => True
  | (_, v) :: es => TextKeyed v ∧ TextKeyedEntries es

end

mutual

/-- Built from null, truth values, integers and texts by sequences and mappings. -/
def Simple : Value → Prop
  | .null => True
  | .bool _ => True
  | .int _ => True
  | .text _ => True
  | .list xs => SimpleAll xs
  | .tuple xs => SimpleAll xs
  | .map _ es => SimpleEntries es
  | .anchor _ v => Simple v
  | _ => False

def SimpleAll : List Value → Prop
  | [] => True
  | v :: vs => Simple v ∧ SimpleAll vs

def SimpleEntries : List (Value × Value) → Prop
  | [] => True
  | (_, v) :: es => Simple v ∧ SimpleEntries es

end

/-- Null, truth values, numbers and texts. -/
def IsAtom : Value → Prop
  | .null => True
  | .bool _ => True
  | .int _ => True
  | .float _ => True
  | .text _ => True
  | _ => False

mutual

/-- Built from atoms by sequences and mappings that have atoms for keys. -/
def OfAtoms : Value → Prop
  | .list xs => OfAtomsAll xs
  | .tuple xs => OfAtomsAll xs
  | .map _ es => OfAtomsEntries es
  | .anchor _ v => OfAtoms v
  | v => IsAtom v

def OfAtomsAll : List Value → Prop
  | [] => True
  | v :: vs => OfAtoms v ∧ OfAtomsAll vs

def OfAtomsEntries : List (Value × Value) → Prop
  | [] => True
  | (k, v) :: es => IsAtom k ∧ OfAtoms v ∧ OfAtomsEntries es

end

mutual

/-- The floating-point numbers in a value, keys apart. -/
def floats : Value → List Binary64
  | .float x => [x]
  | .list xs => floatsAll xs
  | .tuple xs => floatsAll xs
  | .sequence _ xs => floatsAll xs
  | .map _ es => floatsEntries es
  | .anchor _ v => floats v
  | _ => []

def floatsAll : List Value → List Binary64
  | [] => []
  | v :: vs => floats v ++ floatsAll vs

def floatsEntries : List (Value × Value) → List Binary64
  | [] => []
  | (_, v) :: es => floats v ++ floatsEntries es

end

mutual

theorem ofAtoms_of_simple : (v : Value) → v.Simple → v.TextKeyed → v.OfAtoms
  | .null, _, _ | .bool _, _, _ | .int _, _, _ | .text _, _, _ => trivial
  | .list xs, hs, hk | .tuple xs, hs, hk => ofAtomsAll_of_simple xs hs hk
  | .map _ es, hs, hk => ofAtomsEntries_of_simple es hs hk.1 hk.2.2
  | .anchor _ v, hs, hk => ofAtoms_of_simple v hs hk

theorem ofAtomsAll_of_simple : (vs : List Value) → SimpleAll vs → TextKeyedAll vs → OfAtomsAll vs
  | [], _, _ => trivial
  | v :: vs, hs, hk => ⟨ofAtoms_of_simple v hs.1 hk.1, ofAtomsAll_of_simple vs hs.2 hk.2⟩

theorem ofAtomsEntries_of_simple : (es : List (Value × Value)) → SimpleEntries es → (∀ e ∈ es, ∃ t, e.1 = .text t) →
    TextKeyedEntries es → OfAtomsEntries es
  | [], _, _, _ => trivial
  | (k, v) :: es, hs, htexts, hk => by
    obtain ⟨⟨t, rfl⟩, hrest⟩ := List.forall_mem_cons.mp htexts
    exact ⟨trivial, ofAtoms_of_simple v hs.1 hk.1, ofAtomsEntries_of_simple es hs.2 hrest hk.2⟩

end

mutual

/-- The normal form has the numbers of the value. -/
theorem floats_normalize : (v : Value) → v.normalize.floats = v.floats
  | .null | .scalar _ | .range .. | .sequence .. | .set .. | .alias _ => rfl
  | .list xs | .tuple xs => floatsAll_normalizeAll xs
  | .map _ es => floatsEntries_normalizeEntries es
  | .anchor _ v => floats_normalize v

theorem floatsAll_normalizeAll : (vs : List Value) → floatsAll (normalizeAll vs) = floatsAll vs
  | [] => rfl
  | v :: vs => by rw [normalizeAll, floatsAll, floatsAll, floats_normalize v, floatsAll_normalizeAll vs]

theorem floatsEntries_normalizeEntries : (es : List (Value × Value)) → floatsEntries (normalizeEntries es) = floatsEntries es
  | [] => rfl
  | (k, v) :: es => by
    rw [normalizeEntries, floatsEntries, floatsEntries, floats_normalize v, floatsEntries_normalizeEntries es]

end

lemma keys_normalizeEntries (es : List (Value × Value)) :
    (withoutAnchorsEntries (normalizeEntries es)).map (·.1) = es.map (·.1) := by
  induction es with
  | nil => rfl
  | cons e es ih => rw [normalizeEntries, withoutAnchorsEntries, List.map_cons, List.map_cons, ih]

mutual

theorem textKeyed_normalize : (v : Value) → v.TextKeyed → v.normalize.withoutAnchors.TextKeyed
  | .list xs, h | .tuple xs, h => textKeyedAll_normalizeAll xs h
  | .map _ es, ⟨htexts, hnodup, hvalues⟩ => by
    have hkeys := keys_normalizeEntries es
    refine ⟨fun e he => ?_, hkeys ▸ hnodup, textKeyedEntries_normalizeEntries es hvalues⟩
    have hmem := List.mem_map_of_mem (f := (·.1)) he
    rw [hkeys] at hmem
    obtain ⟨e', he', heq⟩ := List.mem_map.mp hmem
    exact heq ▸ htexts e' he'
  | .sequence _ _, h => h
  | .anchor _ v, h => textKeyed_normalize v h
  | .null, _ | .scalar _, _ | .range .., _ | .set .., _ | .alias _, _ => trivial

theorem textKeyedAll_normalizeAll : (vs : List Value) → TextKeyedAll vs →
    TextKeyedAll (withoutAnchorsAll (normalizeAll vs))
  | [], _ => trivial
  | v :: vs, h => ⟨textKeyed_normalize v h.1, textKeyedAll_normalizeAll vs h.2⟩

theorem textKeyedEntries_normalizeEntries : (es : List (Value × Value)) → TextKeyedEntries es →
    TextKeyedEntries (withoutAnchorsEntries (normalizeEntries es))
  | [], _ => trivial
  | (_, v) :: es, h => ⟨textKeyed_normalize v h.1, textKeyedEntries_normalizeEntries es h.2⟩

end

end DocPath.Value
