import DocPath.Document
import DocPath.Proofs.Payload.Keys
import DocPath.Proofs.Payload.Merges
import DocPath.Proofs.Yaml.Cycles

/-! Documents that are held: which values are kept as they are, which become lists and which are refused, and which
documents contain themselves. -/

namespace DocPath

namespace Value

/-- A list, a mapping or a set. -/
inductive IsContainer : Value → Prop
  | list (xs : List Value) : IsContainer (.list xs)
  | map (o : Bool) (es : List (Value × Value)) : IsContainer (.map o es)
  | set (f : Bool) (xs : List Value) : IsContainer (.set f xs)

lemma IsContainer.change {g : Value → Value} {v : Value} (hg : Descends g) (h : IsContainer v) : IsContainer (g v) := by
  cases h with
  | list xs => exact hg.list xs ▸ .list _
  | map o es => exact hg.map o es ▸ .map o _
  | set f xs => exact hg.set f xs ▸ .set f _

lemma IsContainer.opened {v : Value} (h : IsContainer v) : v.opened.IsContainer := by
  cases h with
  | list xs => exact .list xs
  | map o es => exact .map o es
  | set f xs => exact .set f xs

lemma IsContainer.opened_anchor {l : Nat} {v : Value} (h : IsContainer v) : (anchor l v).opened.IsContainer := by
  rw [Value.opened]
  exact h.opened.change (descends_fill l (.anchor l v) [])

lemma IsContainer.opened_pruned {v : Value} {l : Nat} (h : IsContainer v) : (pruned (.anchor l v)).opened.IsContainer := by
  rw [pruned]
  generalize repeated (Value.anchor l v).labels = shared
  have hcontent : (prune shared v).IsContainer := h.change (descends_prune shared)
  simp only [prune]
  split_ifs
  · exact hcontent.opened_anchor
  · exact hcontent.opened
  · exact hcontent.opened_anchor
  · exact hcontent.opened

end Value

namespace Yaml

open Make Value

/-- What the root tells of the value of a document. -/
inductive Tops (root : Node) (v : Value) : Prop
  | container (opened : v.opened.IsContainer) (tag : isCollectionTag root.head.tag = true)
  | null (eq : v = .null) (tag : root.head.tag ≠ Tag.binary)
  | scalar {s : Scalar} (eq : v = .scalar s) (tag : root.head.tag ≠ Tag.binary) (bytes : ∀ bs, s ≠ .bytes bs)
      (byteArray : ∀ bs, s ≠ .byteArray bs)
  | bytes {bs : List UInt8} (eq : v = .bytes bs) (tag : root.head.tag = Tag.binary)

variable {d : Document} {root : Node} {rule : KeyRule} {v : Value}

lemma Make.Filled.container {s : Making} {n : Node} (h : Filled d rule s n) :
    ∃ c, s.contents.lookup n.head.id = some c ∧ c.IsContainer := by
  cases h with
  | sequence _ _ content => exact ⟨_, content, .list _⟩
  | pairs _ _ content => exact ⟨_, content, .list _⟩
  | set _ _ _ content => exact ⟨_, content, .set _ _⟩
  | mapping _ _ _ content => exact ⟨_, content, .map _ _⟩
  | blank _ _ _ content => exact ⟨_, content, .map _ _⟩

theorem Document.tops_of_value (hd : Numbered d root) (hclosed : Closed d root) (hroot : d.root = some root)
    (h : d.value rule = .ok v) : Tops (follow d.source root) v := by
  obtain ⟨s, w, hs, hw, rfl⟩ := Document.complete_of_value hd hclosed hroot h
  have hmem := Node.mem_parts_self root
  have hvalue := hs.isValueOf hd hclosed hmem hw
  cases htag : isCollectionTag (follow d.source root).head.tag with
  | true =>
    obtain ⟨c, hc, hcontainer⟩ :=
      (hs.filled (follow_mem hd hmem) (hclosed root hmem) hw.isDone htag).container
    rw [hvalue.link htag]
    have hunfold : (Value.alias (follow d.source root).head.id).unfold s.contents =
        .anchor (follow d.source root).head.id
          (substitute (unfoldLabel s.contents s.contents.length [(follow d.source root).head.id]) c) := by
      rw [Value.unfold, substitute, unfoldLabel, hc]
      rfl
    rw [hunfold]
    exact .container (hcontainer.change (descends_substitute _)).opened_pruned htag
  | false =>
    obtain ⟨tag, hof, -, hscalar⟩ := hvalue.scalar htag
    rw [hscalar.unfold]
    have hbinary : tag = Tag.binary ↔ (follow d.source root).head.tag = Tag.binary := hof.eq_iff (by decide) (by decide)
    cases hscalar with
    | null => exact .null rfl (hbinary.not.mp (by decide))
    | bytes bs => exact .bytes rfl (hbinary.mp rfl)
    | _ => exact .scalar rfl (hbinary.not.mp (by decide)) (by simp) (by simp)

end Yaml

open Yaml Make Relation

namespace Payload

/-- A payload is YAML that is composed to a document. -/
structure Composes (contentType : Text) (p : Payload) (d : Yaml.Document) : Prop where
  yaml : ContentType.format? contentType = some .yaml
  text : ∃ t, p.toText contentType = .ok t ∧ compose t = .ok d

/-- A payload is YAML whose root is tagged as binary data. -/
def IsBinary (contentType : Text) (p : Payload) : Prop :=
  ∃ d root, Composes contentType p d ∧ d.root = some root ∧ (follow d.source root).head.tag = Tag.binary

/-- A payload is YAML with a sequence that lies in itself. -/
def HasLoop (contentType : Text) (p : Payload) : Prop :=
  ∃ d root, Composes contentType p d ∧ d.root = some root ∧
    ∃ n ∈ root.parts, n.kind = .sequence ∧ TransGen (Inside d) n n

/-- Where the value of a payload comes from. -/
inductive Decoded (contentType : Text) (p : Payload) : Value → Prop
  | json {v : Value} (format : ContentType.format? contentType = some .json) (value : Json.IsJson v) :
      Decoded contentType p v
  | empty {d : Yaml.Document} (composes : Composes contentType p d) (root : d.root = none) : Decoded contentType p .null
  | made {d : Yaml.Document} {root : Yaml.Node} {v : Value} (composes : Composes contentType p d)
      (root : d.root = some root) (value : d.value .names = .ok v) : Decoded contentType p v

variable {contentType : Text} {p : Payload} {d d' : Yaml.Document} {root : Yaml.Node} {v : Value}

lemma Composes.unique (h : Composes contentType p d) (h' : Composes contentType p d') : d = d' := by
  obtain ⟨t, ht, hd⟩ := h.text
  obtain ⟨t', ht', hd'⟩ := h'.text
  obtain rfl := Except.ok.inj (ht.symm.trans ht')
  exact Except.ok.inj (hd.symm.trans hd')

lemma Composes.numbered (h : Composes contentType p d) (hroot : d.root = some root) : Numbered d root := by
  obtain ⟨t, -, hd⟩ := h.text
  exact numbered_of_compose hd hroot

lemma Composes.closed (h : Composes contentType p d) (hroot : d.root = some root) : Closed d root := by
  obtain ⟨t, -, hd⟩ := h.text
  exact closed_of_compose hd hroot

theorem decoded_of_decode (h : decode contentType p = .ok v) : Decoded contentType p v := by
  have hdecode := h
  obtain ⟨format, hformat, h⟩ := bind_eq_ok h
  obtain ⟨t, ht, h⟩ := bind_eq_ok h
  have hformat : ContentType.format? contentType = some format := by
    rw [ContentType.format] at hformat
    split at hformat
    · next f hf => exact hf.trans (congrArg some (Except.ok.inj hformat))
    · cases hformat
  cases format with
  | json => exact .json hformat (Json.isJson_of_read (mapError_eq_ok h))
  | yaml =>
    rw [decode_yaml hformat ht] at hdecode
    obtain ⟨d, hd, hv⟩ := bind_eq_ok (mapError_eq_ok hdecode)
    have hcomposes : Composes contentType p d := ⟨hformat, t, ht, hd⟩
    cases hroot : d.root with
    | some root => exact .made hcomposes hroot hv
    | none =>
      rw [Document.value.eq_def, hroot] at hv
      obtain rfl := Except.ok.inj hv
      exact .empty hcomposes hroot

/-- Only a root that is tagged as binary data gives a byte string, which counts as no sequence. -/
lemma Decoded.not_bytes (h : Decoded contentType p v) (hbinary : ¬IsBinary contentType p) (bs : List UInt8) :
    v.opened ≠ .bytes bs ∧ v.opened ≠ .scalar (.byteArray bs) := by
  cases h with
  | json _ value => cases value <;> exact ⟨nofun, nofun⟩
  | empty => exact ⟨nofun, nofun⟩
  | made composes root value =>
    cases Document.tops_of_value (composes.numbered root) (composes.closed root) root value with
    | container opened =>
      constructor <;> intro heq <;> rw [heq] at opened <;> cases opened
    | null eq => exact ⟨eq ▸ nofun, eq ▸ nofun⟩
    | scalar eq _ bytes byteArray =>
      subst eq
      exact ⟨fun h => bytes bs (Value.scalar.inj h), fun h => byteArray bs (Value.scalar.inj h)⟩
    | bytes _ tag => exact absurd ⟨_, _, composes, root, tag⟩ hbinary

lemma Decoded.bytes (h : Decoded contentType p v) (hbinary : IsBinary contentType p) : ∃ bs, v = .bytes bs := by
  obtain ⟨d, root, hcomposes, hroot, htag⟩ := hbinary
  cases h with
  | json format =>
    rw [hcomposes.yaml] at format
    cases format
  | empty composes root =>
    obtain rfl := hcomposes.unique composes
    rw [hroot] at root
    cases root
  | made composes root value =>
    obtain rfl := hcomposes.unique composes
    obtain rfl := Option.some.inj (hroot.symm.trans root)
    cases Document.tops_of_value (composes.numbered root) (composes.closed root) root value with
    | container _ tag =>
      rw [htag] at tag
      exact absurd tag (by decide)
    | null _ tag => exact absurd htag tag
    | scalar _ tag => exact absurd htag tag
    | bytes eq => exact ⟨_, eq⟩

lemma Decoded.not_isCyclic (h : Decoded contentType p v) (hloop : ¬HasLoop contentType p) : v.isCyclic = false := by
  cases h with
  | json _ value =>
    rw [← Bool.not_eq_true, Value.isCyclic_iff]
    rintro ⟨l, hl⟩
    exact value.not_refers hl
  | empty => rfl
  | made composes root value =>
    obtain ⟨s, w, hs, hw, rfl⟩ := Document.complete_of_value (composes.numbered root) (composes.closed root) root value
    rw [← Bool.not_eq_true, Value.isCyclic_pruned]
    intro hcyclic
    exact hloop ⟨_, _, composes, root, hs.sequence_of_cyclic (composes.numbered root) (composes.closed root) hw hcyclic⟩

end Payload

namespace Document

variable {settings : Config} {stated : Option Text} {contentType : Text} {p : Payload} {v : Value} {doc : DocPath.Document}

lemma ofPayload_of_decode (ht : Document.contentType stated settings = .ok contentType)
    (hv : p.decode contentType = .ok v) : (ofPayload settings stated p).2 = ofRoot v := by
  obtain ⟨format, hformat, -⟩ := bind_eq_ok hv
  rw [ofPayload, ht]
  dsimp only
  rw [hformat, hv]

lemma decode_of_ofPayload (ht : Document.contentType stated settings = .ok contentType)
    (h : (ofPayload settings stated p).2 = .ok doc) : ∃ v, p.decode contentType = .ok v ∧ ofRoot v = .ok doc := by
  rw [ofPayload, ht] at h
  dsimp only at h
  split at h
  · cases h
  · dsimp only at h
    split at h
    · cases h
    · next v hv => exact ⟨v, hv, h⟩

/-- Of a payload that is decoded, a mapping is held as it is and a sequence as a list of its items. Anything else is
refused, unless the payload is YAML whose root is tagged as binary data: its bytes are held as a list of numbers. -/
theorem held_of_decode (ht : Document.contentType stated settings = .ok contentType)
    (hv : p.decode contentType = .ok v) :
    (∀ entries, v.node = .mapping entries → (ofPayload settings stated p).2 = .ok ⟨v⟩) ∧
    (∀ items, v.node = .sequence items → (ofPayload settings stated p).2 = .ok ⟨.list items.toList⟩) ∧
    ((∀ entries, v.node ≠ .mapping entries) → (∀ items, v.node ≠ .sequence items) → ¬p.IsBinary contentType →
      ∃ fault, (ofPayload settings stated p).2 = .error fault ∧ fault = .noCollection v.opened.type ∧
        fault.kind = .value) ∧
    (p.IsBinary contentType → ∃ bs, v = .bytes bs ∧
      (ofPayload settings stated p).2 = .ok ⟨.list (bs.map fun b => .int b.toNat)⟩) := by
  have hdecoded := Payload.decoded_of_decode hv
  rw [ofPayload_of_decode ht hv]
  refine ⟨fun entries hnode => ?_, fun items hnode => ?_, fun hmapping hsequence hbinary => ?_, fun hbinary => ?_⟩
  · rw [ofRoot, hnode]
  · rw [ofRoot, hnode]
  · refine ⟨.noCollection v.opened.type, ?_, rfl, rfl⟩
    rw [ofRoot]
    split
    · next entries hnode => exact absurd hnode (hmapping entries)
    · next items hnode => exact absurd hnode (hsequence items)
    · split
      · next bs heq => exact absurd heq (hdecoded.not_bytes hbinary bs).1
      · next bs heq => exact absurd heq (hdecoded.not_bytes hbinary bs).2
      · rfl
  · obtain ⟨bs, rfl⟩ := hdecoded.bytes hbinary
    exact ⟨bs, rfl, rfl⟩

/-- A set, which only a tag makes, is refused. -/
theorem held_of_decode_set :
    let p : Payload := .text "!!set {a, b}\n"
    let v : Value := .set false [.text "a", .text "b"]
    p.decode "application/yaml" = .ok v ∧
      (ofPayload Config.default (some "application/yaml") p).2 = .error (.noCollection ⟨"", "set"⟩) := by
  intro p v
  have ht : Document.contentType (some "application/yaml") Config.default = .ok "application/yaml" := rfl
  have hv : p.decode "application/yaml" = .ok v := by decide +kernel
  obtain ⟨-, -, hrefused, hbytes⟩ := held_of_decode ht hv
  have hbinary : ¬p.IsBinary "application/yaml" := by
    intro hbinary
    obtain ⟨bs, hbs, -⟩ := hbytes hbinary
    exact absurd (show Value.set false _ = .bytes bs from hbs) nofun
  obtain ⟨fault, heq, rfl, -⟩ := hrefused nofun nofun hbinary
  exact ⟨hv, heq⟩

/-- A byte string is a scalar, but is held as a list of numbers. -/
theorem held_of_binary :
    let p : Payload := .text "!!binary aGVsbG8="
    let v : Value := .bytes [104, 101, 108, 108, 111]
    p.decode "application/yaml" = .ok v ∧ v.node = .scalar ⟨"", "bytes"⟩ ∧
      (ofPayload Config.default (some "application/yaml") p).2 =
        .ok ⟨.list [.int 104, .int 101, .int 108, .int 108, .int 111]⟩ := by
  intro p v
  exact ⟨by decide +kernel, rfl, by decide +kernel⟩

/-- What is held contains itself only if the value does. -/
lemma isCyclic_of_ofRoot (h : ofRoot v = .ok doc) (hcyclic : doc.root.isCyclic = true) : v.isCyclic = true := by
  rw [ofRoot] at h
  split at h
  · cases h
    exact hcyclic
  · next items hnode =>
    cases h
    refine Value.isCyclic_of_opened ?_
    obtain ⟨l, hl⟩ := Value.isCyclic_iff.mp hcyclic
    refine Value.isCyclic_iff.mpr ⟨l, ?_⟩
    rw [Value.node] at hnode
    split at hnode
    · cases hnode
    · cases hnode
    · next xs heq =>
      cases hnode
      exact heq ▸ hl
    · next xs heq =>
      cases hnode
      exact heq ▸ Value.refers_tuple.mpr (Value.refers_list.mp hl)
    · next type xs heq =>
      cases hnode
      exact heq ▸ Value.refers_sequence.mpr (Value.refers_list.mp hl)
    · cases hnode
      obtain ⟨x, hx, hl⟩ := Value.refers_list.mp hl
      obtain ⟨i, -, rfl⟩ := List.mem_map.mp hx
      exact absurd hl Value.not_refers_scalar
    · cases hnode
  · have hnumbers {bs : List UInt8} (hdoc : doc = ⟨.list (bs.map fun b => .int b.toNat)⟩) : v.isCyclic = true := by
      subst hdoc
      obtain ⟨l, hl⟩ := Value.isCyclic_iff.mp hcyclic
      obtain ⟨x, hx, hl⟩ := Value.refers_list.mp hl
      obtain ⟨b, -, rfl⟩ := List.mem_map.mp hx
      exact absurd hl Value.not_refers_scalar
    split at h
    · exact hnumbers (Except.ok.inj h).symm
    · exact hnumbers (Except.ok.inj h).symm
    · cases h

/-- No part of a document that is held contains itself, and so the document has a normal form, unless the payload is YAML
with a sequence that lies in itself. -/
theorem acyclic_of_payload (ht : Document.contentType stated settings = .ok contentType)
    (h : (ofPayload settings stated p).2 = .ok doc) (hloop : ¬p.HasLoop contentType) :
    doc.root.isCyclic = false ∧ doc.root.normal? = some doc.root.normalize := by
  obtain ⟨v, hv, hroot⟩ := decode_of_ofPayload ht h
  have hacyclic : doc.root.isCyclic = false := by
    have hfinite := (Payload.decoded_of_decode hv).not_isCyclic hloop
    rw [← Bool.not_eq_true] at hfinite ⊢
    exact fun hcyclic => hfinite (isCyclic_of_ofRoot hroot hcyclic)
  exact ⟨hacyclic, by rw [Value.normal?, hacyclic]; rfl⟩

/-- A sequence that is there twice does not lie in itself. -/
theorem acyclic_of_payload_shared :
    let p : Payload := .text "x: &a [1, 2]\ny: *a\n"
    let doc : DocPath.Document := ⟨.map false [(.text "x", .list [.int 1, .int 2]), (.text "y", .list [.int 1, .int 2])]⟩
    (ofPayload Config.default (some "application/yaml") p).2 = .ok doc ∧ doc.root.isCyclic = false := by
  intro p doc
  have ht : Document.contentType (some "application/yaml") Config.default = .ok "application/yaml" := rfl
  have hdoc : (ofPayload Config.default (some "application/yaml") p).2 = .ok doc := by decide +kernel
  have hflat : ((compose "x: &a [1, 2]\ny: *a\n").toOption.bind fun d => d.root.map fun root =>
      decide (∀ n ∈ root.parts, n.kind = .sequence → n.head.tag = Tag.sequence ∧
        ∀ c ∈ n.children, (follow d.source c).kind = .scalar)) = some true := by decide +kernel
  have hloop : ¬p.HasLoop "application/yaml" := by
    rintro ⟨d, root, hcomposes, hroot, n, hn, hkind, hcycle⟩
    obtain ⟨d', root', hd', hroot', hdecided⟩ := Payload.composed hflat
    obtain rfl : d' = d := Payload.Composes.unique ⟨by decide +kernel, _, rfl, hd'⟩ hcomposes
    obtain rfl := Option.some.inj (hroot.symm.trans hroot')
    obtain ⟨htag, hscalars⟩ := of_decide_eq_true hdecided n hn hkind
    obtain ⟨m, hm, hback⟩ := TransGen.head'_iff.mp hcycle
    have hscalar : m.kind = .scalar := by
      cases hm with
      | item _ mem => exact hscalars _ mem
      | @pair h items _ _ _ tag =>
        rw [show h.tag = Tag.sequence from htag] at tag
        exact absurd tag (by decide)
      | entry => cases hkind
    rcases hback.cases_head with rfl | ⟨c, hc, -⟩
    · rw [hkind] at hscalar
      cases hscalar
    · cases hc <;> cases hscalar
  exact ⟨hdoc, (acyclic_of_payload ht hdoc hloop).1⟩

/-- A sequence that is its own item is held, and has no normal form. -/
theorem cyclic_of_alias :
    let p : Payload := .text "x: &a [*a]\n"
    let doc : DocPath.Document := ⟨.map false [(.text "x", .anchor 2 (.list [.alias 2]))]⟩
    (ofPayload Config.default (some "application/yaml") p).2 = .ok doc ∧ doc.root.isCyclic = true ∧
      doc.root.normal? = none := by
  intro p doc
  exact ⟨by decide +kernel, by decide +kernel, by decide +kernel⟩

end Document

end DocPath
