import DocPath.Proofs.Text
import DocPath.Proofs.Yaml.Nodes
import DocPath.Yaml.Meaning
import Mathlib.Data.List.Nodup
import Mathlib.Data.List.Perm.Subperm
import Mathlib.Tactic.SplitIfs

/-! Composing only goes forward in its tokens, gives every node a number of its own and keeps the nodes that
have anchors, so that in the end every alias stands for a node. -/

namespace DocPath.Yaml

open Yaml.Node

/-- Whether a node is no alias. -/
def Node.isSolid : Node → Bool
  | .alias _ => false
  | _ => true

/-- The numbers of the nodes that are no aliases. -/
def numbers (ns : List Node) : List Nat := (ns.filter isSolid).map (·.head.id)

section Numbers

variable {ns ms : List Node}

@[simp] lemma numbers_nil : numbers [] = [] := rfl

lemma numbers_cons_solid {n : Node} (h : n.isSolid = true) : numbers (n :: ns) = n.head.id :: numbers ns := by
  rw [numbers, List.filter_cons_of_pos h]
  rfl

lemma numbers_perm (h : ns.Perm ms) : (numbers ns).Perm (numbers ms) := (h.filter _).map _

end Numbers

namespace Compose

/-- A number is that of a node which is kept, or will be: the numbers that are set aside for nodes with an anchor
are marked. The numbers `known` were bound at first. -/
def Bound (known : List Nat) (rs : List (Nat × Bool)) (s : Composition) (id : Nat) : Prop :=
  id ∈ known ∨ (id, true) ∈ rs ∨ id ∈ s.anchored.map (·.1)

/-- The state of composing when the numbers `rs` are set aside for nodes that are being composed and the nodes
`ns` are there. At first there were the tokens `ts`, and the nodes `base` had been kept. -/
structure Grown (ts : List Token) (base : List (Nat × Node)) (known : List Nat) (rs : List (Nat × Bool))
    (ns : List Node) (s : Composition) : Prop where
  tokens : s.tokens <:+ ts
  distinct : (rs.map (·.1) ++ numbers ns).Nodup
  bounded : ∀ i ∈ rs.map (·.1) ++ numbers ns, i < s.count
  counted : rs.length + ns.length ≤ s.count
  anchored : ∀ e ∈ s.anchored, e ∈ base ∨ e.2 ∈ ns ∧ e.2.isSolid = true ∧ e.1 = e.2.head.id
  anchors : ∀ a ∈ s.anchors, Bound known rs s a.2.1
  aliases : ∀ id, .alias id ∈ ns → Bound known rs s id

section Growth

variable {ts : List Token} {base : List (Nat × Node)} {known : List Nat} {rs : List (Nat × Bool)} {ns ms : List Node}
  {s : Composition}

lemma Grown.perm (h : Grown ts base known rs ns s) (hperm : ms.Perm ns) : Grown ts base known rs ms s := by
  have hnumbers : (rs.map (·.1) ++ numbers ms).Perm (rs.map (·.1) ++ numbers ns) :=
    (numbers_perm hperm).append_left _
  exact ⟨h.tokens, hnumbers.nodup_iff.mpr h.distinct, fun i hi => h.bounded i (hnumbers.mem_iff.mp hi),
    hperm.length_eq ▸ h.counted,
    fun e he => (h.anchored e he).imp_right fun hmem => ⟨hperm.mem_iff.mpr hmem.1, hmem.2⟩, h.anchors,
    fun id hid => h.aliases id (hperm.mem_iff.mp hid)⟩

/-- A number that was set aside is given to a node around others, which may be kept. -/
lemma Grown.complete {n : Node} {inner : List Node} {marked : Bool} {anchored : List (Nat × Node)}
    (h : Grown ts base known ((n.head.id, marked) :: rs) (inner ++ ns) s) (hparts : n.parts = n :: inner)
    (hsolid : n.isSolid = true) (hkept : ∀ e ∈ anchored, e ∈ s.anchored ∨ e = (n.head.id, n))
    (hbound : ∀ id, Bound known ((n.head.id, marked) :: rs) s id → Bound known rs { s with anchored := anchored } id) :
    Grown ts base known rs (n.parts ++ ns) { s with anchored := anchored } := by
  have hnumbers : (rs.map (·.1) ++ numbers (n.parts ++ ns)).Perm
      (n.head.id :: rs.map (·.1) ++ numbers (inner ++ ns)) := by
    rw [hparts, List.cons_append, numbers_cons_solid hsolid]
    exact List.perm_middle
  have hcounted : rs.length + (n.parts ++ ns).length ≤ s.count := by
    have hcount := h.counted
    simp only [hparts, List.length_append, List.length_cons] at hcount ⊢
    omega
  refine ⟨h.tokens, hnumbers.nodup_iff.mpr h.distinct, fun i hi => h.bounded i (hnumbers.mem_iff.mp hi), hcounted,
    fun e he => ?_, fun a ha => hbound _ (h.anchors a ha), fun id hid => hbound id (h.aliases id ?_)⟩
  · rw [hparts]
    rcases hkept e he with he | rfl
    · exact (h.anchored e he).imp_right fun hmem => ⟨List.mem_cons_of_mem _ hmem.1, hmem.2⟩
    · exact .inr ⟨List.mem_cons_self, hsolid, rfl⟩
  · rw [hparts] at hid
    refine (List.mem_cons.mp hid).resolve_left fun heq => ?_
    rw [← heq] at hsolid
    cases hsolid

lemma Bound.of_unmarked {id id' : Nat} (h : Bound known ((id', false) :: rs) s id) : Bound known rs s id := by
  refine h.imp_right fun h => h.imp_left fun hmem => ?_
  exact (List.mem_cons.mp hmem).resolve_left fun heq => by cases heq

lemma Grown.cons_alias {id id' : Nat} (h : Grown ts base known ((id', false) :: rs) ns s)
    (hid : Bound known ((id', false) :: rs) s id) : Grown ts base known rs (.alias id :: ns) s := by
  refine ⟨h.tokens, (List.nodup_cons.mp h.distinct).2, fun i hi => h.bounded i (List.mem_cons_of_mem _ hi), ?_,
    fun e he => (h.anchored e he).imp_right fun hmem => ⟨List.mem_cons_of_mem _ hmem.1, hmem.2⟩,
    fun a ha => (h.anchors a ha).of_unmarked, fun i hi => ?_⟩
  · have hcount := h.counted
    rw [List.length_cons] at hcount ⊢
    omega
  · rcases List.mem_cons.mp hi with heq | hi
    · cases heq
      exact hid.of_unmarked
    · exact (h.aliases i hi).of_unmarked

end Growth

/-- What is composed when `rs` and `ns` are there adds numbers and nodes as told. -/
def Adds (rs : List (Nat × Bool)) (ns : List Node) {α : Type} (x : Compose α) (rs' : α → List (Nat × Bool))
    (ns' : α → List Node) : Prop :=
  ∀ ts base known s a s', Grown ts base known rs ns s → x s = .ok (a, s') → Grown ts base known (rs' a) (ns' a) s'

namespace Adds

variable {rs : List (Nat × Bool)} {ns : List Node} {α β : Type} {x : Compose α} {rs' : α → List (Nat × Bool)}
  {ns' : α → List Node}

lemma pure_of {a : α} (h : ∀ {ts base known s}, Grown ts base known rs ns s → Grown ts base known (rs' a) (ns' a) s) :
    Adds rs ns (Pure.pure a) rs' ns' := by
  intro ts base known s b s' hs heq
  cases heq
  exact h hs

lemma pure {a : α} (hrs : rs' a = rs) (hns : (ns' a).Perm ns) : Adds rs ns (Pure.pure a) rs' ns' :=
  pure_of fun h => hrs ▸ h.perm hns

lemma bind {f : α → Compose β} {rs'' : β → List (Nat × Bool)} {ns'' : β → List Node} (hx : Adds rs ns x rs' ns')
    (hf : ∀ a, Adds (rs' a) (ns' a) (f a) rs'' ns'') : Adds rs ns (x >>= f) rs'' ns'' := by
  intro ts base known s b s' h heq
  obtain ⟨a, t, hrun, heq⟩ := run_bind_eq_ok heq
  exact hf a ts base known t b s' (hx ts base known s a t h hrun) heq

lemma fail {fault : Fault} : Adds rs ns (throw fault : Compose α) rs' ns' := by
  intro ts base known s a s' h heq
  cases heq

lemma failParsing {context : Option (Context × Option Mark)} {problem : Problem} {m : Mark} :
    Adds rs ns (failParsing context problem m : Compose α) rs' ns' := fail

lemma of_tokens (h : ∀ s a s', x s = .ok (a, s') → s'.tokens <:+ s.tokens ∧ s'.count = s.count ∧
    s'.anchored = s.anchored ∧ s'.anchors = s.anchors) : Adds rs ns x (fun _ => rs) fun _ => ns := by
  intro ts base known s a s' hs heq
  obtain ⟨htokens, hcount, hanchored, hanchors⟩ := h s a s' heq
  have hbound {id : Nat} (hid : Bound known rs s id) : Bound known rs s' id := by rwa [Bound, hanchored]
  exact ⟨htokens.trans hs.tokens, hs.distinct, by rw [hcount]; exact hs.bounded, by rw [hcount]; exact hs.counted,
    by rw [hanchored]; exact hs.anchored,
    fun a ha => hbound (hs.anchors a (hanchors ▸ ha)), fun id hid => hbound (hs.aliases id hid)⟩

lemma peek : Adds rs ns peek (fun _ => rs) fun _ => ns := by
  refine of_tokens fun s a s' h => ?_
  rw [Compose.peek] at h
  split at h
  · cases h
    exact ⟨List.suffix_refl _, rfl, rfl, rfl⟩
  · cases h

lemma take : Adds rs ns take (fun _ => rs) fun _ => ns := by
  refine of_tokens fun s a s' h => ?_
  rw [Compose.take] at h
  cases hs : s.tokens with
  | nil => rw [hs] at h; cases h
  | cons t rest =>
    rw [hs] at h
    cases h
    exact ⟨List.suffix_cons _ _, rfl, rfl, rfl⟩

lemma discard : Adds rs ns (discard Compose.take) (fun _ => rs) fun _ => ns := by
  intro ts base known s a s' hs heq
  obtain ⟨r, htake, heq⟩ := bind_eq_ok (x := Compose.take s) heq
  cases heq
  exact take _ _ _ _ _ _ hs htake

lemma read : Adds rs ns (get : Compose Composition) (fun _ => rs) fun _ => ns := by
  refine of_tokens fun s a s' h => ?_
  cases h
  exact ⟨List.suffix_refl _, rfl, rfl, rfl⟩

lemma update {f : Composition → Composition} (hf : ∀ s, (f s).tokens = s.tokens ∧ (f s).count = s.count ∧
    (f s).anchored = s.anchored ∧ (f s).anchors = s.anchors) :
    Adds rs ns (modify f : Compose Unit) (fun _ => rs) fun _ => ns := by
  refine of_tokens fun s a s' h => ?_
  cases h
  obtain ⟨htokens, hrest⟩ := hf s
  exact ⟨⟨[], htokens⟩, hrest⟩

lemma newId (marked : Bool) : Adds rs ns newId (fun id => (id, marked) :: rs) fun _ => ns := by
  intro ts base known s a s' h heq
  cases heq
  have hbound {id : Nat} (hid : Bound known rs s id) :
      Bound known ((s.count, marked) :: rs) { s with count := s.count + 1 } id :=
    hid.imp_right fun h => h.imp_left (List.mem_cons_of_mem _)
  refine ⟨h.tokens, List.nodup_cons.mpr ⟨fun hmem => Nat.lt_irrefl _ (h.bounded _ hmem), h.distinct⟩, ?_, ?_, h.anchored,
    fun a ha => hbound (h.anchors a ha), fun id hid => hbound (h.aliases id hid)⟩
  · exact List.forall_mem_cons.mpr ⟨Nat.lt_succ_self _, fun i hi => Nat.lt_succ_of_lt (h.bounded i hi)⟩
  · rw [List.length_cons, Nat.add_right_comm]
    exact Nat.succ_le_succ h.counted

lemma complete {n : Node} {inner : List Node} (hparts : n.parts = n :: inner) (hsolid : n.isSolid = true) :
    Adds ((n.head.id, false) :: rs) (inner ++ ns) (Pure.pure n) (fun _ => rs) fun n => n.parts ++ ns :=
  pure_of fun h => h.complete hparts hsolid (fun _ => .inl) fun _ => .of_unmarked

lemma named (id : Nat) (name : Text) (m : Mark) :
    Adds ((id, true) :: rs) ns (modify fun s => { s with anchors := (name, id, m) :: s.anchors } : Compose Unit)
      (fun _ => (id, true) :: rs) fun _ => ns := by
  intro ts base known s a s' h heq
  cases heq
  exact ⟨h.tokens, h.distinct, h.bounded, h.counted, h.anchored,
    List.forall_mem_cons.mpr ⟨.inr (.inl List.mem_cons_self), h.anchors⟩, h.aliases⟩

lemma declare (anchor : Option Text) (m : Mark) :
    Adds rs ns (declare anchor m) (fun id => (id, anchor.isSome) :: rs) fun _ => ns := by
  refine (newId anchor.isSome).bind fun id => ?_
  cases anchor with
  | none => exact pure rfl (.refl _)
  | some name =>
    refine read.bind fun s => ?_
    split
    · exact fail
    · exact (named id name m).bind fun _ => pure rfl (.refl _)

/-- A name that has an anchor is bound. No node gets the number of an alias. -/
lemma «alias» (id : Nat) (name : Text) (fault : Fault) :
    Adds ((id, false) :: rs) ns ((do
      match (← get).anchors.lookup name with
      | some (id, _) => return .alias id
      | none => throw fault) : Compose Node) (fun _ => rs) fun n => n.parts ++ ns := by
  intro ts base known s n s' h heq
  obtain ⟨_, _, hget, heq⟩ := run_bind_eq_ok heq
  cases hget
  cases hfound : s.anchors.lookup name with
  | none =>
    rw [hfound] at heq
    cases heq
  | some found =>
    rw [hfound] at heq
    cases heq
    exact h.cons_alias (h.anchors (name, found) (mem_of_lookup hfound))

lemma keep (anchor : Option Text) {id : Nat} {n : Node} {inner : List Node} (hparts : n.parts = n :: inner)
    (hsolid : n.isSolid = true) (hid : n.head.id = id) :
    Adds ((id, anchor.isSome) :: rs) (inner ++ ns) (keep anchor id n) (fun _ => rs) fun n => n.parts ++ ns := by
  subst hid
  intro ts base known s m s' h heq
  rw [Compose.keep] at heq
  split_ifs at heq with hanchor
  · cases heq
    refine h.complete hparts hsolid (fun e he => ?_) fun id hid => ?_
    · exact (List.mem_cons.mp he).elim .inr .inl
    · rcases hid with hid | hid | hid
      · exact .inl hid
      · rcases List.mem_cons.mp hid with heq | hid
        · exact .inr (.inr ((Prod.mk.inj heq).1 ▸ List.mem_cons_self))
        · exact .inr (.inl hid)
      · exact .inr (.inr (List.mem_cons_of_mem _ hid))
  · cases heq
    rw [Bool.not_eq_true] at hanchor
    rw [hanchor] at h
    exact h.complete hparts hsolid (fun _ => .inl) fun _ => .of_unmarked

lemma fullTag (start tagStart : Mark) (handle : Option Text) (suffix : Text) :
    Adds rs ns (fullTag start tagStart handle suffix) (fun _ => rs) fun _ => ns := by
  cases handle with
  | none => exact pure rfl (.refl _)
  | some handle =>
    refine read.bind fun s => ?_
    split
    · exact pure rfl (.refl _)
    · exact failParsing

lemma properties : Adds rs ns properties (fun _ => rs) fun _ => ns := by
  refine peek.bind fun first => ?_
  split
  · refine take.bind fun _ => peek.bind fun second => ?_
    split
    · exact take.bind fun _ => (fullTag _ _ _ _).bind fun _ => pure rfl (.refl _)
    · exact pure rfl (.refl _)
  · refine take.bind fun _ => peek.bind fun second => ?_
    split
    · exact take.bind fun _ => (fullTag _ _ _ _).bind fun _ => pure rfl (.refl _)
    · exact (fullTag _ _ _ _).bind fun _ => pure rfl (.refl _)
  · exact pure rfl (.refl _)

lemma separator (context : Context) (opening : Mark) (close : CodePoint) (first : Bool) :
    Adds rs ns (separator context opening close first) (fun _ => rs) fun _ => ns := by
  refine peek.bind fun t => ?_
  split_ifs
  · exact pure rfl (.refl _)
  · exact take.bind fun _ => pure rfl (.refl _)
  · exact failParsing

end Adds

/-- A composer of one node. -/
def AddsNode (x : Compose Node) : Prop := ∀ rs ns, Adds rs ns x (fun _ => rs) fun n => n.parts ++ ns

/-- A composer of items. -/
def AddsItems (x : Compose (List Node)) : Prop := ∀ rs ns, Adds rs ns x (fun _ => rs) fun xs => partsAll xs ++ ns

/-- A composer of entries. -/
def AddsEntries (x : Compose (List (Node × Node))) : Prop :=
  ∀ rs ns, Adds rs ns x (fun _ => rs) fun es => partsEntries es ++ ns

section Collections

variable {rs : List (Nat × Bool)} {ns : List Node}

lemma adds_emptyScalar (m : Mark) : AddsNode (emptyScalar m) :=
  fun _ _ => (Adds.newId false).bind fun id => @Adds.complete _ _ (.scalar ⟨id, Tag.null, m⟩ []) [] rfl rfl

lemma adds_item {x : Compose Node} {y : Compose (List Node)} (hx : AddsNode x) (hy : AddsItems y) :
    Adds rs ns (x >>= fun item => y >>= fun items => pure (item :: items)) (fun _ => rs)
      fun xs => partsAll xs ++ ns := by
  refine (hx rs ns).bind fun item => (hy rs _).bind fun items => .pure rfl ?_
  rw [partsAll, ← List.append_assoc]
  exact List.perm_append_comm.append_right ns

lemma adds_value {k : Node} {x : Compose Node} {y : Compose (List (Node × Node))} (hx : AddsNode x)
    (hy : AddsEntries y) :
    Adds rs (k.parts ++ ns) (x >>= fun v => y >>= fun es => pure ((k, v) :: es)) (fun _ => rs)
      fun es => partsEntries es ++ ns := by
  refine (hx rs _).bind fun v => (hy rs _).bind fun es => .pure rfl ?_
  rw [partsEntries, ← List.append_assoc, ← List.append_assoc, ← List.append_assoc]
  refine List.Perm.append_right ns ?_
  exact List.perm_append_comm.trans (List.perm_append_comm.append_left _) |>.trans (by simp)

/-- A mapping made of one entry of a sequence, in front of the other items. -/
lemma adds_pair (head : Head) (k v : Node) (items : List Node) :
    Adds ((head.id, false) :: rs) (partsAll items ++ (v.parts ++ (k.parts ++ ns)))
      (pure (.mapping head [(k, v)] :: items)) (fun _ => rs) fun xs => partsAll xs ++ ns := by
  refine .pure_of fun hgrown => ?_
  have hperm : (partsEntries [(k, v)] ++ (partsAll items ++ ns)).Perm
      (partsAll items ++ (v.parts ++ (k.parts ++ ns))) := by
    refine List.perm_append_comm.trans ?_
    rw [List.append_assoc]
    refine List.Perm.append_left _ (List.perm_append_comm.trans ?_)
    simp only [partsEntries, List.append_nil, List.append_assoc]
    rw [← List.append_assoc, ← List.append_assoc]
    exact List.perm_append_comm.append_right ns
  have hnode := (hgrown.perm hperm).complete (n := .mapping head [(k, v)]) rfl rfl (fun _ => .inl) fun _ => .of_unmarked
  rw [← List.append_assoc] at hnode
  exact hnode

end Collections

/-- All that is composed with some fuel numbers its nodes. -/
structure AllAdd (fuel : Nat) : Prop where
  node : ∀ form, AddsNode (node fuel form)
  blockItems : ∀ m, AddsItems (blockItems fuel m)
  looseItems : AddsItems (looseItems fuel)
  blockPart : ∀ m, AddsNode (blockPart fuel m)
  blockEntries : ∀ m, AddsEntries (blockEntries fuel m)
  flowPart : ∀ m ends, AddsNode (flowPart fuel m ends)
  flowValue : ∀ close, AddsNode (flowValue fuel close)
  flowItems : ∀ m first, AddsItems (flowItems fuel m first)
  flowEntries : ∀ m first, AddsEntries (flowEntries fuel m first)

namespace AllAdd

variable {fuel : Nat} {rs : List (Nat × Bool)} {ns : List Node}

lemma zero : AllAdd 0 where
  node _ _ _ := .fail
  blockItems _ _ _ := .fail
  looseItems _ _ := .fail
  blockPart _ _ _ := .fail
  blockEntries _ _ _ := .fail
  flowPart _ _ _ _ := .fail
  flowValue _ _ _ := .fail
  flowItems _ _ _ _ := .fail
  flowEntries _ _ _ _ := .fail

lemma collection (anchor tag : Option Text) (start : Mark) (kindTag : Text) {f : Head → Compose Node}
    (hf : ∀ head : Head, Adds ((head.id, anchor.isSome) :: rs) ns (f head) (fun _ => rs) fun n => n.parts ++ ns) :
    Adds rs ns ((do pure ⟨← declare anchor start, collectionTag tag kindTag, start⟩) >>= f) (fun _ => rs)
      fun n => n.parts ++ ns := by
  have hhead : Adds rs ns (do pure ⟨← declare anchor start, collectionTag tag kindTag, start⟩)
      (fun head : Head => (head.id, anchor.isSome) :: rs) fun _ => ns :=
    (Adds.declare anchor start).bind fun _ => .pure rfl (.refl _)
  exact hhead.bind hf

lemma scalar (anchor : Option Text) (start : Mark) (tag text : Text) :
    Adds rs ns (declare anchor start >>= fun id => keep anchor id (.scalar ⟨id, tag, start⟩ text)) (fun _ => rs)
      fun n => n.parts ++ ns :=
  (Adds.declare anchor start).bind fun id =>
    Adds.keep anchor (show Node.parts (.scalar ⟨id, tag, start⟩ text) = [_] from rfl) rfl rfl

lemma sequence (anchor : Option Text) (head : Head) {x : Compose (List Node)} (hx : AddsItems x) :
    Adds ((head.id, anchor.isSome) :: rs) ns (x >>= fun items => keep anchor head.id (.sequence head items))
      (fun _ => rs) fun n => n.parts ++ ns :=
  (hx _ ns).bind fun items => Adds.keep (n := .sequence head items) anchor rfl rfl rfl

lemma mapping (anchor : Option Text) (head : Head) {x : Compose (List (Node × Node))} (hx : AddsEntries x) :
    Adds ((head.id, anchor.isSome) :: rs) ns (x >>= fun es => keep anchor head.id (.mapping head es))
      (fun _ => rs) fun n => n.parts ++ ns :=
  (hx _ ns).bind fun es => Adds.keep (n := .mapping head es) anchor rfl rfl rfl

lemma node_succ (h : AllAdd fuel) (form : Form) : AddsNode (Compose.node (fuel + 1) form) := by
  intro rs ns
  rw [Compose.node]
  refine Adds.peek.bind fun first => ?_
  split
  · exact Adds.take.bind fun _ => (Adds.newId false).bind fun id => Adds.alias id _ _
  · refine Adds.properties.bind fun p => Adds.peek.bind fun t => ?_
    dsimp only
    split
    · exact collection _ _ _ _ fun head => sequence _ _ h.looseItems
    · exact Adds.take.bind fun _ => scalar _ _ _ _
    · exact collection _ _ _ _ fun head => Adds.take.bind fun _ => sequence _ _ (h.flowItems _ _)
    · exact collection _ _ _ _ fun head => Adds.take.bind fun _ => mapping _ _ (h.flowEntries _ _)
    · exact collection _ _ _ _ fun head => Adds.take.bind fun _ => sequence _ _ (h.blockItems _)
    · exact collection _ _ _ _ fun head => Adds.take.bind fun _ => sequence _ _ (h.blockItems _)
    · exact collection _ _ _ _ fun head => Adds.take.bind fun _ => mapping _ _ (h.blockEntries _)
    · exact collection _ _ _ _ fun head => Adds.take.bind fun _ => mapping _ _ (h.blockEntries _)
    · split_ifs
      · exact scalar _ _ _ _
      · exact Adds.failParsing

lemma blockItems_succ (h : AllAdd fuel) (m : Mark) : AddsItems (Compose.blockItems (fuel + 1) m) := by
  intro rs ns
  rw [Compose.blockItems]
  refine Adds.peek.bind fun t => ?_
  split
  · refine Adds.take.bind fun _ => Adds.peek.bind fun next => ?_
    split
    · exact adds_item (adds_emptyScalar _) (h.blockItems m)
    · exact adds_item (adds_emptyScalar _) (h.blockItems m)
    · exact adds_item (h.node _) (h.blockItems m)
  · exact Adds.take.bind fun _ => .pure rfl (.refl _)
  · exact .failParsing

lemma looseItems_succ (h : AllAdd fuel) : AddsItems (Compose.looseItems (fuel + 1)) := by
  intro rs ns
  rw [Compose.looseItems]
  refine Adds.peek.bind fun t => ?_
  split
  · refine Adds.take.bind fun _ => Adds.peek.bind fun next => ?_
    split_ifs
    · exact adds_item (adds_emptyScalar _) h.looseItems
    · exact adds_item (h.node _) h.looseItems
  · exact .pure rfl (.refl _)

lemma blockPart_succ (h : AllAdd fuel) (m : Mark) : AddsNode (Compose.blockPart (fuel + 1) m) := by
  intro rs ns
  rw [Compose.blockPart]
  refine Adds.peek.bind fun t => ?_
  split_ifs
  · exact adds_emptyScalar _ _ _
  · exact h.node _ _ _

lemma blockEntries_succ (h : AllAdd fuel) (m : Mark) : AddsEntries (Compose.blockEntries (fuel + 1) m) := by
  intro rs ns
  rw [Compose.blockEntries]
  refine Adds.peek.bind fun t => ?_
  split
  · refine Adds.take.bind fun _ => (h.blockPart _ _ _).bind fun k => Adds.peek.bind fun colon => ?_
    split
    · exact Adds.take.bind fun _ => adds_value (h.blockPart _) (h.blockEntries m)
    · exact adds_value (adds_emptyScalar _) (h.blockEntries m)
  · exact Adds.take.bind fun _ => .pure rfl (.refl _)
  · exact .failParsing

lemma flowPart_succ (h : AllAdd fuel) (m : Mark) (ends : List TokenKind) :
    AddsNode (Compose.flowPart (fuel + 1) m ends) := by
  intro rs ns
  rw [Compose.flowPart]
  refine Adds.peek.bind fun t => ?_
  split_ifs
  · exact adds_emptyScalar _ _ _
  · exact h.node _ _ _

lemma flowValue_succ (h : AllAdd fuel) (close : TokenKind) : AddsNode (Compose.flowValue (fuel + 1) close) := by
  intro rs ns
  rw [Compose.flowValue]
  refine Adds.peek.bind fun colon => ?_
  split
  · exact Adds.take.bind fun _ => h.flowPart _ _ _ _
  · exact adds_emptyScalar _ _ _

lemma flowItems_succ (h : AllAdd fuel) (m : Mark) (first : Bool) :
    AddsItems (Compose.flowItems (fuel + 1) m first) := by
  intro rs ns
  rw [Compose.flowItems]
  refine Adds.peek.bind fun t => ?_
  split_ifs
  · exact Adds.take.bind fun _ => .pure rfl (.refl _)
  · refine (Adds.separator _ _ _ _).bind fun _ => Adds.peek.bind fun t => ?_
    split
    · refine (Adds.newId false).bind fun id => Adds.take.bind fun _ => (h.flowPart _ _ _ _).bind fun k =>
        (h.flowValue _ _ _).bind fun v => (h.flowItems m false _ _).bind fun items =>
          adds_pair ⟨id, Tag.mapping, t.start⟩ k v items
    · exact Adds.take.bind fun _ => .pure rfl (.refl _)
    · exact adds_item (h.node _) (h.flowItems m false)

lemma flowEntries_succ (h : AllAdd fuel) (m : Mark) (first : Bool) :
    AddsEntries (Compose.flowEntries (fuel + 1) m first) := by
  intro rs ns
  rw [Compose.flowEntries]
  refine Adds.peek.bind fun t => ?_
  split_ifs
  · exact Adds.take.bind fun _ => .pure rfl (.refl _)
  · refine (Adds.separator _ _ _ _).bind fun _ => Adds.peek.bind fun t => ?_
    split
    · exact Adds.take.bind fun _ => (h.flowPart _ _ _ _).bind fun k => adds_value (h.flowValue _) (h.flowEntries m false)
    · exact Adds.take.bind fun _ => .pure rfl (.refl _)
    · exact (h.node _ _ _).bind fun k => Adds.peek.bind fun _ =>
        adds_value (adds_emptyScalar _) (h.flowEntries m false)

theorem all (fuel : Nat) : AllAdd fuel := by
  induction fuel with
  | zero => exact zero
  | succ fuel h =>
    exact ⟨h.node_succ, h.blockItems_succ, h.looseItems_succ, h.blockPart_succ, h.blockEntries_succ,
      h.flowPart_succ, h.flowValue_succ, h.flowItems_succ, h.flowEntries_succ⟩

end AllAdd

section Documents

variable {rs : List (Nat × Bool)} {ns : List Node}

lemma adds_directives (fuel : Nat) (versioned : Bool) (handles : List (Text × Text)) :
    Adds rs ns (directives fuel versioned handles) (fun _ => rs) fun _ => ns := by
  induction fuel generalizing versioned handles with
  | zero => exact .pure rfl (.refl _)
  | succ fuel ih =>
    rw [directives]
    refine Adds.peek.bind fun t => ?_
    split
    · refine Adds.take.bind fun _ => ?_
      split
      · split_ifs
        · exact .failParsing
        · exact .failParsing
        · exact ih _ _
      · split_ifs
        · exact .failParsing
        · exact ih _ _
      · exact ih _ _
    · exact .pure rfl (.refl _)

lemma adds_skipEnds (fuel : Nat) : Adds rs ns (skipEnds fuel) (fun _ => rs) fun _ => ns := by
  induction fuel with
  | zero => exact .pure rfl (.refl _)
  | succ fuel ih =>
    rw [skipEnds]
    refine Adds.peek.bind fun t => ?_
    split_ifs
    · exact Adds.take.bind fun _ => ih
    · exact .pure rfl (.refl _)

lemma adds_documentStart (fuel : Nat) : Adds rs ns (documentStart fuel) (fun _ => rs) fun _ => ns := by
  rw [documentStart]
  refine (adds_skipEnds fuel).bind fun _ => Adds.peek.bind fun t => ?_
  split_ifs
  · exact .pure rfl (.refl _)
  · refine (adds_directives _ _ _).bind fun own => Adds.bind (Adds.update fun s => ⟨rfl, rfl, rfl, rfl⟩) fun _ => ?_
    refine Adds.peek.bind fun sign => ?_
    split_ifs
    · exact Adds.take.bind fun _ => .pure rfl (.refl _)
    · exact .failParsing

/-- The parts of a root, if there is one. -/
def rootParts (root : Option Node) : List Node := root.elim [] parts

lemma adds_root (fuel : Nat) : Adds rs ns (root fuel) (fun _ => rs) fun n => rootParts n ++ ns := by
  have hnode : Adds rs ns (do pure (some (← node fuel .block))) (fun _ => rs) fun n => rootParts n ++ ns :=
    ((AllAdd.all fuel).node .block rs ns).bind fun n => .pure rfl (.refl _)
  rw [root]
  refine Adds.peek.bind fun t => ?_
  split_ifs
  · refine (adds_documentStart fuel).bind fun m => ?_
    split
    · exact .pure rfl (.refl _)
    · refine Adds.peek.bind fun content => ?_
      split_ifs
      · exact (adds_emptyScalar _ rs ns).bind fun n => .pure rfl (.refl _)
      · exact hnode
  · exact hnode

end Documents

end Compose

/-- The nodes of a document have numbers of their own, and those with anchors are among them. -/
structure Numbered (d : Document) (root : Node) : Prop where
  distinct : (numbers root.parts).Nodup
  bounded : ∀ m ∈ root.parts, m.isSolid = true → m.head.id < d.size
  anchored : ∀ e ∈ d.anchored, e.2 ∈ root.parts ∧ e.2.isSolid = true ∧ e.1 = e.2.head.id

lemma length_le_of_bounded {ids : List Nat} {size : Nat} (hnodup : ids.Nodup) (hbounded : ∀ id ∈ ids, id < size) :
    ids.length ≤ size := by
  have hsub : ids ⊆ List.range size := fun id hid => List.mem_range.mpr (hbounded id hid)
  simpa using (List.subperm_of_subset hnodup hsub).length_le

lemma head_mem_numbers {ns : List Node} {m : Node} (hm : m ∈ ns) (hsolid : m.isSolid = true) :
    m.head.id ∈ numbers ns :=
  List.mem_map_of_mem (List.mem_filter.mpr ⟨hm, hsolid⟩)

/-- Nodes that are no aliases are told apart by their numbers. -/
lemma Numbered.unique {d : Document} {root : Node} (h : Numbered d root) : ∀ m ∈ root.parts, m.isSolid = true →
    ∀ m' ∈ root.parts, m'.isSolid = true → m.head.id = m'.head.id → m = m' :=
  fun _ hm hsolid _ hm' hsolid' he =>
    List.inj_on_of_nodup_map h.distinct (List.mem_filter.mpr ⟨hm, hsolid⟩) (List.mem_filter.mpr ⟨hm', hsolid'⟩) he

lemma Compose.Grown.numbered {ts : List Token} {root : Node} {s : Composition}
    (h : Grown ts [] [] [] root.parts s) : Numbered ⟨some root, s.anchored, s.count⟩ root := by
  refine ⟨by simpa using h.distinct, fun m hm hsolid => ?_, fun e he => ?_⟩
  · exact h.bounded _ (head_mem_numbers hm hsolid)
  · exact (h.anchored e he).resolve_left List.not_mem_nil

/-- What a document is composed from when all of its tokens have been read. -/
lemma Document.grown_of_tokens {t : Tokens} {d : Document} {root : Node} (hd : Document.ofTokens t = .ok d)
    (hroot : d.root = some root) :
    ∃ s, Compose.Grown t.tokens [] [] [] root.parts s ∧ d = ⟨some root, s.anchored, s.count⟩ := by
  obtain ⟨⟨d, s'⟩, hrun, rfl⟩ := map_eq_ok hd
  rw [Compose.document] at hrun
  obtain ⟨_, s, htake, hrun⟩ := run_bind_eq_ok hrun
  obtain ⟨n, s₁, hn, hrun⟩ := run_bind_eq_ok hrun
  have hstart : Compose.Grown t.tokens [] [] [] [] ⟨t.tokens, t.fault, Compose.defaultHandles, 0, [], []⟩ :=
    ⟨List.suffix_refl _, List.nodup_nil, by simp, Nat.le_refl 0, by simp, by simp, by simp⟩
  have hgrown := Compose.adds_root _ _ _ _ _ _ _ (Compose.Adds.take _ _ _ _ _ _ hstart htake) hn
  cases n with
  | none =>
    cases hrun
    cases hroot
  | some n =>
    obtain ⟨token, s₂, hpeek, hrun⟩ := run_bind_eq_ok hrun
    have hlast := Compose.Adds.peek _ _ _ _ _ _ hgrown hpeek
    split_ifs at hrun
    on_goal 1 =>
      obtain ⟨_, s₃, htake, hrest⟩ := run_bind_eq_ok hrun
      replace hlast := Compose.Adds.discard _ _ _ _ _ _ hlast htake
      replace hrun := hrest
    -- the document is made of what there is before the search for a second one
    all_goals
      obtain ⟨_, _, hget, hrun⟩ := run_bind_eq_ok hrun
      obtain ⟨second, s₄, -, hrun⟩ := run_bind_eq_ok hrun
      cases hget
      cases second with
      | some m => cases hrun
      | none =>
        cases hrun
        cases hroot
        exact ⟨_, hlast.perm (by simp [Compose.rootParts]), rfl⟩

/-- The nodes of a composed document are numbered. -/
theorem Document.numbered_of_tokens {t : Tokens} {d : Document} {root : Node} (hd : Document.ofTokens t = .ok d)
    (hroot : d.root = some root) : Numbered d root := by
  obtain ⟨s, hs, rfl⟩ := Document.grown_of_tokens hd hroot
  exact hs.numbered

/-- A composed document has no more parts, aliases counted, than its size tells. -/
theorem Document.length_parts_le {t : Tokens} {d : Document} {root : Node} (hd : Document.ofTokens t = .ok d)
    (hroot : d.root = some root) : root.parts.length ≤ d.size := by
  obtain ⟨s, hs, rfl⟩ := Document.grown_of_tokens hd hroot
  simpa using hs.counted

/-- Every alias in a document stands for one of its nodes. -/
def Closed (d : Document) (root : Node) : Prop := ∀ n ∈ root.parts, (Make.follow ⟨.names, d.anchored⟩ n).isSolid = true

/-- A composed document is closed: what has an anchor is kept as soon as it is complete. -/
theorem Document.closed_of_tokens {t : Tokens} {d : Document} {root : Node} (hd : Document.ofTokens t = .ok d)
    (hroot : d.root = some root) : Closed d root := by
  obtain ⟨s, hs, rfl⟩ := Document.grown_of_tokens hd hroot
  intro n hn
  cases n with
  | «alias» id =>
    have hkept : id ∈ s.anchored.map (·.1) := by simpa [Compose.Bound] using hs.aliases id hn
    show ((s.anchored.lookup id).getD (.alias id)).isSolid = true
    cases hm : s.anchored.lookup id with
    | none =>
      obtain ⟨e, he, rfl⟩ := List.mem_map.mp hkept
      have hne := List.lookup_eq_none_iff.mp hm e he
      exact absurd hne (by simp)
    | some m => exact ((hs.anchored _ (mem_of_lookup hm)).resolve_left List.not_mem_nil).2.1
  | _ => rfl

end DocPath.Yaml
