import DocPath.Proofs.Yaml.Scanned
import DocPath.Yaml.Reader

/-! Composing gets to a document or to a fault at a place: it never asks for a token behind the last one, and every
node costs a token, so that the fuel is enough. -/

namespace DocPath.Yaml

namespace Compose

/-- The tokens go on to the end of the text, or to a fault. -/
def Live (s : Composition) : Prop := s.fault = none → ∃ inner last, s.tokens = inner ++ [last] ∧ last.kind = .streamEnd

lemma Live.of_tokens {s s' : Composition} (hs : Live s) (htokens : s'.tokens = s.tokens) (hfault : s'.fault = s.fault) :
    Live s' := by
  rw [Live, htokens, hfault]
  exact hs

/-- What composing comes to: fewer tokens, or a fault at a place, or the one behind the tokens. -/
def Outcome (s : Composition) {α : Type} : Except Fault (α × Composition) → Prop :=
  Settles (fun fault => fault.isMarked = true ∨ s.fault = some fault) fun p =>
    Live p.2 ∧ p.2.fault = s.fault ∧ p.2.tokens.length ≤ s.tokens.length

/-- What leaves the tokens alone and fails only at a place. -/
def Idle {α : Type} (x : Compose α) : Prop :=
  ∀ s, Settles (·.isMarked = true) (fun p => p.2.tokens = s.tokens ∧ p.2.fault = s.fault) (x s)

namespace Outcome

variable {s s' : Composition} {α β : Type} {r : Except Fault (α × Composition)} {f : α → Compose β}

lemma before (hr : Outcome s' r) (hfault : s'.fault = s.fault) (hlength : s'.tokens.length ≤ s.tokens.length) :
    Outcome s r :=
  (Settles.expect hr fun _ => Or.imp_right fun h => hfault ▸ h).mono fun _ h =>
    ⟨h.1, h.2.1.trans hfault, h.2.2.trans hlength⟩

lemma bind (hr : Outcome s r) (hf : ∀ a s', Live s' → s'.tokens.length ≤ s.tokens.length → Outcome s' (f a s')) :
    Outcome s (r >>= fun p => f p.1 p.2) :=
  Settles.bind hr fun p hp => (hf p.1 p.2 hp.1 hp.2.2).before hp.2.1 hp.2.2

end Outcome

namespace Idle

variable {α β : Type} {x : Compose α}

lemma pure {a : α} : Idle (Pure.pure a) := fun _ => ⟨rfl, rfl⟩

lemma fail {stage : Stage} {context : Option (Context × Option Mark)} {problem : Problem} {m : Mark} :
    Idle (throw (.marked stage context problem m) : Compose α) :=
  fun _ => .error rfl

lemma read : Idle (get : Compose Composition) := fun _ => ⟨rfl, rfl⟩

lemma update {f : Composition → Composition} (hf : ∀ s, (f s).tokens = s.tokens ∧ (f s).fault = s.fault) :
    Idle (modify f : Compose Unit) :=
  hf

lemma newId : Idle newId := fun _ => ⟨rfl, rfl⟩

lemma bind {f : α → Compose β} (hx : Idle x) (hf : ∀ a, Idle (f a)) : Idle (x >>= f) := fun s =>
  Settles.bind (hx s) fun p hp => (hf p.1 p.2).mono fun _ h => ⟨h.1.trans hp.1, h.2.trans hp.2⟩

lemma outcome (hx : Idle x) {s : Composition} (hs : Live s) : Outcome s (x s) :=
  ((hx s).expect fun _ => .inl).mono fun _ h => ⟨hs.of_tokens h.1 h.2, h.2, h.1.symm ▸ le_rfl⟩

lemma declare (anchor : Option Text) (m : Mark) : Idle (declare anchor m) := by
  refine newId.bind fun id => ?_
  cases anchor with
  | none => exact pure
  | some name =>
    refine read.bind fun s => ?_
    split
    · exact fail
    · exact bind (update fun _ => ⟨rfl, rfl⟩) fun _ => pure

lemma keep (anchor : Option Text) (id : Nat) (n : Node) : Idle (keep anchor id n) := by
  rw [Compose.keep]
  split_ifs
  · exact bind (update fun _ => ⟨rfl, rfl⟩) fun _ => pure
  · exact pure

lemma fullTag (start tagStart : Mark) (handle : Option Text) (suffix : Text) : Idle (fullTag start tagStart handle suffix) := by
  cases handle with
  | none => exact pure
  | some handle =>
    refine read.bind fun s => ?_
    split
    · exact pure
    · exact fail

lemma emptyScalar (m : Mark) : Idle (emptyScalar m) := newId.bind fun _ => pure

end Idle

/-- Composing goes well where the next token is `head`, if one is given, and the fuel is four times the tokens that
are left and `k` more. -/
def Composes (head : Option Token) (fuel k : Nat) {α : Type} (x : Compose α) : Prop :=
  ∀ s, Live s → (∀ t ∈ head, s.tokens.head? = some t) → 4 * s.tokens.length + k ≤ fuel → Outcome s (x s)

/-- What the parts of a flow collection need: less behind a comma. -/
def partRoom (first : Bool) : Nat := if first then 3 else 1

namespace Composes

variable {head : Option Token} {fuel k k' : Nat} {α β : Type} {x : Compose α} {f : α → Compose β}

lemma idle (hx : Idle x) : Composes head fuel k x := fun _ hs _ _ => hx.outcome hs

lemma pure {a : α} : Composes head fuel k (Pure.pure a) := idle .pure

lemma failParsing {context : Option (Context × Option Mark)} {problem : Problem} {m : Mark} :
    Composes head fuel k (failParsing context problem m : Compose α) :=
  idle .fail

lemma weaken (h : Composes none fuel k x) (hk : k ≤ k') : Composes head fuel k' x :=
  fun s hs _ hfuel => h s hs (fun _ ht => nomatch ht) (by omega)

lemma spend (h : Composes none fuel k x) (hk : k + 1 ≤ k') : Composes head (fuel + 1) k' x :=
  fun s hs _ hfuel => h s hs (fun _ ht => nomatch ht) (by omega)

lemma bind (hx : Composes head fuel k x) (hf : ∀ a, Composes none fuel k (f a)) : Composes head fuel k (x >>= f) :=
  fun s hs hhead hfuel => (hx s hs hhead hfuel).bind fun a s' hlive hlength =>
    hf a s' hlive (fun _ ht => nomatch ht) (by omega)

lemma idle_bind (hx : Idle x) (hf : ∀ a, Composes head fuel k (f a)) : Composes head fuel k (x >>= f) :=
  fun s hs hhead hfuel => Settles.bind ((hx s).expect fun _ => .inl) fun p hp =>
    (hf p.1 p.2 (hs.of_tokens hp.1 hp.2) (hp.1.symm ▸ hhead) (hp.1.symm ▸ hfuel)).before hp.2 (hp.1.symm ▸ le_rfl)

/-- The next token is looked at. -/
lemma peek {f : Token → Compose β} (hf : ∀ t, Composes (some t) fuel k (f t)) : Composes none fuel k (peek >>= f) := by
  intro s hs _ hfuel
  show Outcome s (Compose.peek s >>= fun p => f p.1 p.2)
  rw [Compose.peek]
  cases htokens : s.tokens with
  | nil =>
    cases hfault : s.fault with
    | none =>
      obtain ⟨inner, last, heq, -⟩ := hs hfault
      rw [htokens] at heq
      exact absurd heq.symm (List.append_ne_nil_of_right_ne_nil _ (List.cons_ne_nil _ _))
    | some fault => exact .inr hfault
  | cons t rest =>
    refine hf t s hs (fun u hu => ?_) hfuel
    cases hu
    rw [htokens]
    rfl

/-- Behind a token that is not the last one the tokens still go on to the end. -/
lemma live_tail {s : Composition} {t : Token} {rest : List Token} (hs : Live s) (htokens : s.tokens = t :: rest)
    (ht : t.kind ≠ .streamEnd) : Live { s with tokens := rest } := by
  intro hfault
  obtain ⟨inner, last, heq, hlast⟩ := hs hfault
  rw [htokens] at heq
  cases inner with
  | nil =>
    cases heq
    exact absurd hlast ht
  | cons u inner =>
    cases heq
    exact ⟨inner, last, rfl, hlast⟩

lemma take {t : Token} {f : Token → Compose β} (ht : t.kind ≠ .streamEnd) (hf : Composes none fuel (k + 4) (f t)) :
    Composes (some t) fuel k (take >>= f) := by
  intro s hs hhead hfuel
  obtain ⟨rest, htokens⟩ := List.head?_eq_some_iff.mp (hhead t rfl)
  have htake : Compose.take s = .ok (t, { s with tokens := rest }) := by rw [Compose.take, htokens]
  have hlength : s.tokens.length = rest.length + 1 := by rw [htokens, List.length_cons]
  have hrest : Outcome { s with tokens := rest } (f t { s with tokens := rest }) :=
    hf _ (live_tail hs htokens ht) (fun _ ht => nomatch ht) (by dsimp only; omega)
  show Outcome s (Compose.take s >>= fun p => f p.1 p.2)
  rw [htake]
  exact hrest.before rfl (by dsimp only; omega)

lemma properties : Composes none fuel k properties := by
  refine peek fun first => ?_
  split
  · next heq =>
    refine take (by rw [heq]; exact nofun) (peek fun second => ?_)
    split
    · next heq => exact take (by rw [heq]; exact nofun) (idle_bind (.fullTag _ _ _ _) fun _ => pure)
    · exact pure
  · next heq =>
    refine take (by rw [heq]; exact nofun) (peek fun second => ?_)
    split
    · next heq => exact take (by rw [heq]; exact nofun) (idle_bind (.fullTag _ _ _ _) fun _ => pure)
    · exact idle_bind (.fullTag _ _ _ _) fun _ => pure
  · exact pure

/-- The comma costs a token where one is needed. -/
lemma separator {context : Context} {opening : Mark} {close : CodePoint} {first : Bool} {f : Unit → Compose β}
    (hf : ∀ a, Composes none fuel 3 (f a)) :
    Composes head fuel (partRoom first) (separator context opening close first >>= f) := by
  rw [Compose.separator, bind_assoc]
  refine weaken (peek fun t => ?_) le_rfl
  cases first with
  | true => exact bind pure hf
  | false =>
    rw [if_neg Bool.false_ne_true]
    split_ifs with hcomma
    · rw [bind_assoc]
      exact take (by rw [hcomma]; exact nofun) (bind pure fun _ => (hf ()).weaken (by decide))
    · exact fun _ _ _ _ => .error (.inl rfl)

end Composes

/-- All that is composed with some fuel goes well where the tokens that are left allow for it. -/
structure AllCompose (fuel : Nat) : Prop where
  node : ∀ form, Composes none fuel 2 (node fuel form)
  blockItems : ∀ m, Composes none fuel 1 (blockItems fuel m)
  looseItems : Composes none fuel 1 (looseItems fuel)
  blockPart : ∀ m, Composes none fuel 3 (blockPart fuel m)
  blockEntries : ∀ m, Composes none fuel 1 (blockEntries fuel m)
  flowPart : ∀ m ends, Composes none fuel 3 (flowPart fuel m ends)
  flowValue : ∀ close, Composes none fuel 1 (flowValue fuel close)
  flowItems : ∀ m first, Composes none fuel (partRoom first) (flowItems fuel m first)
  flowEntries : ∀ m first, Composes none fuel (partRoom first) (flowEntries fuel m first)

namespace AllCompose

variable {fuel : Nat}

lemma zero : AllCompose 0 := by
  have hnone {k : Nat} {α : Type} {x : Compose α} (hk : 0 < k) : Composes none 0 k x :=
    fun _ _ _ hfuel => absurd hfuel (by omega)
  have hparts (first : Bool) : 0 < partRoom first := by cases first <;> decide
  exact ⟨fun _ => hnone (by decide), fun _ => hnone (by decide), hnone (by decide), fun _ => hnone (by decide),
    fun _ => hnone (by decide), fun _ _ => hnone (by decide), fun _ => hnone (by decide),
    fun _ first => hnone (hparts first), fun _ first => hnone (hparts first)⟩

lemma node_succ (h : AllCompose fuel) (form : Form) : Composes none (fuel + 1) 2 (Compose.node (fuel + 1) form) := by
  have hcollection {anchor tag : Option Text} {start : Mark} {kindTag : Text} {head : Option Token} {f : Head → Compose Node}
      (hf : ∀ head', Composes head (fuel + 1) 2 (f head')) :
      Composes head (fuel + 1) 2 ((do Pure.pure ⟨← declare anchor start, collectionTag tag kindTag, start⟩) >>= f) :=
    .idle_bind ((Idle.declare _ _).bind fun _ => .pure) hf
  have hscalar {anchor : Option Text} {start : Mark} {tag text : Text} {head : Option Token} {k : Nat} :
      Composes head (fuel + 1) k (declare anchor start >>= fun id => keep anchor id (.scalar ⟨id, tag, start⟩ text)) :=
    .idle ((Idle.declare _ _).bind fun _ => .keep _ _ _)
  rw [Compose.node]
  refine .peek fun first => ?_
  split
  · next heq =>
    refine .take (by rw [heq]; exact nofun) (.idle (Idle.newId.bind fun _ => Idle.read.bind fun s => ?_))
    split
    · exact .pure
    · exact .fail
  · refine .bind (Composes.properties.weaken le_rfl) fun p => .peek fun t => ?_
    dsimp only
    split
    · exact hcollection fun _ => .bind (h.looseItems.spend le_rfl) fun _ => .idle (.keep _ _ _)
    · next heq => exact .take (by rw [heq]; exact nofun) hscalar
    · next heq =>
      exact hcollection fun _ => .take (by rw [heq]; exact nofun)
        (.bind ((h.flowItems _ true).spend (by decide)) fun _ => .idle (.keep _ _ _))
    · next heq =>
      exact hcollection fun _ => .take (by rw [heq]; exact nofun)
        (.bind ((h.flowEntries _ true).spend (by decide)) fun _ => .idle (.keep _ _ _))
    · next heq =>
      exact hcollection fun _ => .take (by rw [heq]; exact nofun)
        (.bind ((h.blockItems _).spend (by decide)) fun _ => .idle (.keep _ _ _))
    · next heq =>
      exact hcollection fun _ => .take (by rw [heq]; exact nofun)
        (.bind ((h.blockItems _).spend (by decide)) fun _ => .idle (.keep _ _ _))
    · next heq =>
      exact hcollection fun _ => .take (by rw [heq]; exact nofun)
        (.bind ((h.blockEntries _).spend (by decide)) fun _ => .idle (.keep _ _ _))
    · next heq =>
      exact hcollection fun _ => .take (by rw [heq]; exact nofun)
        (.bind ((h.blockEntries _).spend (by decide)) fun _ => .idle (.keep _ _ _))
    · split_ifs
      · exact hscalar
      · exact .failParsing

lemma blockItems_succ (h : AllCompose fuel) (m : Mark) : Composes none (fuel + 1) 1 (Compose.blockItems (fuel + 1) m) := by
  rw [Compose.blockItems]
  refine .peek fun t => ?_
  split
  · next heq =>
    refine .take (by rw [heq]; exact nofun) (.peek fun next => ?_)
    have hlater : Composes none (fuel + 1) (1 + 4) (Compose.blockItems fuel m) := (h.blockItems m).spend (by decide)
    split
    · exact .bind (.idle (.emptyScalar _)) fun _ => hlater.bind fun _ => .pure
    · exact .bind (.idle (.emptyScalar _)) fun _ => hlater.bind fun _ => .pure
    · exact .bind ((h.node _).spend (by decide)) fun _ => hlater.bind fun _ => .pure
  · next heq => exact .take (by rw [heq]; exact nofun) .pure
  · exact .failParsing

lemma looseItems_succ (h : AllCompose fuel) : Composes none (fuel + 1) 1 (Compose.looseItems (fuel + 1)) := by
  rw [Compose.looseItems]
  refine .peek fun t => ?_
  split
  · next heq =>
    refine .take (by rw [heq]; exact nofun) (.peek fun next => ?_)
    have hlater : Composes none (fuel + 1) (1 + 4) (Compose.looseItems fuel) := h.looseItems.spend (by decide)
    split_ifs
    · exact .bind (.idle (.emptyScalar _)) fun _ => hlater.bind fun _ => .pure
    · exact .bind ((h.node _).spend (by decide)) fun _ => hlater.bind fun _ => .pure
  · exact .pure

lemma blockPart_succ (h : AllCompose fuel) (m : Mark) : Composes none (fuel + 1) 3 (Compose.blockPart (fuel + 1) m) := by
  rw [Compose.blockPart]
  refine .peek fun t => ?_
  split_ifs
  · exact .idle (.emptyScalar _)
  · exact (h.node _).spend le_rfl

lemma blockEntries_succ (h : AllCompose fuel) (m : Mark) : Composes none (fuel + 1) 1 (Compose.blockEntries (fuel + 1) m) := by
  rw [Compose.blockEntries]
  refine .peek fun t => ?_
  split
  · next heq =>
    refine .take (by rw [heq]; exact nofun) (.bind ((h.blockPart _).spend (by decide)) fun key => .peek fun colon => ?_)
    have hlater : Composes none (fuel + 1) (1 + 4) (Compose.blockEntries fuel m) := (h.blockEntries m).spend (by decide)
    split
    · next heq =>
      refine .take (by rw [heq]; exact nofun) (.bind ((h.blockPart _).spend (by decide)) fun value => ?_)
      exact .bind ((h.blockEntries m).spend (by decide)) fun _ => .pure
    · exact .bind (.idle (.emptyScalar _)) fun _ => hlater.bind fun _ => .pure
  · next heq => exact .take (by rw [heq]; exact nofun) .pure
  · exact .failParsing

lemma flowPart_succ (h : AllCompose fuel) (m : Mark) (ends : List TokenKind) :
    Composes none (fuel + 1) 3 (Compose.flowPart (fuel + 1) m ends) := by
  rw [Compose.flowPart]
  refine .peek fun t => ?_
  split_ifs
  · exact .idle (.emptyScalar _)
  · exact (h.node _).spend le_rfl

lemma flowValue_succ (h : AllCompose fuel) (close : TokenKind) :
    Composes none (fuel + 1) 1 (Compose.flowValue (fuel + 1) close) := by
  rw [Compose.flowValue]
  refine .peek fun colon => ?_
  split
  · next heq => exact .take (by rw [heq]; exact nofun) ((h.flowPart _ _).spend (by decide))
  · exact .idle (.emptyScalar _)

lemma flowItems_succ (h : AllCompose fuel) (m : Mark) (first : Bool) :
    Composes none (fuel + 1) (partRoom first) (Compose.flowItems (fuel + 1) m first) := by
  rw [Compose.flowItems]
  refine .peek fun t => ?_
  split_ifs with hend
  · exact .take (by rw [hend]; exact nofun) .pure
  · refine .separator fun _ => .peek fun t => ?_
    split
    · next heq =>
      refine .idle_bind .newId fun id => .take (by rw [heq]; exact nofun) ?_
      refine .bind ((h.flowPart _ _).spend (by decide)) fun key => .bind ((h.flowValue _).spend (by decide)) fun value => ?_
      exact .bind ((h.flowItems m false).spend (by decide)) fun _ => .pure
    · next heq => exact .take (by rw [heq]; exact nofun) .pure
    · exact .bind ((h.node _).spend le_rfl) fun _ => .bind ((h.flowItems m false).spend (by decide)) fun _ => .pure

lemma flowEntries_succ (h : AllCompose fuel) (m : Mark) (first : Bool) :
    Composes none (fuel + 1) (partRoom first) (Compose.flowEntries (fuel + 1) m first) := by
  rw [Compose.flowEntries]
  refine .peek fun t => ?_
  split_ifs with hend
  · exact .take (by rw [hend]; exact nofun) .pure
  · refine .separator fun _ => .peek fun t => ?_
    split
    · next heq =>
      refine .take (by rw [heq]; exact nofun) ?_
      refine .bind ((h.flowPart _ _).spend (by decide)) fun key => .bind ((h.flowValue _).spend (by decide)) fun value => ?_
      exact .bind ((h.flowEntries m false).spend (by decide)) fun _ => .pure
    · next heq => exact .take (by rw [heq]; exact nofun) .pure
    · refine .bind ((h.node _).spend le_rfl) fun key => .peek fun colon => .bind (.idle (.emptyScalar _)) fun value => ?_
      exact .bind ((h.flowEntries m false).spend (by decide)) fun _ => .pure

theorem all (fuel : Nat) : AllCompose fuel := by
  induction fuel with
  | zero => exact zero
  | succ fuel h =>
    exact ⟨h.node_succ, h.blockItems_succ, h.looseItems_succ, h.blockPart_succ, h.blockEntries_succ,
      h.flowPart_succ, h.flowValue_succ, h.flowItems_succ, h.flowEntries_succ⟩

end AllCompose

section Documents

variable {fuel k : Nat}

lemma composes_directives (steps : Nat) (versioned : Bool) (handles : List (Text × Text)) :
    Composes none fuel k (directives steps versioned handles) := by
  induction steps generalizing versioned handles k with
  | zero => exact .pure
  | succ steps ih =>
    rw [directives]
    refine .peek fun t => ?_
    split
    · next heq =>
      refine .take (by rw [heq]; exact nofun) ?_
      split
      · split_ifs
        · exact .failParsing
        · exact .failParsing
        · exact ih _ _
      · split_ifs
        · exact .failParsing
        · exact ih _ _
      · exact ih _ _
    · exact .pure

lemma composes_skipEnds (steps : Nat) : Composes none fuel k (skipEnds steps) := by
  induction steps generalizing k with
  | zero => exact .pure
  | succ steps ih =>
    rw [skipEnds]
    refine .peek fun t => ?_
    split_ifs with hend
    · exact .take (by rw [hend]; exact nofun) ih
    · exact .pure

lemma composes_documentStart (steps : Nat) : Composes none fuel k (documentStart steps) := by
  rw [documentStart]
  refine .bind (composes_skipEnds steps) fun _ => .peek fun t => ?_
  split_ifs
  · exact .pure
  · refine .bind ((composes_directives _ _ _).weaken le_rfl) fun own => ?_
    refine .bind (.idle (.update fun _ => ⟨rfl, rfl⟩)) fun _ => .peek fun sign => ?_
    split_ifs with hsign
    · exact .take (by rw [hsign]; exact nofun) .pure
    · exact .failParsing

lemma composes_root : Composes none fuel 2 (root fuel) := by
  have hnode {head : Option Token} : Composes head fuel 2 (do Pure.pure (some (← node fuel .block))) :=
    .bind (((AllCompose.all fuel).node .block).weaken le_rfl) fun _ => .pure
  rw [root]
  refine .peek fun t => ?_
  split_ifs
  · refine .bind ((composes_documentStart _).weaken le_rfl) fun m => ?_
    split
    · exact .pure
    · refine .peek fun content => ?_
      split_ifs
      · exact .bind (.idle (.emptyScalar _)) fun _ => .pure
      · exact hnode
  · exact hnode

/-- A document is composed behind the token at the beginning of the stream. -/
lemma outcome_document {s : Composition} {t : Token} {rest : List Token} (htokens : s.tokens = t :: rest)
    (hlive : Live { s with tokens := rest }) (hfuel : 4 * rest.length + 2 ≤ fuel) :
    Outcome { s with tokens := rest } (document fuel s) := by
  have hrest {head : Option Token} {k : Nat} {g : Composition → Option Mark → Compose Document}
      (hnone : ∀ s, Idle (g s none)) (hsome : ∀ s second, Idle (g s (some second))) :
      Composes head fuel k (get >>= fun s => documentStart fuel >>= g s) := by
    refine .idle_bind .read fun s => .bind ((composes_documentStart fuel).weaken le_rfl) fun second => .idle ?_
    cases second with
    | none => exact hnone s
    | some second => exact hsome s second
  have htake {f : Token → Compose Document} : (take >>= f) s = f t { s with tokens := rest } := by
    show take s >>= (fun p => f p.1 p.2) = _
    rw [take, htokens]
    rfl
  rw [document, htake]
  refine Composes.bind composes_root (fun n => ?_) _ hlive (fun _ ht => nomatch ht) hfuel
  split
  · exact .pure
  · refine .peek fun t => ?_
    split_ifs with hend
    · have hdiscard : Composes (some t) fuel 2 (do let _ ← take; Pure.pure ()) := .take (by rw [hend]; exact nofun) .pure
      exact .bind hdiscard fun _ => hrest (fun _ => .pure) fun _ _ => .fail
    · exact hrest (fun _ => .pure) fun _ _ => .fail

end Documents

end Compose

/-- Tokens are composed to a document, or there is a fault at a place, or the one behind them. -/
theorem Document.reads_ofTokens {source : Text} {t : Tokens} (ht : t.Told source) :
    Reads source (Document.ofTokens t) fun _ => True := by
  obtain ⟨tokens, fault⟩ := t
  have hfaults {found : Fault} (h : found.isMarked = true ∨ fault = some found) : ScanFault source found := by
    rcases h with h | rfl
    · exact .marked h
    · exact ht
  rw [Document.ofTokens]
  cases tokens with
  | nil =>
    cases fault with
    | none =>
      obtain ⟨first, inner, last, hnil, -⟩ := ht
      cases hnil
    | some fault => exact hfaults (.inr rfl)
  | cons first rest =>
    have hlive : Compose.Live ⟨rest, fault, Compose.defaultHandles, 0, [], []⟩ := by
      rintro rfl
      obtain ⟨_, inner, last, htokens, hlast⟩ := ht
      cases htokens
      exact ⟨inner, last, rfl, hlast⟩
    have hrun : Compose.Outcome ⟨rest, fault, Compose.defaultHandles, 0, [], []⟩
        (Compose.document (4 * (first :: rest).length + 4) ⟨first :: rest, fault, Compose.defaultHandles, 0, [], []⟩) :=
      Compose.outcome_document rfl hlive (by rw [List.length_cons]; omega)
    cases hdocument : Compose.document (4 * (first :: rest).length + 4)
        ⟨first :: rest, fault, Compose.defaultHandles, 0, [], []⟩ with
    | error found =>
      rw [hdocument] at hrun
      exact hfaults hrun
    | ok p => exact trivial

/-- Composing a text finds a code point that may not stand there, or one of few faults, or a document. -/
theorem reads_compose (source : Text) {fault : Fault} (h : compose source = .error fault) :
    (∃ c place, fault = .unacceptable c place) ∨ ScanFault source fault := by
  rw [compose] at h
  split at h
  · cases h
    exact .inl ⟨_, _, rfl⟩
  · have hreads := Document.reads_ofTokens (Tokens.told_scan source)
    rw [h] at hreads
    exact .inr hreads

end DocPath.Yaml
