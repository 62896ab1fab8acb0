import DocPath.Proofs.Yaml.Naming

/-! Rules for what is known while values are made: what a run yields if it does not end in a fault, which faults
it may end in, and what every step keeps. -/

namespace DocPath.Yaml.Make

/-- A result is as wanted, and a fault is among the expected ones. -/
def Yields (expected : Fault → Prop) {α : Type} (r : Except Fault (α × Making)) (post : α → Making → Prop) : Prop :=
  match r with
  | .ok (a, s) => post a s
  | .error fault => expected fault

namespace Yields

variable {expected : Fault → Prop} {α β : Type} {s : Making} {r : Except Fault (α × Making)}

lemma bind {x : Make α} {f : α → Make β} {p : α → Making → Prop} {q : β → Making → Prop}
    (hx : Yields expected (x s) p) (hf : ∀ a s', p a s' → Yields expected (f a s') q) :
    Yields expected ((x >>= f) s) q := by
  show Yields expected (Except.bind (x s) _) q
  cases hr : x s with
  | error fault =>
    rw [hr] at hx
    exact hx
  | ok r =>
    rw [hr] at hx
    exact hf r.1 r.2 hx

lemma step {x : Make α} {f : α → Make β} {a : α} {t : Making} {q : β → Making → Prop} (hx : x s = .ok (a, t))
    (hf : Yields expected (f a t) q) : Yields expected ((x >>= f) s) q := by
  rwa [bind_ok hx]

lemma mono {p q : α → Making → Prop} (h : Yields expected r p) (hpq : ∀ a s, p a s → q a s) :
    Yields expected r q := by
  cases r with
  | error fault => exact h
  | ok r => exact hpq r.1 r.2 h

lemma expect {expected' : Fault → Prop} {p : α → Making → Prop} (h : Yields expected r p)
    (hfault : ∀ fault, expected fault → expected' fault) : Yields expected' r p := by
  cases r with
  | error fault => exact hfault fault h
  | ok r => exact h

lemma of_eq {a : α} {p : α → Making → Prop} (h : r = .ok (a, s)) (hp : p a s) : Yields expected r p := by
  rw [h]
  exact hp

lemma of_ok {a : α} {p : α → Making → Prop} (h : Yields expected r p) (hr : r = .ok (a, s)) : p a s := by
  rw [hr] at h
  exact h

lemma of_error {fault : Fault} {p : α → Making → Prop} (h : Yields expected r p) (hr : r = .error fault) :
    expected fault := by
  rw [hr] at h
  exact h

lemma and {expected' : Fault → Prop} {p q : α → Making → Prop} (hp : Yields expected r p) (hq : Yields expected' r q) :
    Yields expected r fun a s => p a s ∧ q a s := by
  cases r with
  | error fault => exact hp
  | ok r => exact ⟨hp, hq⟩

end Yields

/-- A fault is about a key that is there twice only in documents that are not fair. -/
def Refuses (fair : Prop) (fault : Fault) : Prop := fault.isRepetition = true → ¬fair

/-- A result is as wanted, if there is one. Where nothing counts as fair, nothing is said about faults. -/
abbrev Gives {α : Type} (r : Except Fault (α × Making)) (post : α → Making → Prop) : Prop := Yields (Refuses False) r post

section Refusals

variable {fair : Prop} {α : Type} {s : Making} {post : α → Making → Prop}

lemma yields_error {fault : Fault} {r : Except Fault (α × Making)} (hr : r = .error fault)
    (h : fault.isRepetition = false) : Yields (Refuses fair) r post := by
  subst hr
  intro hrepeated
  rw [h] at hrepeated
  cases hrepeated

lemma yields_throw {fault : Fault} (h : fault.isRepetition = false) :
    Yields (Refuses fair) ((throw fault : Make α) s) post := yields_error rfl h

lemma yields_failAt {m : Mark} {problem : Problem} : Yields (Refuses fair) ((failAt m problem : Make α) s) post :=
  yields_throw rfl

lemma yields_failWithin {context : Context} {start m : Mark} {problem : Problem} :
    Yields (Refuses fair) ((failWithin context start m problem : Make α) s) post :=
  yields_throw rfl

end Refusals

/-- From what has property `I` a run that ends in no other fault than the expected ones leads to what has it, and gives
a result with property `p`. -/
def Meets (expected : Fault → Prop) (I : Making → Prop) {α : Type} (x : Make α) (p : α → Prop) : Prop :=
  ∀ s, I s → Yields expected (x s) fun a t => I t ∧ p a

/-- Whatever the fault, if there is one. -/
abbrev Keeps (I : Making → Prop) {α : Type} (x : Make α) (p : α → Prop) : Prop := Meets (fun _ => True) I x p

namespace Meets

variable {expected : Fault → Prop} {I : Making → Prop} {α β : Type} {p : α → Prop} {q : β → Prop}

lemma pure {a : α} (h : p a) : Meets expected I (Pure.pure a) p := fun _ hs => .of_eq rfl ⟨hs, h⟩

lemma bind {x : Make α} {f : α → Make β} (hx : Meets expected I x p) (hf : ∀ a, p a → Meets expected I (f a) q) :
    Meets expected I (x >>= f) q :=
  fun s hs => (hx s hs).bind fun a t ht => hf a ht.2 t ht.1

lemma read : Meets expected I (get : Make Making) I := fun _ hs => .of_eq rfl ⟨hs, hs⟩

lemma update {f : Making → Making} (hf : ∀ s, I s → I (f s)) :
    Meets expected I (modify f : Make Unit) fun _ => True :=
  fun s hs => .of_eq rfl ⟨hf s hs, trivial⟩

lemma fail {fault : Fault} (h : expected fault) : Meets expected I (throw fault : Make α) p := fun _ _ => h

lemma mapM {f : β → Make α} {xs : List β} (hf : ∀ x ∈ xs, Meets expected I (f x) p) :
    Meets expected I (xs.mapM f) fun ys => ∀ y ∈ ys, p y := by
  induction xs with
  | nil =>
    rw [List.mapM_nil]
    exact pure (by simp)
  | cons x xs ih =>
    rw [List.mapM_cons]
    refine bind (hf x List.mem_cons_self) fun y hy => ?_
    refine bind (ih fun z hz => hf z (List.mem_cons_of_mem _ hz)) fun ys hys => ?_
    exact pure (List.forall_mem_cons.mpr ⟨hy, hys⟩)

end Meets

end DocPath.Yaml.Make
