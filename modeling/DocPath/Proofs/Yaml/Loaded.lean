import DocPath.Proofs.Yaml.Loading

/-! What making the values of a document comes to by either rule for keys. Of documents whose values can be made, only a
key that cannot be one keeps a value from being made. -/

namespace DocPath.Yaml.Make

open Relation
open Value (Refers)

/-- A way to make the values of those nodes that are allowed while others are being made. -/
def Loads (d : Document) (root : Node) (rule : KeyRule) (filling : List Node) (allowed : List Nat → Node → Prop)
    (x : Node → Make Value) : Prop :=
  ∀ n ∈ root.parts, ∀ s, Loading d root rule filling s → (Loadable d root rule → allowed s.active n) →
    Yields (Refused d root rule) (x n s) fun v s' =>
      Proceeds d root rule filling [] 0 s s' ∧ Has d.source s' n v ∧ IsValueOf d root (follow d.source n) v

section Entries

variable {d : Document} {root n : Node} {rule : KeyRule} {filling ns : List Node} {allowed allowed' : List Nat → Node → Prop}
  {s : Making} {es : List (Node × Node)} {h : Head} {v : Value} {t : Text} {key value : Node → Make Value}
  {α : Type} {post : α → Making → Prop}

lemma refused_of_not {fault : Fault} (h : Loadable d root rule → False) : Refused d root rule fault :=
  fun hload => (h hload).elim

/-- The items of a sequence are made. -/
lemma items_loaded (hx : Loads d root rule filling allowed value) (hns : ∀ n ∈ ns, n ∈ root.parts)
    (hl : Loading d root rule filling s) (hallowed : Loadable d root rule → ∀ n ∈ ns, allowed s.active n) :
    Yields (Refused d root rule) (ns.mapM value s) fun vs s' =>
      Proceeds d root rule filling [] 0 s s' ∧ List.Forall₂ (Has d.source s') ns vs := by
  induction ns generalizing s with
  | nil => exact .of_eq rfl ⟨.refl hl, .nil⟩
  | cons n ns ih =>
    obtain ⟨hn, hns⟩ := List.forall_mem_cons.mp hns
    rw [List.mapM_cons]
    refine (hx n hn s hl fun hload => hallowed hload n List.mem_cons_self).bind ?_
    rintro v s₁ ⟨hp₁, hhas, -⟩
    refine (ih hns hp₁.loading fun hload m hm =>
      hp₁.active ▸ hallowed hload m (List.mem_cons_of_mem _ hm)).bind ?_
    rintro vs s₂ ⟨hp₂, hall⟩
    exact .of_eq rfl ⟨hp₁.trans hp₂, .cons (hp₂.done _ _ hhas) hall⟩

lemma canBeKey_run (hv : IsValueOf d root n v) : canBeKey v s = .ok (!isCollectionTag n.head.tag, s) := by
  cases htag : isCollectionTag n.head.tag with
  | true =>
    rw [hv.link htag]
    rfl
  | false =>
    obtain ⟨tag, -, -, hscalar⟩ := hv.scalar htag
    cases hscalar <;> rfl

/-- Entries whose keys are values. -/
lemma keyedEntries_loaded (hx : Loads d root rule filling allowed value) (hes : ∀ e ∈ es, IsEntry root e)
    (hl : Loading d root rule filling s)
    (hallowed : Loadable d root rule → ∀ e ∈ es, allowed s.active e.1 ∧ allowed s.active e.2)
    (hkeys : Loadable d root rule → rule = .names →
      ∀ e ∈ es, isCollectionTag (follow d.source e.1).head.tag = false) :
    Yields (Refused d root rule) (keyedEntries (d.under rule) value h es s) fun ps s' =>
      Proceeds d root rule filling [] 0 s s' ∧ List.Forall₂ (ByValue d s') es ps := by
  induction es generalizing s with
  | nil => exact .of_eq rfl ⟨.refl hl, .nil⟩
  | cons e es ih =>
    obtain ⟨k, v⟩ := e
    obtain ⟨he, hes⟩ := List.forall_mem_cons.mp hes
    rw [keyedEntries]
    refine (hx k he.parts.1 s hl fun hload => (hallowed hload _ List.mem_cons_self).1).bind ?_
    rintro w s₁ ⟨hp₁, hk, hw⟩
    refine .step (canBeKey_run hw) ?_
    cases htag : isCollectionTag (follow d.source k).head.tag with
    | true =>
      intro hload
      cases rule with
      | values => exact ⟨rfl, rfl⟩
      | names =>
        have hno := hkeys hload rfl _ List.mem_cons_self
        rw [htag] at hno
        cases hno
    | false =>
      refine (hx v he.parts.2 s₁ hp₁.loading fun hload => ?_).bind ?_
      · exact hp₁.active ▸ (hallowed hload _ List.mem_cons_self).2
      rintro x s₂ ⟨hp₂, hx, -⟩
      have hp := hp₁.trans hp₂
      refine (ih hes hp.loading (fun hload e he => hp.active ▸ hallowed hload e (List.mem_cons_of_mem _ he))
        fun hload hrule e he => hkeys hload hrule e (List.mem_cons_of_mem _ he)).bind ?_
      rintro ps s₃ ⟨hp₃, hall⟩
      exact .of_eq rfl ⟨hp.trans hp₃, .cons ⟨hp₃.done _ _ (hp₂.done _ _ hk), hp₃.done _ _ hx, htag⟩ hall⟩

/-- The name of a key. -/
lemma nameOf_loaded (hv : IsValueOf d root n v) (hnamed : Loadable d root rule → ∃ name, IsNamed d n name) :
    Yields (Refused d root rule) (nameOf v s) fun name s' =>
      s' = s ∧ (∀ t, v = .text t → name = t) ∧ (Clear d root → ∀ own, IsNamed d n own → name = own) := by
  have hown (hclear : Clear d root) (own : Text) (h : IsNamed d n own) : (v.unfold s.contents).asName = .ok own := by
    have hno := h.not_collection
    obtain ⟨-, w, hw, hname⟩ := h
    obtain rfl := (hv.means hclear hno).2.unique hw
    obtain ⟨tag, -, -, hscalar⟩ := hv.scalar hno
    rwa [hscalar.unfold]
  rw [nameOf]
  refine .step (a := v.unfold s.contents) (t := s) rfl ?_
  cases hname : (v.unfold s.contents).asName with
  | error fault =>
    refine refused_of_not fun hload => ?_
    obtain ⟨own, h⟩ := hnamed hload
    rw [hown hload.clear own h] at hname
    cases hname
  | ok name =>
    refine .of_eq rfl ⟨rfl, ?_, fun hclear own h => ?_⟩
    · rintro t rfl
      cases hname
      rfl
    · rw [hown hclear own h] at hname
      exact (Except.ok.inj hname).symm

/-- Keys with names, each once and none of them among the ones seen. -/
def FreshNames (d : Document) (seen : List Text) (es : List (Node × Node)) : Prop :=
  (∀ e ∈ es, ∃ name, IsNamed d (follow d.source e.1) name ∧ name ∉ seen) ∧ es.Pairwise (Apart d)

lemma FreshNames.cons {e : Node × Node} {seen : List Text} (h : FreshNames d seen (e :: es))
    (ht : IsNamed d (follow d.source e.1) t) : t ∉ seen ∧ FreshNames d (t :: seen) es := by
  obtain ⟨hnames, hapart⟩ := h
  obtain ⟨⟨u, hu, hnew⟩, hnames⟩ := List.forall_mem_cons.mp hnames
  obtain ⟨hfirst, hapart⟩ := List.pairwise_cons.mp hapart
  obtain rfl := hu.unique ht
  refine ⟨hnew, fun e' he' => ?_, hapart⟩
  obtain ⟨w, hw, hout⟩ := hnames e' he'
  refine ⟨w, hw, List.not_mem_cons_of_ne_of_not_mem ?_ hout⟩
  rintro rfl
  exact hfirst e' he' w hu hw

/-- No key is refused if all have different names. -/
lemma checkNames_loaded {seen : List Text} (hkey : Loads d root rule filling allowed key)
    (hes : ∀ e ∈ es, IsEntry root e) (hl : Loading d root rule filling s)
    (hallowed : Loadable d root rule → ∀ e ∈ es, allowed s.active e.1)
    (hnew : Loadable d root rule → FreshNames d seen es) :
    Yields (Refused d root rule) (checkNames (d.under rule) key seen es s) fun _ s' =>
      Proceeds d root rule filling [] 0 s s' := by
  induction es generalizing s seen with
  | nil => exact .of_eq rfl (.refl hl)
  | cons e es ih =>
    obtain ⟨k, v⟩ := e
    obtain ⟨he, hes⟩ := List.forall_mem_cons.mp hes
    have hrest (hload : Loadable d root rule) (e : Node × Node) (he : e ∈ es) : allowed s.active e.1 :=
      hallowed hload e (List.mem_cons_of_mem _ he)
    obtain ⟨tag, htag, -⟩ := tagOf_spec (follow d.source k) s
    rw [checkNames, follow_under]
    refine .step htag ?_
    split_ifs
    · refine ih hes hl hrest fun hload => ?_
      obtain ⟨hnames, hapart⟩ := hnew hload
      exact ⟨fun e he => hnames e (List.mem_cons_of_mem _ he), (List.pairwise_cons.mp hapart).2⟩
    · refine (hkey k he.parts.1 s hl fun hload => hallowed hload _ List.mem_cons_self).bind ?_
      rintro w s₁ ⟨hp₁, -, hw⟩
      have hnamed (hload : Loadable d root rule) : ∃ name, IsNamed d (follow d.source k) name :=
        ((hnew hload).1 _ List.mem_cons_self).imp fun _ h => h.1
      refine (nameOf_loaded hw hnamed).bind ?_
      rintro name s₁ ⟨rfl, -, hname⟩
      have hnext (hload : Loadable d root rule) : name ∉ seen ∧ FreshNames d (name :: seen) es := by
        obtain ⟨own, h⟩ := hnamed hload
        obtain rfl := hname hload.clear own h
        exact (hnew hload).cons h
      split_ifs with hseen
      · exact refused_of_not fun hload => (hnext hload).1 (by simpa using hseen)
      · refine (ih hes hp₁.loading (fun hload => hp₁.active ▸ hrest hload) fun hload => (hnext hload).2).mono ?_
        exact fun _ _ hp₂ => hp₁.trans hp₂

/-- Entries whose keys are names. -/
lemma namedEntries_loaded (hkey : Loads d root rule filling allowed key) (hvalue : Loads d root rule filling allowed' value)
    (hes : ∀ e ∈ es, IsEntry root e) (hl : Loading d root rule filling s)
    (hallowed : Loadable d root rule → ∀ e ∈ es, allowed s.active e.1 ∧ allowed' s.active e.2)
    (hnames : Loadable d root rule → ∀ e ∈ es, ∃ name, IsNamed d (follow d.source e.1) name) :
    Yields (Refused d root rule) (namedEntries key value es s) fun ps s' =>
      Proceeds d root rule filling [] 0 s s' ∧ List.Forall₂ (ByName d s') es ps := by
  induction es generalizing s with
  | nil => exact .of_eq rfl ⟨.refl hl, .nil⟩
  | cons e es ih =>
    obtain ⟨k, v⟩ := e
    obtain ⟨he, hes⟩ := List.forall_mem_cons.mp hes
    rw [namedEntries]
    refine (hkey k he.parts.1 s hl fun hload => (hallowed hload _ List.mem_cons_self).1).bind ?_
    rintro w s₁ ⟨hp₁, hk, hw⟩
    refine (nameOf_loaded hw fun hload => hnames hload _ List.mem_cons_self).bind ?_
    rintro name s₁ ⟨rfl, hname, -⟩
    refine (hvalue v he.parts.2 s₁ hp₁.loading fun hload => ?_).bind ?_
    · exact hp₁.active ▸ (hallowed hload _ List.mem_cons_self).2
    rintro x s₂ ⟨hp₂, hx, -⟩
    have hp := hp₁.trans hp₂
    refine (ih hes hp.loading (fun hload e he => hp.active ▸ hallowed hload e (List.mem_cons_of_mem _ he))
      fun hload e he => hnames hload e (List.mem_cons_of_mem _ he)).bind ?_
    rintro ps s₃ ⟨hp₃, hall⟩
    refine .of_eq rfl ⟨hp.trans hp₃, .cons ⟨⟨w, name, ?_, rfl, hname⟩, hp₃.done _ _ hx⟩ hall⟩
    exact hp₃.done _ _ (hp₂.done _ _ hk)

end Entries

section Collections

variable {d : Document} {root n : Node} {rule : KeyRule} {filling : List Node} {allowed allowed' : List Nat → Node → Prop}
  {s : Making} {own es : List (Node × Node)} {h : Head} {v : Value} {key value : Node → Make Value} {fuel : Nat}

lemma pairList_append {size id : Nat} {front : List Node} {m : Node} :
    (front.zipIdx.map fun p => Value.alias (partId size id p.2)) ++ [.alias (partId size id front.length)] =
      (front ++ [m]).zipIdx.map fun p => Value.alias (partId size id p.2) := by
  simp [List.zipIdx_append]

/-- The next part of a list of pairs is made; the ones before stay. -/
lemma Listed.push {id : Nat} {front : List Node} {m : Node} {g : Head} {e : Node × Node} {k x : Value} {c : Value}
    (hid : id < d.size) (hfront : ∀ p ∈ front.zipIdx, Listed d s id p.2 p.1)
    (hm : follow d.source m = .mapping g own) (hgathered : Gathered d (.mapping g own) [e])
    (hk : Has d.source s e.1 k) (hx : Has d.source s e.2 x) :
    ∀ p ∈ (front ++ [m]).zipIdx, Listed d
      { s with contents := (id, c) :: (partId d.size id front.length, .tuple [k, x]) :: s.contents } id p.2 p.1 := by
  have hsize : 0 < d.size := Nat.lt_of_le_of_lt (Nat.zero_le _) hid
  have hne (place : Nat) : partId d.size id place ≠ id :=
    fun he => Nat.not_lt.mpr (size_le_partId d.size id place) (he.symm ▸ hid)
  intro p hp
  rw [List.zipIdx_append] at hp
  rcases List.mem_append.mp hp with hp | hp
  · refine (hfront p hp).mono (fun _ _ h => h) ?_
    have hlt : p.2 < front.length := List.snd_lt_of_mem_zipIdx hp
    rw [lookup_cons_of_ne (hne _), lookup_cons_of_ne]
    exact fun he => Nat.ne_of_lt hlt (partId_inj hsize he)
  · obtain rfl : p = (m, front.length) := by simpa using hp
    refine ⟨g, own, e, k, x, hm, hgathered, hk, hx, ?_⟩
    rw [lookup_cons_of_ne (hne _), lookup_cons_self]

lemma newPart_run {id : Nat} {front : List Node} {f : Node × Nat → Value} {content : Value} (hsize : s.size = d.size) :
    newPart id (front.zipIdx.map f).length content s = .ok (.alias (partId d.size id front.length),
      { s with contents := (partId d.size id front.length, content) :: s.contents }) := by
  rw [List.length_map, List.length_zipIdx, ← hsize]
  rfl

lemma Proceeds.push {id : Nat} (place : Nat) (part c : Value) (hd : Numbered d root) (hid : id < d.size)
    (hl : Loading d root rule filling s) (hbusy : Busy filling s id) :
    Proceeds d root rule filling [id] 0 s
      { s with contents := (id, c) :: (partId d.size id place, part) :: s.contents } := by
  have hp : Proceeds d root rule filling [id] 0 s { s with contents := (partId d.size id place, part) :: s.contents } :=
    .sets hl hd (partId_mod place hid) (hbusy.open hl hd)
  exact hp.trans (.sets hp.loading hd (Nat.mod_eq_of_lt hid) ((hbusy.mono hp).open hp.loading hd))

/-- The parts of a list of pairs are made one after the other. -/
lemma fillPairs_loaded {context : Context} {items : List Node} (front : List Node) (hd : Numbered d root)
    (hvalue : Loads d root rule filling allowed value) (hitems : ∀ m ∈ items, m ∈ root.parts) (hid : h.id < d.size)
    (hl : Loading d root rule filling s) (hbusy : Busy filling s h.id)
    (hsingle : Loadable d root rule → ∀ m ∈ items, ∃ g e, follow d.source m = .mapping g [e] ∧
      allowed s.active e.1 ∧ allowed s.active e.2)
    (hfront : ∀ p ∈ front.zipIdx, Listed d s h.id p.2 p.1)
    (hcontent : items = [] → s.contents.lookup h.id = some (pairList d.size h.id front)) :
    Yields (Refused d root rule) (fillPairs (d.under rule) value context h
        (front.zipIdx.map fun p => .alias (partId d.size h.id p.2)) items s) fun _ s' =>
      Proceeds d root rule filling [h.id] 0 s s' ∧
        s'.contents.lookup h.id = some (pairList d.size h.id (front ++ items)) ∧
        ∀ p ∈ (front ++ items).zipIdx, Listed d s' h.id p.2 p.1 := by
  induction items generalizing front s with
  | nil =>
    rw [List.append_nil]
    exact .of_eq rfl ⟨.refl hl, hcontent rfl, hfront⟩
  | cons m items ih =>
    obtain ⟨hm, hitems⟩ := List.forall_mem_cons.mp hitems
    have hfollow := follow_mem hd hm
    rw [fillPairs, follow_under]
    cases heq : follow d.source m with
    | mapping g own =>
      rw [heq] at hfollow
      have hgathered := hl.sourced.gathered hfollow
      have hone (hload : Loadable d root rule) : ∃ e, entriesNow s g own = [e] ∧
          allowed s.active e.1 ∧ allowed s.active e.2 := by
        obtain ⟨g', e, hm', hallowed⟩ := hsingle hload m List.mem_cons_self
        rw [heq] at hm'
        injection hm' with hhead hown
        refine ⟨e, ?_, hallowed⟩
        rw [hgathered.own (hload.clear.unmerged _ hfollow)]
        exact hown
      refine .step (a := entriesNow s g own) (t := s) rfl ?_
      generalize entriesNow s g own = es at hgathered hone
      rcases es with _ | ⟨⟨k, v⟩, _ | ⟨e, es⟩⟩
      · refine refused_of_not fun hload => ?_
        obtain ⟨e, he, -⟩ := hone hload
        cases he
      · have hallowed (hload : Loadable d root rule) : allowed s.active k ∧ allowed s.active v := by
          obtain ⟨e, he, hallowed⟩ := hone hload
          cases he
          exact hallowed
        have he : IsEntry root (k, v) := (hgathered.comes _ (List.mem_singleton_self _)).isEntry hd hfollow
        refine (hvalue k he.parts.1 s hl fun hload => (hallowed hload).1).bind ?_
        rintro key s₁ ⟨hp₁, hk, -⟩
        refine (hvalue v he.parts.2 s₁ hp₁.loading fun hload => hp₁.active ▸ (hallowed hload).2).bind ?_
        rintro x s₂ ⟨hp₂, hx, -⟩
        have hp := hp₁.trans hp₂
        refine .step (newPart_run hp.loading.size) ?_
        rw [pairList_append (m := m)]
        have hall := (hp.widen (List.nil_subset [h.id]) le_rfl).trans (.push front.length (.tuple [key, x])
          (pairList d.size h.id (front ++ [m])) hd hid hp.loading (hbusy.mono hp))
        have hkept : ∀ p ∈ front.zipIdx, Listed d s₂ h.id p.2 p.1 := fun p hmem =>
          (hfront p hmem).mono hp.done (hp.kept _ List.not_mem_nil ((partId_mod _ hid).symm ▸ hbusy.begun))
        have hlisted := Listed.push (c := pairList d.size h.id (front ++ [m])) hid hkept heq hgathered
          (hp₂.done _ _ hk) hx
        refine .step (a := ()) rfl ((ih (front ++ [m]) hitems hall.loading (hbusy.mono hall) ?_ hlisted
          fun _ => lookup_cons_self).mono ?_)
        · exact fun hload m' hm' => hall.active ▸ hsingle hload m' (List.mem_cons_of_mem _ hm')
        · rw [List.append_assoc]
          rintro - s' ⟨hp₃, hrest⟩
          exact ⟨hall.trans hp₃, hrest⟩
      · refine refused_of_not fun hload => ?_
        obtain ⟨e, he, -⟩ := hone hload
        cases he
    | _ =>
      refine refused_of_not fun hload => ?_
      obtain ⟨g, e, hm', -⟩ := hsingle hload m List.mem_cons_self
      rw [heq] at hm'
      cases hm'

lemma flatten_loaded (hd : Numbered d root) (hn : .mapping h own ∈ root.parts) (htag : h.tag = Tag.mapping ∨ h.tag = Tag.set)
    (hl : Loading d root rule filling s) (hfuel : Loadable d root rule → 0 < fuel) :
    Yields (Refused d root rule) (flatten (d.under rule) fuel h own s) fun es s' =>
      Proceeds d root rule filling [] 0 s s' ∧ Gathered d (.mapping h own) es := by
  cases fuel with
  | zero => exact refused_of_not fun hload => absurd (hfuel hload) (Nat.lt_irrefl 0)
  | succ fuel =>
    refine ((flatten_gathers hd hn hl.sourced fun _ => ⟨Nat.succ_pos fuel, htag⟩).mono ?_).expect
      fun _ hno => refused_of_not fun hload => hno hload.clear
    rintro es s' ⟨hgathered, hsourced, hrewrites, hclear⟩
    exact ⟨.rewrites hl hd hrewrites hsourced hclear, hgathered⟩

lemma Gathered.isEntry (hg : Gathered d (.mapping h own) es) (hd : Numbered d root) (hn : .mapping h own ∈ root.parts) :
    ∀ e ∈ es, IsEntry root e :=
  fun e he => (hg.comes e he).isEntry hd hn

lemma emptyContent_pairs {tag : Text} (h : tag = Tag.orderedMap ∨ tag = Tag.pairs) : emptyContent tag = .list [] := by
  rcases h with h | h <;> rw [h] <;> decide

/-- The entries of a mapping or set, with values as keys. -/
lemma ownEntries_loaded (hd : Numbered d root) (hvalue : Loads d root rule filling allowed value)
    (hn : .mapping h own ∈ root.parts) (htag : h.tag = Tag.mapping ∨ h.tag = Tag.set) (hl : Loading d root rule filling s)
    (hfuel : Loadable d root rule → 0 < fuel) (hreached : Loadable d root rule → Reached d root (.mapping h own))
    (hallowed : Loadable d root rule → ∀ c, Reached d root (follow d.source c) → allowed s.active c)
    (hkeys : Loadable d root rule → rule = .names →
      ∀ e ∈ own, isCollectionTag (follow d.source e.1).head.tag = false) :
    Yields (Refused d root rule)
      ((flatten (d.under rule) fuel h own >>= fun es => keyedEntries (d.under rule) value h es) s) fun ps s' =>
        Proceeds d root rule filling [] 0 s s' ∧
          ∃ es, Gathered d (.mapping h own) es ∧ List.Forall₂ (ByValue d s') es ps := by
  refine (flatten_loaded hd hn htag hl hfuel).bind ?_
  rintro es s₁ ⟨hp₁, hgathered⟩
  have hcollection : isCollectionTag h.tag = true := by
    rcases htag with htag | htag <;> rw [htag] <;> decide
  have hes (hload : Loadable d root rule) : es = own := hgathered.own (hload.clear.unmerged _ hn)
  refine (keyedEntries_loaded hvalue (hgathered.isEntry hd hn) hp₁.loading (fun hload e he => ?_)
    fun hload hrule e he => hkeys hload hrule e (hes hload ▸ he)).mono ?_
  · obtain ⟨hk, hv⟩ := (hreached hload).side hload.clear hd hcollection (hes hload ▸ he)
    rw [hp₁.active]
    exact ⟨hallowed hload _ hk, hallowed hload _ hv⟩
  · rintro ps s₂ ⟨hp₂, hall⟩
    exact ⟨hp₁.trans hp₂, es, hgathered, hall⟩

/-- A collection is filled. -/
lemma fill_loaded (hd : Numbered d root) (hvalue : Loads d root rule filling allowed value) (hn : CanFill rule root n)
    (hl : Loading d root rule filling s) (hbusy : Busy filling s n.head.id) (hfuel : Loadable d root rule → 0 < fuel)
    (hempty : ∀ h, n = .sequence h [] → h.tag = Tag.orderedMap ∨ h.tag = Tag.pairs →
      s.contents.lookup h.id = some (.list []))
    (hreached : Loadable d root rule → Reached d root n)
    (hallowed : Loadable d root rule → ∀ c, Reached d root (follow d.source c) → allowed s.active c) :
    Yields (Refused d root rule) (fill (d.under rule) fuel value n s) fun _ s' =>
      Proceeds d root rule filling [n.head.id] 0 s s' ∧ Filled d rule s' n := by
  have hid := hd.bounded n hn.1 hn.2.1
  have hset {s₁ : Making} (v : Value) (hp : Proceeds d root rule filling [] 0 s s₁) :
      Proceeds d root rule filling [n.head.id] 0 s { s₁ with contents := (n.head.id, v) :: s₁.contents } :=
    (hp.widen (List.nil_subset _) le_rfl).trans
      (.sets hp.loading hd (Nat.mod_eq_of_lt hid) ((hbusy.mono hp).open hp.loading hd))
  rw [fill.eq_def]
  refine .step (tagOf_filled hn.2.2) ?_
  have hfit (hload : Loadable d root rule) : Fit d n := hload.fit n (hreached hload)
  have hfilled {e : Node × Node} {p : Value × Value} {s₁ : Making} {v : Value} (h : ByValue d s₁ e p) :
      ByValue d { s₁ with contents := (n.head.id, v) :: s₁.contents } e p := h.mono fun _ _ h => h
  rcases isFilledTag_cases hn.2.2 with htag | htag | htag | ⟨htag, rfl⟩
  · rw [if_pos htag]
    cases n with
    | sequence g items =>
      refine (items_loaded hvalue (fun m hm => Node.parts_trans root hn.1 hm) hl fun hload m hm =>
        hallowed hload m ((hreached hload).item htag hm)).bind ?_
      rintro vs s₁ ⟨hp, hall⟩
      exact .of_eq rfl ⟨hset _ hp, .sequence htag hall lookup_cons_self⟩
    | _ => exact refused_of_not fun hload => by cases (hfit hload).isSequence (.inl htag)
  · have hno : n.head.tag ≠ Tag.sequence := by
      rw [htag]
      decide
    rw [if_neg hno, if_pos (.inl htag)]
    cases n with
    | mapping g own =>
      dsimp only
      rw [← bind_assoc]
      refine (ownEntries_loaded hd hvalue hn.1 (.inr htag) hl hfuel hreached hallowed fun hload hrule =>
        (hload.named hrule).hashable _ (hreached hload) htag).bind ?_
      rintro ps s₁ ⟨hp, es, hgathered, hall⟩
      rw [if_pos htag]
      exact .of_eq rfl ⟨hset _ hp, .set htag hgathered (hall.imp fun _ _ => hfilled) lookup_cons_self⟩
    | _ => exact refused_of_not fun hload => by cases (hfit hload).isMapping (.inr htag)
  · have hno : n.head.tag ≠ Tag.sequence ∧ ¬(n.head.tag = Tag.set ∨ n.head.tag = Tag.mapping) := by
      rcases htag with htag | htag <;> rw [htag] <;> decide
    rw [if_neg hno.1, if_neg hno.2]
    cases n with
    | sequence g items =>
      refine (fillPairs_loaded [] hd hvalue (fun m hm => Node.parts_trans root hn.1 hm) hid hl hbusy
        (fun hload m hm => ?_) (by simp) (fun hnil => hempty g (hnil ▸ rfl) htag)).mono ?_
      · obtain ⟨g', e, hm'⟩ := (hfit hload).single htag m hm
        obtain ⟨hk, hv⟩ := (hreached hload).pair hload.clear hd htag hm hm' (List.mem_singleton_self e)
        exact ⟨g', e, hm', hallowed hload _ hk, hallowed hload _ hv⟩
      · rintro - s₁ ⟨hp, hcontent, hlisted⟩
        exact ⟨hp, .pairs htag hlisted hcontent⟩
    | _ => exact refused_of_not fun hload => by cases (hfit hload).isSequence (.inr htag)
  · have hno : n.head.tag ≠ Tag.sequence ∧ n.head.tag ≠ Tag.set := by
      rw [htag]
      decide
    rw [if_neg hno.1, if_pos (.inr htag)]
    cases n with
    | mapping g own =>
      dsimp only
      rw [← bind_assoc]
      refine (ownEntries_loaded hd hvalue hn.1 (.inl htag) hl hfuel hreached hallowed fun _ h => by cases h).bind ?_
      rintro ps s₁ ⟨hp, es, hgathered, hall⟩
      rw [if_neg hno.2]
      exact .of_eq rfl ⟨hset _ hp, .mapping htag hgathered (hall.imp fun _ _ => hfilled) lookup_cons_self⟩
    | _ => exact refused_of_not fun hload => by cases (hfit hload).isMapping (.inl htag)

end Collections

section Values

variable {d : Document} {root n : Node} {rule : KeyRule} {filling : List Node} {allowed allowed' : List Nat → Node → Prop}
  {s : Making} {es : List (Node × Node)} {ps : List (Value × Value)} {h : Head} {v : Value} {key value : Node → Make Value}
  {fuel l : Nat} {deep deep' : Bool} {tag : Text} {active : List Nat}

/-- Keys lead nowhere. -/
lemma Paired.not_refers_key {e : Node × Node} {p : Value × Value} (hd : Numbered d root) (hclosed : Closed d root)
    (hl : Loading d root rule filling s) (he : IsEntry root e) (hp : Paired d rule s e p) : ¬Refers l p.1 := by
  intro h
  cases rule with
  | names =>
    obtain ⟨⟨k, name, -, hkey, -⟩, -⟩ := hp
    rw [hkey] at h
    exact absurd h Value.not_refers_scalar
  | values =>
    have hpart := he.parts.1
    have hvalue := (hl.done _ (follow_mem hd hpart) (hclosed _ hpart) _ hp.key).value
    obtain ⟨htag, -⟩ := hvalue.refers h
    rw [hp.scalar] at htag
    cases htag

lemma Paired.has_value {e : Node × Node} {p : Value × Value} (hp : Paired d rule s e p) : Has d.source s e.2 p.2 := by
  cases rule with
  | names => exact ByName.value hp
  | values => exact ByValue.value hp

lemma refers_paired (hd : Numbered d root) (hclosed : Closed d root) (hl : Loading d root rule filling s)
    (hes : ∀ e ∈ es, IsEntry root e) (hps : List.Forall₂ (Paired d rule s) es ps)
    (h : Refers l (.map false (Value.entriesOf ps))) :
    ∃ e ∈ es, isCollectionTag (follow d.source e.2).head.tag = true ∧ l = (follow d.source e.2).head.id ∧
      s.done.lookup l ≠ none := by
  obtain ⟨p, hp, hside⟩ := Value.refers_entriesOf h
  obtain ⟨e, he, hpaired⟩ := exists_of_forall₂ hps hp
  have hrefers : Refers l p.2 := hside.resolve_left (hpaired.not_refers_key hd hclosed hl (hes e he))
  have hpart := (hes e he).parts.2
  have hvalue := (hl.done _ (follow_mem hd hpart) (hclosed _ hpart) _ hpaired.has_value).value
  obtain ⟨htag, rfl⟩ := hvalue.refers hrefers
  exact ⟨e, he, htag, rfl, hpaired.has_value.isDone⟩

/-- The entries of a mapping, with names as keys. No two of its own may have the same. -/
lemma distinctEntries_loaded (hd : Numbered d root) (hkey : Loads d root .names filling allowed key)
    (hvalue : Loads d root .names filling allowed' value) (hn : .mapping h es ∈ root.parts) (htag : h.tag = Tag.mapping)
    (hl : Loading d root .names filling s) (hfuel : Loadable d root .names → 0 < fuel)
    (hreached : Loadable d root .names → Reached d root (.mapping h es))
    (hallowed : Loadable d root .names → ∀ e ∈ es, allowed s.active e.1 ∧ allowed' s.active e.2) :
    Yields (Refused d root .names) ((do
      checkNames (d.under .names) key [] (← entriesOf h es)
      namedEntries key value (← flatten (d.under .names) fuel h es) : Make (List (Value × Value))) s) fun ps s' =>
        Proceeds d root .names filling [] 0 s s' ∧
          ∃ all, Gathered d (.mapping h es) all ∧ List.Forall₂ (ByName d s') all ps := by
  have hnow (hload : Loadable d root .names) : entriesNow s h es = es :=
    hl.sourced.entriesNow_plain hn (hload.clear.unmerged _ hn)
  have hnamed (hload : Loadable d root .names) := (hload.named rfl).named _ (hreached hload) htag
  refine .step (a := entriesNow s h es) (t := s) rfl ?_
  refine (checkNames_loaded hkey ((hl.sourced.gathered hn).isEntry hd hn) hl
    (fun hload e he => (hallowed hload e (hnow hload ▸ he)).1) fun hload => ?_).bind ?_
  · rw [hnow hload]
    refine ⟨fun e he => ?_, (hload.named rfl).apart _ (hreached hload) htag⟩
    exact (hnamed hload e he).imp fun _ h => ⟨h, List.not_mem_nil⟩
  · rintro - s₁ hp₁
    refine (flatten_loaded hd hn (.inl htag) hp₁.loading hfuel).bind ?_
    rintro all s₂ ⟨hp₂, hgathered⟩
    have hp := hp₁.trans hp₂
    have hall (hload : Loadable d root .names) : all = es := hgathered.own (hload.clear.unmerged _ hn)
    refine (namedEntries_loaded hkey hvalue (hgathered.isEntry hd hn) hp.loading
      (fun hload e he => hp.active ▸ hallowed hload e (hall hload ▸ he))
      fun hload e he => hnamed hload e (hall hload ▸ he)).mono ?_
    rintro ps s₃ ⟨hp₃, hps⟩
    exact ⟨hp.trans hp₃, all, hgathered, hps⟩

/-- The content of a mapping with names as keys. -/
lemma namedMapping_loaded (hd : Numbered d root) (hclosed : Closed d root) (hkey : Loads d root .names filling allowed key)
    (hvalue : Loads d root .names filling allowed' value) (hn : n ∈ root.parts) (htag : n.head.tag = Tag.mapping)
    (hl : Loading d root .names filling s) (hfuel : Loadable d root .names → 0 < fuel)
    (hreached : Loadable d root .names → Reached d root n)
    (hallowed : Loadable d root .names → ∀ c, Reached d root (follow d.source c) → Holds d n (follow d.source c) →
      (isCollectionTag (follow d.source c).head.tag = false → allowed s.active c) ∧ allowed' s.active c) :
    Yields (Refused d root .names) (namedMapping (d.under .names) fuel key value n s) fun v s' =>
      Proceeds d root .names filling [] 0 s s' ∧ ∀ s'' : Making, s''.done = s'.done →
        s''.contents.lookup n.head.id = some v →
          Filled d .names s'' n ∧ ∀ l, Refers l v → s''.done.lookup l ≠ none := by
  have hfit (hload : Loadable d root .names) : n.kind = .mapping := (hload.fit n (hreached hload)).isMapping (.inl htag)
  have hblank (hempty : n.isBlank = true) : Yields (Refused d root .names)
      ((pure (.map false []) : Make Value) s) fun v s' => Proceeds d root .names filling [] 0 s s' ∧
        ∀ s'' : Making, s''.done = s'.done → s''.contents.lookup n.head.id = some v →
          Filled d .names s'' n ∧ ∀ l, Refers l v → s''.done.lookup l ≠ none :=
    .of_eq rfl ⟨.refl hl, fun s'' _ hc => ⟨.blank rfl htag hempty hc, by simp⟩⟩
  cases n with
  | mapping g own =>
    have hcollection : isCollectionTag g.tag = true := by
      rw [show g.tag = Tag.mapping from htag]
      decide
    have hside (hload : Loadable d root .names) (e : Node × Node) (he : e ∈ own) :
        allowed s.active e.1 ∧ allowed' s.active e.2 := by
      obtain ⟨hk, hv⟩ := (hreached hload).side hload.clear hd hcollection he
      obtain ⟨name, hname⟩ := (hload.named rfl).named _ (hreached hload) htag e he
      exact ⟨(hallowed hload _ hk ⟨htag, e, he, .inl rfl⟩).1 hname.not_collection,
        (hallowed hload _ hv ⟨htag, e, he, .inr rfl⟩).2⟩
    have hrun : namedMapping (d.under .names) fuel key value (.mapping g own) = (do
        checkNames (d.under .names) key [] (← entriesOf g own)
        namedEntries key value (← flatten (d.under .names) fuel g own)) >>= fun ps =>
          pure (.map false (Value.entriesOf ps)) := by
      simp only [namedMapping, bind_assoc]
    rw [hrun]
    refine (distinctEntries_loaded hd hkey hvalue hn htag hl hfuel hreached hside).bind ?_
    rintro ps s₁ ⟨hp, es, hgathered, hps⟩
    refine .of_eq rfl ⟨hp, fun s'' hdone hc => ⟨?_, fun l hrefers => ?_⟩⟩
    · exact .mapping htag hgathered (hps.imp fun _ _ h => h.mono fun _ _ hv => hdone ▸ hv) hc
    · obtain ⟨e, -, -, -, hmade⟩ := refers_paired hd hclosed hp.loading (hgathered.isEntry hd hn) hps hrefers
      rwa [hdone]
  | sequence g items =>
    cases items with
    | nil => exact hblank rfl
    | cons item items => exact refused_of_not fun hload => by cases hfit hload
  | scalar g t =>
    cases t with
    | nil => exact hblank rfl
    | cons c t => exact refused_of_not fun hload => by cases hfit hload
  | «alias» id => exact refused_of_not fun hload => by cases hfit hload

lemma textOf_loaded (hd : Numbered d root) (hn : n ∈ root.parts) (hl : Loading d root rule filling s)
    (hspells : Loadable d root rule → ∃ t, Spelled d (follow d.source n) t) (hfuel : Loadable d root rule → d.size ≤ fuel) :
    Yields (Refused d root rule) (textOf (d.under rule) fuel n s) fun t s' =>
      s' = s ∧ (Clear d root → Spelled d (follow d.source n) t) := by
  by_cases hload : Loadable d root rule
  · obtain ⟨t, k, hk⟩ := hspells hload
    have hlt : k < fuel := Nat.lt_of_lt_of_le (hk.lt_size hd (follow_mem hd hn)) (hfuel hload)
    exact .of_eq (textOf_spells hd hload.clear hl.sourced (hl.texts hload.clear) hn hk hlt) ⟨rfl, fun _ => ⟨k, hk⟩⟩
  · exact (textOf_spelled hd hn hl.sourced hl.texts).expect fun _ _ => refused_of_not hload

/-- What making the value of a node comes to while it counts as begun. -/
structure Produces (d : Document) (root : Node) (rule : KeyRule) (filling : List Node) (s : Making) (n : Node) (v : Value)
    (s' : Making) : Prop where
  proceeds : Proceeds d root rule filling [n.head.id] 1 s s'
  value : IsValueOf d root n v
  provided : isCollectionTag n.head.tag = true → Provided d rule filling s' n
  below : rule = .names → n.head.tag = Tag.mapping →
    ∀ c, s'.contents.lookup n.head.id = some c → ∀ l, Refers l c → s'.done.lookup l ≠ none

/-- The tag of a node in a document at hand. -/
structure IsTagIn (d : Document) (root n : Node) (tag : Text) : Prop where
  isTagOf : IsTagOf n tag
  clear : Clear d root → tag = n.head.tag

/-- A way to make the values of nodes that have just been begun. -/
def LoadsNew (d : Document) (root : Node) (rule : KeyRule) (filling : List Node) (fuel : Nat) (deep : Bool) : Prop :=
  ∀ n ∈ root.parts, n.isSolid = true → ∀ tag s active, IsTagIn d root n tag → Loading d root rule filling s →
    s.active = n.head.id :: active → (Loadable d root rule → Eased d root rule (fuel + 1) deep active n) →
      Yields (Refused d root rule) (make (d.under rule) fuel deep n tag s) (Produces d root rule filling s n)

lemma Loading.length_active (hl : Loading d root rule filling s) : s.active.length ≤ d.size :=
  length_le_of_bounded hl.nodup fun id hid => (hl.active id hid).2

lemma Eased.fuel_begun (h : Eased d root rule (fuel + 1) deep active n) (hl : Loading d root rule filling s)
    (hactive : s.active = n.head.id :: active) : d.size + 9 ≤ fuel := by
  have hroom := h.room
  have hlength := hl.length_active
  rw [hactive, List.length_cons] at hlength
  omega

/-- What is in a mapping that is being made is easy, too. -/
lemma Eased.child {c : Node} (h : Eased d root .names (fuel + 2) deep active n) (hn : n ∈ root.parts)
    (hsolid : n.isSolid = true) (hreached : Reached d root (follow d.source c)) (hc : Holds d n (follow d.source c))
    (hdeep : deep' = true → isCollectionTag (follow d.source c).head.tag = false) :
    Eased d root .names fuel deep' (n.head.id :: active) c := by
  refine ⟨hreached, hdeep, List.forall_mem_cons.mpr ⟨⟨rfl, n, hn, hsolid, rfl, .single hc⟩, fun id hid => ?_⟩, ?_⟩
  · obtain ⟨-, m, hm, hsolid', hid, haround⟩ := h.around id hid
    rw [follow_of_solid d.source hsolid] at haround
    exact ⟨rfl, m, hm, hsolid', hid, haround.tail hc⟩
  · have hroom := h.room
    rw [List.length_cons]
    omega

/-- A scalar is made. -/
lemma make_scalar_loaded (hd : Numbered d root) (hn : n ∈ root.parts) (hsolid : n.isSolid = true)
    (htag : IsTagIn d root n tag) (hscalar : isScalarTag tag = true) (hl : Loading d root rule filling s)
    (hfuel : Loadable d root rule → d.size ≤ fuel) (hreached : Loadable d root rule → Reached d root n) :
    Yields (Refused d root rule) (make (d.under rule) (fuel + 1) deep n tag s) (Produces d root rule filling s n) := by
  have hno := not_isCollectionTag hscalar htag.isTagOf
  have hmeans (hload : Loadable d root rule) : ∃ v, Means d n v := by
    have hfit := hload.fit n (hreached hload)
    have hsame := htag.clear hload.clear
    cases hfit with
    | scalar _ means => exact ⟨_, means⟩
    | sequence tag =>
      rw [show (Node.sequence _ _).head.tag = _ from tag] at hno
      exact absurd hno (by decide)
    | pairs tag =>
      rcases tag with tag | tag <;> rw [show (Node.sequence _ _).head.tag = _ from tag] at hno <;>
        exact absurd hno (by decide)
    | mapping tag =>
      rcases tag with tag | tag <;> rw [show (Node.mapping _ _).head.tag = _ from tag] at hno <;>
        exact absurd hno (by decide)
  rw [make, if_pos hscalar]
  refine (textOf_loaded hd hn hl (fun hload => ?_) hfuel).bind ?_
  · obtain ⟨v, t, ht, -⟩ := hmeans hload
    exact ⟨t, (follow_of_solid d.source hsolid).symm ▸ ht⟩
  rintro t s₁ ⟨rfl, ht⟩
  rw [follow_of_solid d.source hsolid] at ht
  cases hv : scalarOf n tag t with
  | error fault =>
    refine refused_of_not fun hload => ?_
    obtain ⟨v, u, hu, hmeans⟩ := hmeans hload
    obtain rfl := (ht hload.clear).unique hu
    rw [← htag.clear hload.clear, hv] at hmeans
    cases hmeans
  | ok v =>
    refine .of_eq rfl ⟨.refl hl, ⟨fun h => ?_, fun _ => ⟨tag, htag.isTagOf, hscalar, isScalar_of_ok hscalar hv⟩,
      fun hclear _ => ?_⟩, fun h => ?_, fun _ h => ?_⟩
    · rw [hno] at h
      cases h
    · have hsame := htag.clear hclear
      exact ⟨hsame ▸ hscalar, t, ht hclear, hsame ▸ hv⟩
    · rw [hno] at h
      cases h
    · rw [h] at hno
      exact absurd hno (by decide)

lemma isValueOf_link (htag : isCollectionTag n.head.tag = true) : IsValueOf d root n (.alias n.head.id) := by
  refine ⟨fun _ => rfl, fun h => ?_, fun _ h => ?_⟩ <;>
    · rw [htag] at h
      cases h

/-- A collection begins with nothing in it. It is filled at once or waits. -/
lemma make_filled_loaded (hd : Numbered d root)
    (hvalue : Loads d root rule filling (Eased d root rule fuel true) (Make.value (d.under rule) fuel true))
    (hn : CanFill rule root n) (hl : Loading d root rule filling s) (hactive : n.head.id ∈ s.active)
    (hreached : Loadable d root rule → Reached d root n) (hdeep : Loadable d root rule → deep = false) :
    Yields (Refused d root rule) (make (d.under rule) (fuel + 1) deep n n.head.tag s)
      (Produces d root rule filling s n) := by
  have hcollection := isCollectionTag_filled hn.2.2
  have hnames (s' : Making) (hrule : rule = .names) (htag : n.head.tag = Tag.mapping) (c : Value)
      (_ : s'.contents.lookup n.head.id = some c) (l : Nat) (_ : Refers l c) : s'.done.lookup l ≠ none := by
    subst hrule
    exact absurd htag (ne_mapping_of_filled hn.2.2)
  have hp₁ : Proceeds d root rule filling [n.head.id] 0 s _ :=
    .sets (v := emptyContent n.head.tag) hl hd (Nat.mod_eq_of_lt (hd.bounded n hn.1 hn.2.1)) ((Busy.open (.inl hactive)) hl hd)
  rw [make, if_neg (not_isScalarTag_filled hn.2.2),
    if_pos (show isFilledTag (d.under rule).rule n.head.tag = true from hn.2.2)]
  refine .step (a := ()) rfl ?_
  cases deep with
  | false =>
    have hwaits : Waits d root rule { s with contents := (n.head.id, emptyContent n.head.tag) :: s.contents } n :=
      ⟨hn, .inr hactive, hreached⟩
    refine .step (a := ()) rfl (.of_eq rfl ⟨hp₁.trans (.waits hp₁.loading hd hwaits), isValueOf_link hcollection,
      fun _ => .waiting ?_ lookup_cons_self, hnames _⟩)
    exact List.mem_append_right _ (List.mem_singleton_self _)
  | true =>
    have hno (hload : Loadable d root rule) : False := by cases hdeep hload
    refine (fill_loaded hd hvalue hn hp₁.loading (.inl hactive) (fun hload => (hno hload).elim) ?_ hreached
      fun hload => (hno hload).elim).bind ?_
    · rintro h rfl htag
      rw [← emptyContent_pairs htag]
      exact lookup_cons_self
    · rintro - s₂ ⟨hp₂, hfilled⟩
      exact .of_eq rfl ⟨(hp₁.trans hp₂).widen (List.Subset.refl _) (Nat.zero_le _), isValueOf_link hcollection,
        fun _ => .filled hfilled, hnames _⟩

/-- A mapping with names as keys is made at once. -/
lemma make_named_loaded (hd : Numbered d root) (hclosed : Closed d root)
    (hvalue : ∀ deep, Loads d root .names filling (Eased d root .names fuel deep) (Make.value (d.under .names) fuel deep))
    (hn : n ∈ root.parts) (hsolid : n.isSolid = true) (htag : n.head.tag = Tag.mapping)
    (hl : Loading d root .names filling s) (hactive : s.active = n.head.id :: active)
    (heased : Loadable d root .names → Eased d root .names (fuel + 2) deep active n) :
    Yields (Refused d root .names) ((do
      let content ← namedMapping (d.under .names) fuel (Make.value (d.under .names) fuel true)
        (Make.value (d.under .names) fuel deep) n
      setContent n.head.id content
      pure (.alias n.head.id) : Make Value) s) (Produces d root .names filling s n) := by
  have hcollection : isCollectionTag n.head.tag = true := by
    rw [htag]
    decide
  have hdeep (hload : Loadable d root .names) : deep = false := by
    by_contra hdeep
    have hno := (heased hload).deep (by simpa using hdeep)
    rw [follow_of_solid d.source hsolid, hcollection] at hno
    cases hno
  have hfuel (hload : Loadable d root .names) : 0 < fuel := by
    have hbegun := (heased hload).fuel_begun hl hactive
    omega
  refine (namedMapping_loaded hd hclosed (hvalue true) (hvalue deep) hn htag hl hfuel
    (fun hload => follow_of_solid d.source hsolid ▸ (heased hload).reached)
    fun hload c hreached hc => ?_).bind ?_
  · rw [hactive]
    refine ⟨fun hno => (heased hload).child hn hsolid hreached hc fun _ => hno,
      (heased hload).child hn hsolid hreached hc fun htrue => ?_⟩
    rw [hdeep hload] at htrue
    cases htrue
  · rintro c s₁ ⟨hp, hcontent⟩
    have hbusy : Busy filling s n.head.id := .inl (hactive ▸ List.mem_cons_self)
    have hset : Proceeds d root .names filling [n.head.id] 0 s₁ _ :=
      .sets (v := c) hp.loading hd (Nat.mod_eq_of_lt (hd.bounded n hn hsolid)) ((hbusy.mono hp).open hp.loading hd)
    obtain ⟨hfilled, hbelow⟩ := hcontent { s₁ with contents := (n.head.id, c) :: s₁.contents } rfl lookup_cons_self
    refine .step (a := ()) rfl (.of_eq rfl ⟨?_, isValueOf_link hcollection, fun _ => .filled hfilled, ?_⟩)
    · exact ((hp.widen (List.nil_subset _) le_rfl).trans hset).widen (List.Subset.refl _) (Nat.zero_le _)
    · intro _ _ c' hc' l hrefers
      obtain rfl := Option.some.inj (lookup_cons_self.symm.trans hc')
      exact hbelow l hrefers

lemma make_loaded (hd : Numbered d root) (hclosed : Closed d root)
    (hvalue : ∀ deep, Loads d root rule filling (Eased d root rule fuel deep) (Make.value (d.under rule) fuel deep))
    (deep : Bool) : LoadsNew d root rule filling (fuel + 1) deep := by
  intro n hn hsolid tag s active htag hl hactive heased
  have hreached (hload : Loadable d root rule) : Reached d root n :=
    follow_of_solid d.source hsolid ▸ (heased hload).reached
  have hfuel (hload : Loadable d root rule) : d.size + 8 ≤ fuel :=
    Nat.le_of_succ_le_succ ((heased hload).fuel_begun hl hactive)
  by_cases hscalar : isScalarTag tag = true
  · exact make_scalar_loaded hd hn hsolid htag hscalar hl (fun hload => (Nat.le_add_right _ 8).trans (hfuel hload)) hreached
  · obtain rfl : tag = n.head.tag := htag.isTagOf.resolve_right fun h => hscalar (by rw [h.2]; decide)
    by_cases hfilled : isFilledTag rule n.head.tag = true
    · refine make_filled_loaded hd (hvalue true) ⟨hn, hsolid, hfilled⟩ hl (hactive ▸ List.mem_cons_self) hreached
        fun hload => ?_
      by_contra hdeep
      have hno := (heased hload).deep (by simpa using hdeep)
      rw [follow_of_solid d.source hsolid, isCollectionTag_filled hfilled] at hno
      cases hno
    · rw [make, if_neg hscalar, if_neg (show ¬isFilledTag (d.under rule).rule n.head.tag = true from hfilled)]
      split_ifs with hmapping
      · cases rule with
        | values => exact absurd (by rw [hmapping]; decide) hfilled
        | names => exact make_named_loaded hd hclosed hvalue hn hsolid hmapping hl hactive heased
      · refine refused_of_not fun hload => ?_
        cases hload.fit n (hreached hload) with
        | scalar tag => exact hscalar tag
        | sequence tag => exact hfilled (by rw [show (Node.sequence _ _).head.tag = _ from tag]; cases rule <;> decide)
        | pairs tag =>
          refine hfilled ?_
          rcases tag with tag | tag <;> rw [show (Node.sequence _ _).head.tag = _ from tag] <;> cases rule <;> decide
        | mapping tag =>
          refine tag.elim hmapping fun tag => hfilled ?_
          rw [show (Node.mapping _ _).head.tag = _ from tag]
          cases rule <;> decide

/-- A node that is begun is made. -/
lemma value_loaded_of (hd : Numbered d root) (hclosed : Closed d root) (hmake : LoadsNew d root rule filling fuel deep) :
    Loads d root rule filling (Eased d root rule (fuel + 1) deep) (Make.value (d.under rule) (fuel + 1) deep) := by
  intro n hn s hl heased
  have hm := follow_mem hd hn
  have hsolid : (follow d.source n).isSolid = true := hclosed n hn
  rw [Make.value, follow_under]
  refine .step (a := s) (t := s) rfl ?_
  generalize hfollow : follow d.source n = m at hm hsolid ⊢
  have heased' (hload : Loadable d root rule) : Eased d root rule (fuel + 1) deep s.active m := by
    obtain ⟨hreached, hdeep, haround, hroom⟩ := heased hload
    rw [hfollow, ← follow_of_solid d.source hsolid] at hreached hdeep haround
    exact ⟨hreached, hdeep, haround, hroom⟩
  cases hdone : s.done.lookup m.head.id with
  | some v => exact .of_eq rfl ⟨.refl hl, by rw [Has, hfollow, hdone], (hl.done m hm hsolid v hdone).value⟩
  | none =>
    refine .step (a := s) (t := s) rfl ?_
    by_cases hactive : m.head.id ∈ s.active
    · rw [if_pos (by simpa using hactive)]
      refine refused_of_not fun hload => ?_
      -- the node would be a mapping around itself
      obtain ⟨rfl, m', hm', hsolid', hid, haround⟩ := (heased' hload).around _ hactive
      obtain rfl := hd.unique m' hm' hsolid' m hm hsolid hid
      rw [follow_of_solid d.source hsolid] at haround
      exact (hload.named rfl).grounded _ (follow_of_solid d.source hsolid ▸ (heased' hload).reached) haround
    · rw [if_neg (by simpa using hactive)]
      refine .step (a := ()) (t := { s with active := m.head.id :: s.active }) rfl ?_
      obtain ⟨tag, htag, hof⟩ := tagOf_spec m { s with active := m.head.id :: s.active }
      have htagIn : IsTagIn d root m tag := by
        refine ⟨hof, fun hclear => ?_⟩
        have hrun := tagOf_run (n := m) (s := { s with active := m.head.id :: s.active }) (hl.texts hclear)
        rw [htag] at hrun
        cases hrun
        rfl
      refine .step htag ((hmake m hm hsolid tag _ s.active htagIn (hl.activate hd hm hsolid hdone hactive) rfl
        heased').bind ?_)
      rintro v s₁ hproduces
      have hbelow (hrule : rule = .names) (htag : m.head.tag = Tag.mapping) (c : Value)
          (hc : s₁.contents.lookup m.head.id = some c) (g : Node) (_ : g ∈ root.parts) (_ : g.isSolid = true)
          (hrefers : Refers g.head.id c) := hproduces.below hrule htag c hc g.head.id hrefers
      have hp := hproduces.proceeds.finish hd hm hsolid hdone hactive hproduces.value hproduces.provided hbelow
      refine .step (a := ()) rfl (.of_eq rfl ⟨hp, ?_, hproduces.value⟩)
      rw [Has, hfollow]
      exact lookup_cons_self

/-- Every node that is easy gets its value, unless the keys of a mapping or set cannot be keys. -/
theorem value_loaded (hd : Numbered d root) (hclosed : Closed d root) (fuel : Nat) (deep : Bool) :
    Loads d root rule filling (Eased d root rule fuel deep) (Make.value (d.under rule) fuel deep) := by
  have both : (∀ deep, Loads d root rule filling (Eased d root rule fuel deep) (Make.value (d.under rule) fuel deep)) ∧
      ∀ deep, LoadsNew d root rule filling fuel deep := by
    induction fuel with
    | zero =>
      refine ⟨fun deep n hn s hl heased => refused_of_not fun hload => ?_,
        fun deep n hn hsolid tag s active _ hl hactive heased => refused_of_not fun hload => ?_⟩
      · have hroom := (heased hload).room
        have hlength := hl.length_active
        omega
      · have hbegun := (heased hload).fuel_begun hl hactive
        omega
    | succ fuel ih => exact ⟨fun deep => value_loaded_of hd hclosed (ih.2 deep), make_loaded hd hclosed ih.1⟩
  exact both.1 deep

end Values

end DocPath.Yaml.Make
