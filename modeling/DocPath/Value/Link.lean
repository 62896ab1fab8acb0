import DocPath.Value

/-! Anchors and aliases: entering a part of a document that contains itself. In every value of a
document no part lies inside a part with the same label, and every alias lies inside the part that
it stands for. -/

namespace DocPath.Value

mutual

/-- Parts that carry one of the labels become aliases. -/
def cut (labels : List Nat) : Value → Value
  | .anchor l v => if labels.contains l then .alias l else .anchor l (cut labels v)
  | .list xs => .list (cutAll labels xs)
  | .tuple xs => .tuple (cutAll labels xs)
  | .sequence t xs => .sequence t (cutAll labels xs)
  | .map o es => .map o (cutEntries labels es)
  | .set f xs => .set f (cutAll labels xs)
  | v => v

def cutAll (labels : List Nat) : List Value → List Value
  | [] => []
  | v :: vs => cut labels v :: cutAll labels vs

def cutEntries (labels : List Nat) : List (Value × Value) → List (Value × Value)
  | [] => []
  | (k, v) :: es => (cut labels k, cut labels v) :: cutEntries labels es

end

mutual

/-- Puts `whole` in the place of the aliases with its label. The labels met on the way down are
`above`; inside the copies they are aliases again. -/
def fill (label : Nat) (whole : Value) (above : List Nat) : Value → Value
  | .alias l => if l = label then whole.cut above else .alias l
  | .anchor l v => .anchor l (fill label whole (l :: above) v)
  | .list xs => .list (fillAll label whole above xs)
  | .tuple xs => .tuple (fillAll label whole above xs)
  | .sequence t xs => .sequence t (fillAll label whole above xs)
  | .map o es => .map o (fillEntries label whole above es)
  | .set f xs => .set f (fillAll label whole above xs)
  | v => v

def fillAll (label : Nat) (whole : Value) (above : List Nat) : List Value → List Value
  | [] => []
  | v :: vs => fill label whole above v :: fillAll label whole above vs

def fillEntries (label : Nat) (whole : Value) (above : List Nat) :
    List (Value × Value) → List (Value × Value)
  | [] => []
  | (k, v) :: es =>
    (fill label whole above k, fill label whole above v) :: fillEntries label whole above es

end

/-- A value without the anchors around it; the parts inside stand on their own. -/
def opened : Value → Value
  | .anchor l v => fill l (.anchor l v) [] (opened v)
  | v => v

mutual

/-- Puts a value in the place of every alias. -/
def substitute (f : Nat → Value) : Value → Value
  | .alias l => f l
  | .anchor l v => .anchor l (substitute f v)
  | .list xs => .list (substituteAll f xs)
  | .tuple xs => .tuple (substituteAll f xs)
  | .sequence t xs => .sequence t (substituteAll f xs)
  | .map o es => .map o (substituteEntries f es)
  | .set b xs => .set b (substituteAll f xs)
  | v => v

def substituteAll (f : Nat → Value) : List Value → List Value
  | [] => []
  | v :: vs => substitute f v :: substituteAll f vs

def substituteEntries (f : Nat → Value) : List (Value × Value) → List (Value × Value)
  | [] => []
  | (k, v) :: es => (substitute f k, substitute f v) :: substituteEntries f es

end

/-- The part with a label, given the contents of all labelled parts. Inside itself it is an alias. -/
def unfoldLabel (contents : List (Nat × Value)) : Nat → List Nat → Nat → Value
  | 0, _, l => .alias l
  | fuel + 1, above, l =>
    if above.contains l then .alias l
    else match contents.lookup l with
      | none => .alias l
      | some v => .anchor l (substitute (unfoldLabel contents fuel (l :: above)) v)

/-- A value with the labelled parts in place. -/
def unfold (contents : List (Nat × Value)) (v : Value) : Value :=
  substitute (unfoldLabel contents (contents.length + 1) []) v

mutual

/-- The labels of the anchors and aliases in a value, each as often as it occurs. -/
def labels : Value → List Nat
  | .alias l => [l]
  | .anchor l v => l :: labels v
  | .list xs => labelsAll xs
  | .tuple xs => labelsAll xs
  | .sequence _ xs => labelsAll xs
  | .map _ es => labelsEntries es
  | .set _ xs => labelsAll xs
  | _ => []

def labelsAll : List Value → List Nat
  | [] => []
  | v :: vs => labels v ++ labelsAll vs

def labelsEntries : List (Value × Value) → List Nat
  | [] => []
  | (k, v) :: es => labels k ++ labels v ++ labelsEntries es

end

mutual

/-- The labels of the aliases in a value that stand for no part of it. -/
def loose : Value → List Nat
  | .alias l => [l]
  | .anchor l v => (loose v).filter (· != l)
  | .list xs => looseAll xs
  | .tuple xs => looseAll xs
  | .sequence _ xs => looseAll xs
  | .map _ es => looseEntries es
  | .set _ xs => looseAll xs
  | _ => []

def looseAll : List Value → List Nat
  | [] => []
  | v :: vs => loose v ++ looseAll vs

def looseEntries : List (Value × Value) → List Nat
  | [] => []
  | (k, v) :: es => loose k ++ loose v ++ looseEntries es

end

/-- Whether a value may be told from an equal one by its label: only what is changeable or has no text
of its own. -/
def hasIdentity : Value → Bool
  | .scalar (.date _) | .scalar (.dateTime _) | .set .. => true
  | _ => false

mutual

/-- Without the anchors that tell nothing: those of parts with an identity if their labels are not among
the `shared` ones, and those of other parts that lie on no cycle. A part lies on a cycle if something in it
stands for the part itself or for one around it. -/
def prune (shared : List Nat) : Value → Value
  | .anchor l v =>
    let content := prune shared v
    if (if v.hasIdentity then shared.contains l else !(loose v).isEmpty) then .anchor l content
    else content
  | .list xs => .list (pruneAll shared xs)
  | .tuple xs => .tuple (pruneAll shared xs)
  | .sequence t xs => .sequence t (pruneAll shared xs)
  | .map o es => .map o (pruneEntries shared es)
  | .set b xs => .set b (pruneAll shared xs)
  | v => v

def pruneAll (shared : List Nat) : List Value → List Value
  | [] => []
  | v :: vs => prune shared v :: pruneAll shared vs

def pruneEntries (shared : List Nat) : List (Value × Value) → List (Value × Value)
  | [] => []
  | (k, v) :: es => (prune shared k, prune shared v) :: pruneEntries shared es

end

/-- The labels that occur more than once. -/
def repeated : List Nat → List Nat
  | [] => []
  | l :: ls => if ls.contains l then l :: repeated ls else repeated ls

/-- Without the anchors that tell nothing. -/
def pruned (v : Value) : Value := prune (repeated v.labels) v

mutual

/-- Whether some part of a value contains itself. -/
def isCyclic : Value → Bool
  | .alias _ => true
  | .anchor _ v => isCyclic v
  | .list xs => anyCyclic xs
  | .tuple xs => anyCyclic xs
  | .sequence _ xs => anyCyclic xs
  | .map _ es => anyEntryCyclic es
  | .set _ xs => anyCyclic xs
  | _ => false

def anyCyclic : List Value → Bool
  | [] => false
  | v :: vs => isCyclic v || anyCyclic vs

def anyEntryCyclic : List (Value × Value) → Bool
  | [] => false
  | (k, v) :: es => isCyclic k || isCyclic v || anyEntryCyclic es

end

end DocPath.Value
