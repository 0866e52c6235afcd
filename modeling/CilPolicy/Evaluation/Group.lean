import CilPolicy.Evaluation.Set

/-!
Attributes as sets of concrete members. The members of an attribute are the union of
its sets, in which other attributes may stand. All attributes are evaluated together,
round after round, until a round changes nothing; an attribute that contains none is
settled after the first round, one that contains only such attributes after the
second, and so on, so without cycles there are no more rounds than attributes.
-/

namespace CilPolicy

/-- What a declaration contributes: itself if it is concrete, what it stands for if it is
an alias, the union of its sets if it is an attribute. -/
inductive Member where
  | concrete
  | aliasName (actual : Option Id)
  | attr (sets : List (Expr Id))

/-- Applies a step until it changes nothing, at most a number of times. -/
def settle [DecidableEq α] (step : α → α) : Nat → α → α
  | 0, a => a
  | n + 1, a =>
    let b := step a
    if b = a then a else settle step n b

namespace Member

/-- The concrete declarations. -/
def concretes (members : Array Member) : BitSet :=
  .ofList ((List.range members.size).filter fun id =>
    match members[id]? with
    | some concrete => true
    | _ => false)

/-- What a declaration stands for, given the sets of the attributes. -/
def expand (members : Array Member) (table : Array BitSet) (id : Id) : BitSet :=
  match members[id]? with
  | some concrete => .singleton id
  | some (aliasName (some actual)) =>
    match members[actual]? with
    | some concrete => .singleton actual
    | _ => table.getD actual ∅
  | some (aliasName none) => ∅
  | some (attr _) => table.getD id ∅
  | none => ∅

/-- The sets of the attributes, given those of the round before. -/
def round (members : Array Member) (whole : BitSet) (table : Array BitSet) : Array BitSet :=
  members.map fun m =>
    match m with
    | attr sets =>
      (Expr.evaluate whole (expand members table) (.list sets)).inter whole
    | _ => ∅

/-- The sets of the attributes; other declarations have an empty one. -/
def evaluate (members : Array Member) : Array BitSet :=
  settle (round members (concretes members)) (members.size + 1) (members.map fun _ => ∅)

end Member

end CilPolicy
