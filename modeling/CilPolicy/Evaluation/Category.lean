import CilPolicy.Database.Order
import CilPolicy.Evaluation.Set

/-!
Category expressions and the sets of order positions they stand for. A named set is
unfolded, unless its positions are known already.
-/

namespace CilPolicy

namespace Expr

mutual

/-- The positions of a category expression, from those of its leaves. A range goes from
the position of one category to that of another. -/
def categoryPositions (whole : BitSet) (leaf : Id → Except LevelFault BitSet)
    (position : Id → Except LevelFault Nat) : Expr Id → Except LevelFault BitSet
  | item id => leaf id
  | list members => categoryUnion whole leaf position ∅ members
  | apply .range operands =>
    match operands with
    | [item low, item high] => do
      let low ← position low
      let high ← position high
      if high < low then throw .categoryRange else return .interval low high
    | _ => .error .categoryRange
  | apply op operands => do
    let operands ← categoryOperands whole leaf position operands
    return op.apply whole operands

def categoryUnion (whole : BitSet) (leaf : Id → Except LevelFault BitSet)
    (position : Id → Except LevelFault Nat) (acc : BitSet) :
    List (Expr Id) → Except LevelFault BitSet
  | [] => .ok acc
  | e :: es => do
    let positions ← categoryPositions whole leaf position e
    categoryUnion whole leaf position (acc.union positions) es

def categoryOperands (whole : BitSet) (leaf : Id → Except LevelFault BitSet)
    (position : Id → Except LevelFault Nat) : List (Expr Id) → Except LevelFault (List BitSet)
  | [] => .ok []
  | e :: es => do
    let first ← categoryPositions whole leaf position e
    let others ← categoryOperands whole leaf position es
    return first :: others

end

end Expr

namespace OrderedDatabase

/-- The positions of all ordered categories. -/
def categoryWhole (db : OrderedDatabase) : BitSet :=
  .below db.orders.categories.length

/-- The position of a category in the order. -/
def categoryPosition (db : OrderedDatabase) (id : Id) : Except LevelFault Nat :=
  let actual := match db.categories.value? id with
    | some c => if c.kind == .aliasName then c.actual.getD id else id
    | none => id
  match db.orders.categories.idxOf? actual with
  | some position => .ok position
  | none => .error (.categoryUnordered (db.categories.nameOf actual))

/-- The positions of a category or of a category set. -/
def categoryLeaf (db : OrderedDatabase) (known : Array (Option BitSet)) :
    (fuel : Nat) → Id → Except LevelFault BitSet
  | 0, _ => .ok ∅
  | fuel + 1, id =>
    match db.categories.value? id with
    | some { kind := .set, members, .. } =>
      match (known[id]?).join, members with
      | some positions, _ => .ok positions
      | none, some e => e.categoryPositions db.categoryWhole (db.categoryLeaf known fuel) db.categoryPosition
      | none, none => .ok ∅
    | _ => .singleton <$> db.categoryPosition id

/-- The positions of a category expression, given those of some category sets. -/
def categoryBits (db : OrderedDatabase) (known : Array (Option BitSet)) (e : Expr Id) :
    Except LevelFault BitSet :=
  e.categoryPositions db.categoryWhole (db.categoryLeaf known (db.categories.size + 1))
    db.categoryPosition

/-- The positions of category sets, as far as they have any, and what is wrong with the
others. The sets are evaluated in the order of their declaration. -/
def evaluateCategorySets (db : OrderedDatabase) : Array (Option BitSet) × List Diagnostic :=
  db.categories.indexed.foldl (fun (known, faults) (_, d) =>
    match d.value.kind, d.value.members with
    | .set, some e =>
      match db.categoryBits known e with
      | .ok positions => (known.push (some positions), faults)
      | .error fault =>
        (known.push none, faults ++ [.violation (.level fault) (some d.location)])
    | _, _ => (known.push none, faults)) (#[], [])

/-- The positions of the categories that a sensitivity may be used with. -/
def evaluateSensitivity (db : OrderedDatabase) (known : Array (Option BitSet))
    (d : Declared SensitivityInfo) : BitSet × List Diagnostic :=
  d.value.categories.foldl (fun (positions, faults) e =>
    match db.categoryBits known e with
    | .ok more => (positions.union more, faults)
    | .error fault => (positions, faults ++ [.violation (.level fault) (some d.location)])) (∅, [])

end OrderedDatabase

end CilPolicy
