import CilPolicy.Evaluation.Category
import CilPolicy.Evaluation.Group
import CilPolicy.Evaluation.Label

/-!
The evaluated policy: the concrete members of every attribute, the types of every role
and the roles of every user, the positions of every category set, and the labels in
order.
-/

namespace CilPolicy

/-- An ordered database with all its sets. Each array has an entry for every
declaration of its registry. -/
structure EvaluatedDatabase extends OrderedDatabase where
  /-- The concrete types that a type, alias or attribute stands for. -/
  typeSets : Array BitSet
  roleSets : Array BitSet
  userSets : Array BitSet
  /-- The types that a role may take. -/
  roleTypes : Array BitSet
  /-- The roles that a user may take. -/
  userRoles : Array BitSet
  /-- The positions of a category set. -/
  categorySets : Array (Option BitSet)
  /-- The positions of the categories that a sensitivity may be used with. -/
  sensitivityCategories : Array BitSet
deriving Inhabited

/-- What each declaration stands for. -/
def Member.expandAll (members : Array Member) : Array BitSet :=
  let table := evaluate members
  (Array.range members.size).map (expand members table)

namespace Database

def typeMembers (db : Database) : Array Member :=
  db.types.entries.map fun d =>
    match d.value.kind with
    | .concrete => .concrete
    | .aliasName => .aliasName d.value.actual
    | .attr => .attr d.value.sets

def roleMembers (db : Database) : Array Member :=
  db.roles.entries.map fun d => if d.value.isAttribute then .attr d.value.sets else .concrete

def userMembers (db : Database) : Array Member :=
  db.users.entries.map fun d => if d.value.isAttribute then .attr d.value.sets else .concrete

end Database

/-- The union of the sets of some declarations. -/
def unionOf (sets : Array BitSet) (ids : List Id) : BitSet :=
  ids.foldl (fun acc id => acc.union (sets.getD id ∅)) ∅

/-- What each owner is granted: a grant to an owner or to an attribute goes to all that
it stands for. -/
def spreadGrants (owners : Array BitSet) (grants : Array BitSet) : Array BitSet :=
  (Array.range owners.size).map fun owner =>
    (List.range owners.size).foldl (fun acc giver =>
      if (owners.getD giver ∅).has owner then acc.union (grants.getD giver ∅) else acc) ∅

/-- Evaluates every set and puts the labels in order. With `repeats` the same label may
be given more than once. -/
def OrderedDatabase.evaluate (db : OrderedDatabase) (repeats : Bool) : Report EvaluatedDatabase := do
  let typeSets := Member.expandAll db.typeMembers
  let roleSets := Member.expandAll db.roleMembers
  let userSets := Member.expandAll db.userMembers
  let roleTypes := spreadGrants roleSets (db.roles.entries.map fun d => unionOf typeSets d.value.types)
  let userRoles := spreadGrants userSets (db.users.entries.map fun d => unionOf roleSets d.value.roles)
  let (categorySets, setFaults) := db.evaluateCategorySets
  let sensitivities := db.sensitivities.entries.map (db.evaluateSensitivity categorySets)
  Report.reject (setFaults ++ sensitivities.toList.flatMap (·.2))
  let (labels, conflicts) := db.sortedLabels repeats
  Report.reject conflicts
  return { db with
    labels
    typeSets
    roleSets
    userSets
    roleTypes
    userRoles
    categorySets
    sensitivityCategories := sensitivities.map (·.1) }

namespace EvaluatedDatabase

/-- The concrete types that a type stands for. -/
def expandType (db : EvaluatedDatabase) (id : Id) : BitSet :=
  db.typeSets.getD id ∅

def expandRole (db : EvaluatedDatabase) (id : Id) : BitSet :=
  db.roleSets.getD id ∅

def expandUser (db : EvaluatedDatabase) (id : Id) : BitSet :=
  db.userSets.getD id ∅

/-- The attribute has a value of its own in the kernel policy. An attribute that no rule
uses has none; one that only access rules use has none when it is empty, or when
attributes are to be expanded. -/
def attributeKept (db : EvaluatedDatabase) (expand : Bool) (id : Id) : Bool :=
  db.types.test id fun t =>
    t.usedByNeverAllow || (t.usedByAccess && !expand && !(db.expandType id).isEmpty)

end EvaluatedDatabase

/-- A sensitivity and the positions of categories. -/
structure LevelValue where
  sensitivity : Id
  categories : BitSet
deriving DecidableEq, Repr

namespace EvaluatedDatabase

def evalLevel (db : EvaluatedDatabase) (level : LevelArg Id) : Except LevelFault LevelValue :=
  match db.levelSpec? level with
  | none => .error .noLevel
  | some ⟨sensitivity, none⟩ => .ok ⟨sensitivity, ∅⟩
  | some ⟨sensitivity, some e⟩ => do return ⟨sensitivity, ← db.categoryBits db.categorySets e⟩

def evalRange (db : EvaluatedDatabase) (range : RangeArg Id) :
    Except LevelFault (LevelValue × LevelValue) :=
  match db.rangeSpec? range with
  | none => .error .noRange
  | some ⟨low, high⟩ => do return (← db.evalLevel low, ← db.evalLevel high)

/-- The place of a sensitivity in the order. -/
def sensitivityPosition? (db : EvaluatedDatabase) (id : Id) : Option Nat :=
  db.orders.sensitivities.idxOf? id

/-- The name of a category by its position. -/
def categoryName (db : EvaluatedDatabase) (position : Nat) : String :=
  match db.orders.categories[position]? with
  | some id => db.categories.nameOf id
  | none => ""

end EvaluatedDatabase

end CilPolicy
