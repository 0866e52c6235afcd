import CilPolicy.Evaluation.Database

/-!
Levels, ranges and contexts that a policy may use.
-/

namespace CilPolicy

namespace EvaluatedDatabase

/-- The categories that a sensitivity may be used with. -/
def allowedCategories (db : EvaluatedDatabase) (sensitivity : Id) : BitSet :=
  db.sensitivityCategories.getD sensitivity ∅

/-- A level may have only categories that its sensitivity allows. -/
def checkLevel (db : EvaluatedDatabase) (level : LevelValue) : Except LevelFault Unit :=
  let allowed := db.allowedCategories level.sensitivity
  let name := db.sensitivities.nameOf level.sensitivity
  if level.categories.isEmpty then .ok ()
  else if allowed.isEmpty then .error (.noCategories name)
  else match level.categories.toList.find? (!allowed.has ·) with
    | some position => .error (.categoryRefused (db.categoryName position) name)
    | none => .ok ()

/-- The first sensitivity comes no later in the order than the second; one without a
place comes last. -/
def sensitivityLe (db : EvaluatedDatabase) (low high : Id) : Bool :=
  match db.sensitivityPosition? low, db.sensitivityPosition? high with
  | some a, some b => a ≤ b
  | none, some _ => false
  | _, none => true

/-- The high level of a range has to dominate the low one, and both have to be allowed. -/
def checkRange (db : EvaluatedDatabase) (low high : LevelValue) : Except LevelFault Unit :=
  if !db.sensitivityLe low.sensitivity high.sensitivity then
    .error (.notDominating (db.sensitivities.nameOf high.sensitivity)
      (db.sensitivities.nameOf low.sensitivity))
  else if !high.categories.covers low.categories then .error .lowNotSubset
  else do
    db.checkLevel low
    db.checkLevel high

def checkLevelArg (db : EvaluatedDatabase) (level : LevelArg Id) : Except LevelFault Unit := do
  db.checkLevel (← db.evalLevel level)

def checkRangeArg (db : EvaluatedDatabase) (range : RangeArg Id) : Except LevelFault Unit := do
  let (low, high) ← db.evalRange range
  db.checkRange low high

/-- The faults of levels as faults of a context. -/
def inContext (r : Except LevelFault α) : Except ContextFault α :=
  r.mapError .level

/-- The sensitivities of a range lie within those of the user's range. -/
def rangeWithin (db : EvaluatedDatabase) (user range : LevelValue × LevelValue) : Bool :=
  db.sensitivityLe user.1.sensitivity range.1.sensitivity
    && db.sensitivityLe range.2.sensitivity user.2.sensitivity

/-- How a range is called in messages. -/
def rangeName (db : EvaluatedDatabase) : RangeArg Id → String
  | .named id => db.ranges.nameOf id
  | .given _ => "<anonymous>"

/-- A context is allowed when its user may take its role, its role may take its type, and
its range lies within the user's. -/
def checkContext (db : EvaluatedDatabase) (c : ContextSpec Id) : Except ContextFault Unit := do
  let user := db.users.nameOf c.user
  let role := db.roles.nameOf c.role
  let roles := db.userRoles.getD c.user ∅
  let types := db.roleTypes.getD c.role ∅
  if roles.isEmpty then throw (.userWithoutRoles user)
  if !roles.has c.role then throw (.role role user)
  if types.isEmpty then throw (.roleWithoutTypes role)
  if !types.has c.type then throw (.type (db.types.nameOf c.type) role)
  match c.range with
  | .given _ => inContext (db.checkRangeArg c.range)
  | .named _ => pure ()
  match (db.users.value? c.user).bind (·.range) with
  | none => return ()
  | some userRange =>
    let whole ← inContext (db.evalRange userRange)
    let range ← inContext (db.evalRange c.range)
    if !db.rangeWithin whole range then throw (.range (db.rangeName c.range) user)

def checkContextArg (db : EvaluatedDatabase) (context : ContextArg Id) : Except ContextFault Unit :=
  match db.contextSpec? context with
  | none => .error .missing
  | some spec => db.checkContext spec

end EvaluatedDatabase

end CilPolicy
