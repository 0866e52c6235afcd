import CilPolicy.BitSet.Basic
import CilPolicy.Verification.Level

/-!
The text of the `file_contexts` file: a line for each file label. Neighbouring categories
are written as runs.
-/

namespace CilPolicy

/-- The first and last number of each run of neighbours. -/
def runs : List Nat → List (Nat × Nat)
  | [] => []
  | n :: ns =>
    match runs ns with
    | (first, last) :: rest =>
      if n + 1 = first then (n, last) :: rest else (n, n) :: (first, last) :: rest
    | [] => [(n, n)]

/-- The set as runs, such as `0,3-5,64`. -/
def BitSet.runText (s : BitSet) : String :=
  ",".intercalate ((runs s.toList).map fun (a, b) => if a = b then toString a else s!"{a}-{b}")

namespace EvaluatedDatabase

/-- A run of categories: three or more are written by the first and the last. -/
def categoryRun (db : EvaluatedDatabase) : Nat × Nat → String
  | (first, last) =>
    if first = last then db.categoryName first
    else
      let mark := if last = first + 1 then "," else "."
      db.categoryName first ++ mark ++ db.categoryName last

/-- A level as its sensitivity and, behind a colon, its categories. -/
def levelText (db : EvaluatedDatabase) (level : LevelValue) : String :=
  let name := db.sensitivities.nameOf level.sensitivity
  match runs level.categories.toList with
  | [] => name
  | rs => name ++ ":" ++ ",".intercalate (rs.map db.categoryRun)

/-- A range as one level, or two with a dash between them. -/
def rangeText (db : EvaluatedDatabase) (low high : LevelValue) : String :=
  if low = high then db.levelText low else db.levelText low ++ "-" ++ db.levelText high

/-- A context with colons between its parts. -/
def contextText (db : EvaluatedDatabase) (mls : Bool) (context : ContextArg Id) :
    Except ContextFault String :=
  match db.contextSpec? context with
  | none => .error .missing
  | some c => do
    let base := ":".intercalate
      [db.users.nameOf c.user, db.roles.nameOf c.role, db.types.nameOf c.type]
    if mls then
      let (low, high) ← inContext (db.evalRange c.range)
      return base ++ ":" ++ db.rangeText low high
    else return base

/-- The line of a file label. -/
def fileContextLine (db : EvaluatedDatabase) (mls : Bool)
    (l : Label FileSelector (Option (ContextArg Id))) : Except Diagnostic String := do
  let flag := if l.selector.kind = .any then "" else "\t" ++ l.selector.kind.flag
  let context ← match l.context with
    | none => pure "<<none>>"
    | some c =>
      (db.contextText mls c).mapError fun fault => Diagnostic.violation (.context fault) (some l.location)
  return l.selector.path ++ flag ++ "\t" ++ context ++ "\n"

/-- The lines of all file labels, in order. -/
def fileContexts (db : EvaluatedDatabase) (mls : Bool) : Except Diagnostic String :=
  String.join <$> db.labels.files.mapM (db.fileContextLine mls)

end EvaluatedDatabase

end CilPolicy
