import CilPolicy.BitSet.Basic
import CilPolicy.Database.Basic

/-!
The sets that expressions stand for. Every operator works within a given whole
set of numbers; a leaf is evaluated by a function, so the same code serves for types, roles,
users, permissions and categories.
-/

namespace CilPolicy

/-- Applies an operator to evaluated operands. -/
def Operator.apply (whole : BitSet) (op : Operator) (operands : List BitSet) : BitSet :=
  match op, operands with
  | .all, _ => whole
  | .not, [a] => whole.diff a whole.highBit
  | .and, [a, b] => a.inter b
  | .or, [a, b] => a.union b
  | .xor, [a, b] => (a.symmDiff b).inter whole
  | _, operands => operands.foldl BitSet.union ∅

namespace Expr

mutual

/-- The set of an expression. -/
def evaluate (whole : BitSet) (leaf : Id → BitSet) : Expr Id → BitSet
  | item id => leaf id
  | list members => evaluateUnion whole leaf ∅ members
  | apply op operands => op.apply whole (evaluateAll whole leaf operands)

def evaluateUnion (whole : BitSet) (leaf : Id → BitSet) (acc : BitSet) : List (Expr Id) → BitSet
  | [] => acc
  | e :: es => evaluateUnion whole leaf (acc.union (e.evaluate whole leaf)) es

def evaluateAll (whole : BitSet) (leaf : Id → BitSet) : List (Expr Id) → List BitSet
  | [] => []
  | e :: es => e.evaluate whole leaf :: evaluateAll whole leaf es

end

end Expr

/-- The permissions of a class that an expression stands for. -/
def Database.permissionBits (db : Database) (cls : ClassInfo) (e : Expr Id) : BitSet :=
  e.evaluate (.below (db.permissionCount cls)) .singleton

/-- The same, by the number of the class. -/
def Database.permissionBitsOf (db : Database) (cls : Id) (e : Expr Id) : BitSet :=
  match db.classes.value? cls with
  | some info => db.permissionBits info e
  | none => ∅

end CilPolicy
