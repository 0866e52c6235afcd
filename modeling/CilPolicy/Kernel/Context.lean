import CilPolicy.BitSet.Basic

/-!
Security levels, ranges and contexts as kernel values.
-/

namespace CilPolicy

/-- A sensitivity with a set of categories. -/
structure Level where
  sens : Nat
  cats : BitSet
deriving DecidableEq, Repr

namespace Level

instance : Inhabited Level := ⟨⟨0, ∅⟩⟩

/-- The first level is at least the second, in sensitivity and in categories. -/
def dominates (a b : Level) : Bool :=
  b.sens ≤ a.sens && a.cats.covers b.cats

end Level

/-- A low and a high level. -/
structure LevelRange where
  low : Level
  high : Level
deriving DecidableEq, Repr

namespace LevelRange

instance : Inhabited LevelRange := ⟨⟨default, default⟩⟩

def single (level : Level) : LevelRange := ⟨level, level⟩

/-- The second range lies inside the first. -/
def contains (outer inner : LevelRange) : Bool :=
  inner.low.dominates outer.low && outer.high.dominates inner.high

end LevelRange

/-- A user, a role, a type and a range. -/
structure Context where
  user : Nat
  role : Nat
  type : Nat
  range : LevelRange
deriving DecidableEq, Repr, Inhabited

end CilPolicy
