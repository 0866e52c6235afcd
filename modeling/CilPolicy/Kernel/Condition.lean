/-!
Conditions over booleans in reverse Polish order, and their value.
-/

namespace CilPolicy

/-- One item of a condition; operators follow their operands. -/
inductive CondItem where
  | bool (value : Nat)
  | not
  | or
  | and
  | xor
  | eq
  | neq
deriving DecidableEq, Repr

namespace CondItem

/-- Code of the item and number of the boolean, as a policy file holds them. -/
def code : CondItem → Nat × Nat
  | bool value => (1, value)
  | not => (2, 0)
  | or => (3, 0)
  | and => (4, 0)
  | xor => (5, 0)
  | eq => (6, 0)
  | neq => (7, 0)

/-- The stack after the item, the top first. -/
def step (state : Nat → Bool) : CondItem → List Bool → Option (List Bool)
  | bool value, stack => some (state value :: stack)
  | not, a :: stack => some ((!a) :: stack)
  | or, b :: a :: stack => some ((a || b) :: stack)
  | and, b :: a :: stack => some ((a && b) :: stack)
  | xor, b :: a :: stack => some ((a != b) :: stack)
  | eq, b :: a :: stack => some ((a == b) :: stack)
  | neq, b :: a :: stack => some ((a != b) :: stack)
  | _, _ => none

end CondItem

/-- The stack after all items. -/
def runCondition (state : Nat → Bool) : List CondItem → List Bool → Option (List Bool)
  | [], stack => some stack
  | item :: rest, stack => (item.step state stack).bind (runCondition state rest)

/-- The value of a condition, when it leaves exactly one. -/
def evalCondition (items : List CondItem) (state : Nat → Bool) : Option Bool :=
  match runCondition state items [] with
  | some [value] => some value
  | _ => none

end CilPolicy
