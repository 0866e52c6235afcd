/-!
Expressions over names. The same shape serves for sets of types, roles, users,
permissions, categories and numbers, and for conditions over booleans.
-/

namespace CilPolicy

inductive Operator where
  | and
  | or
  | xor
  | not
  | all
  | range
  | eq
  | neq
deriving DecidableEq, Repr

namespace Operator

def keyword : Operator → String
  | and => "and"
  | or => "or"
  | xor => "xor"
  | not => "not"
  | all => "all"
  | range => "range"
  | eq => "eq"
  | neq => "neq"

def ofKeyword? : String → Option Operator
  | "and" => some and
  | "or" => some or
  | "xor" => some xor
  | "not" => some not
  | "all" => some all
  | "range" => some range
  | "eq" => some eq
  | "neq" => some neq
  | _ => none

theorem ofKeyword?_keyword (op : Operator) : ofKeyword? op.keyword = some op := by
  cases op <;> rfl

end Operator

/-- An item, a list that stands for the union of its members, or an operator with
its operands. -/
inductive Expr (α : Type) where
  | item (a : α)
  | list (members : List (Expr α))
  | apply (op : Operator) (operands : List (Expr α))
deriving Repr, Inhabited

namespace Expr

mutual

def decideEq [DecidableEq α] : (a b : Expr α) → Decidable (a = b)
  | item a, item b => decidable_of_iff (a = b) (by simp)
  | list as, list bs =>
    match decideEqAll as bs with
    | isTrue h => isTrue (by rw [h])
    | isFalse h => isFalse (by simpa using h)
  | apply f as, apply g bs =>
    match decideEqAll as bs with
    | isTrue h => decidable_of_iff (f = g) (by simp [h])
    | isFalse h => isFalse (by simp [h])
  | item _, list _ | item _, apply .. | list _, item _ | list _, apply .. | apply .., item _
  | apply .., list _ => isFalse (by simp)

def decideEqAll [DecidableEq α] : (as bs : List (Expr α)) → Decidable (as = bs)
  | [], [] => isTrue rfl
  | [], _ :: _ | _ :: _, [] => isFalse (by simp)
  | a :: as, b :: bs =>
    match decideEq a b, decideEqAll as bs with
    | isTrue h, isTrue g => isTrue (by rw [h, g])
    | isFalse h, _ => isFalse (by simp [h])
    | _, isFalse g => isFalse (by simp [g])

end

instance [DecidableEq α] : DecidableEq (Expr α) := decideEq

mutual

/-- The items of the expression, in order. -/
def leaves : Expr α → List α
  | item a => [a]
  | list members => leavesAll members
  | apply _ operands => leavesAll operands

def leavesAll : List (Expr α) → List α
  | [] => []
  | e :: es => e.leaves ++ leavesAll es

end

mutual

/-- The expression with each item replaced by what is found for it; the first item
for which nothing is found decides the error. -/
def traverse (find : α → Except ε β) : Expr α → Except ε (Expr β)
  | item a => item <$> find a
  | list members => list <$> traverseAll find members
  | apply op operands => apply op <$> traverseAll find operands

def traverseAll (find : α → Except ε β) : List (Expr α) → Except ε (List (Expr β))
  | [] => .ok []
  | e :: es => do
    let e ← e.traverse find
    let es ← traverseAll find es
    return e :: es

end

mutual

/-- The expression on one line: items in double quotes, lists in brackets, operators
in parentheses. -/
def text (name : α → String) : Expr α → String
  | item a => "\"" ++ name a ++ "\""
  | list members => "[" ++ " ".intercalate (textAll name members) ++ "]"
  | apply op operands => "(" ++ " ".intercalate (op.keyword :: textAll name operands) ++ ")"

def textAll (name : α → String) : List (Expr α) → List String
  | [] => []
  | e :: es => e.text name :: textAll name es

end

end Expr

end CilPolicy
