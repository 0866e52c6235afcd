import CilPolicy.BitSet.Basic
import CilPolicy.Text.Number
import CilPolicy.Violation

/-!
Extended permissions: expressions over 16-bit numbers and the sets they stand for.
-/

namespace CilPolicy

/-- Extended permissions are numbers below this. -/
def extendedLimit : Nat := 65536

/-- A number of an extended permission. -/
def extendedNumber (text : String) : Except ExtendedFault Nat :=
  match Text.number? extendedLimit text with
  | some n => .ok n
  | none => .error (.value text)

namespace Expr

/-- The numbers between two ends, both included. -/
def extendedRange (low high : String) : Except ExtendedFault BitSet := do
  let low ← extendedNumber low
  let high ← extendedNumber high
  if high < low then throw (.emptyRange low high) else return .interval low high

mutual

/-- The set of numbers that an expression stands for. -/
def extendedNumbers : Expr String → Except ExtendedFault BitSet
  | item text => BitSet.singleton <$> extendedNumber text
  | list members => extendedUnion ∅ members
  | apply op operands =>
    match op with
    | .range =>
      match operands with
      | [item low, item high] => extendedRange low high
      | _ => .error .range
    | .all => .ok (.below extendedLimit)
    | .not =>
      match operands with
      | [a] => do return (← extendedNumbers a).complement extendedLimit
      | _ => .error .expression
    | .and =>
      match operands with
      | [a, b] => do return (← extendedNumbers a).inter (← extendedNumbers b)
      | _ => .error .expression
    | .or =>
      match operands with
      | [a, b] => do return (← extendedNumbers a).union (← extendedNumbers b)
      | _ => .error .expression
    | .xor =>
      match operands with
      | [a, b] => do return (← extendedNumbers a).symmDiff (← extendedNumbers b)
      | _ => .error .expression
    | .eq | .neq => .error (.operator op)

/-- The union of a set and the sets of the expressions. -/
def extendedUnion (acc : BitSet) : List (Expr String) → Except ExtendedFault BitSet
  | [] => .ok acc
  | e :: es => do
    let numbers ← extendedNumbers e
    extendedUnion (acc.union numbers) es

end

end Expr

end CilPolicy
