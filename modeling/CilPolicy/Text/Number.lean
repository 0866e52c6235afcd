/-!
Numbers as written in a policy source: decimal, or hexadecimal behind `0x`. One
plus sign may stand in front of the digits.
-/

namespace CilPolicy.Text

/-- The value of a digit in a base of at most sixteen. -/
def digit? (base : Nat) (c : Char) : Option Nat :=
  let value :=
    if '0' ≤ c ∧ c ≤ '9' then c.toNat - '0'.toNat
    else if 'a' ≤ c ∧ c ≤ 'f' then c.toNat - 'a'.toNat + 10
    else if 'A' ≤ c ∧ c ≤ 'F' then c.toNat - 'A'.toNat + 10
    else base
  if value < base then some value else none

/-- The value of digits, most significant first. -/
def digits? (base : Nat) : Nat → List Char → Option Nat
  | acc, [] => some acc
  | acc, c :: cs => (digit? base c).bind fun d => digits? base (base * acc + d) cs

/-- Digits with an optional plus sign in front. -/
def unsigned? (base : Nat) (chars : List Char) : Option Nat :=
  let chars := match chars with
    | '+' :: rest => rest
    | all => all
  if chars.isEmpty then none else digits? base 0 chars

/-- A number below `limit`, decimal or hexadecimal. -/
def number? (limit : Nat) (text : String) : Option Nat :=
  let value := match text.toList with
    | '0' :: 'x' :: rest => unsigned? 16 rest
    | '0' :: 'X' :: rest => unsigned? 16 rest
    | all => unsigned? 10 all
  value.filter (· < limit)

/-- A decimal number below `limit`. -/
def decimal? (limit : Nat) (text : String) : Option Nat :=
  (unsigned? 10 text.toList).filter (· < limit)

end CilPolicy.Text
