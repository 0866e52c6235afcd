import CilPolicy.Text.Number

/-!
Binary floating-point numbers of double precision as exact values. A decimal is read as
the nearest number, a tie going to the even mantissa; a number is written with the fewest
digits that read back.
-/

namespace CilPolicy

/-- A number of double precision: a sign, a mantissa and an exponent of two. -/
inductive Double where
  | nan
  | infinite (negative : Bool)
  | finite (negative : Bool) (mantissa : Nat) (exponent : Int)
deriving DecidableEq, Repr, Inhabited

/-- A quotient of naturals. -/
structure Quotient where
  numerator : Nat
  denominator : Nat

namespace Quotient

/-- The whole number times a power of the base. -/
def scaled (base n : Nat) (exponent : Int) : Quotient :=
  if 0 ≤ exponent then ⟨n * Nat.pow base exponent.toNat, 1⟩ else ⟨n, Nat.pow base (-exponent).toNat⟩

def mul (a b : Quotient) : Quotient :=
  ⟨a.numerator * b.numerator, a.denominator * b.denominator⟩

def floor (q : Quotient) : Nat :=
  q.numerator / q.denominator

def lt (a b : Quotient) : Bool :=
  a.numerator * b.denominator < b.numerator * a.denominator

/-- The nearest whole number; a tie goes to the even one. -/
def roundEven (q : Quotient) : Nat :=
  let low := q.floor
  let twice := 2 * (q.numerator % q.denominator)
  if twice < q.denominator ∨ twice = q.denominator ∧ low % 2 = 0 then low else low + 1

/-- The nearest whole number; a tie goes up. -/
def roundUp (q : Quotient) : Nat :=
  (2 * q.numerator + q.denominator) / (2 * q.denominator)

/-- For a quotient below one, how often ten goes into it until it is at least one. -/
def leadingZeros : Nat → Quotient → Nat
  | 0, _ => 0
  | n + 1, q => if q.floor = 0 then leadingZeros n ⟨10 * q.numerator, q.denominator⟩ + 1 else 0

/-- The place `d` of the first digit of a positive quotient: it is at least `10 ^ (d - 1)`
and less than `10 ^ d`. -/
def magnitude (q : Quotient) : Int :=
  if q.floor = 0 then 1 - (leadingZeros 400 q : Int) else ((Nat.toDigits 10 q.floor).length : Int)

end Quotient

namespace Double

/-- The exponent of the least positive number. -/
def leastExponent : Int := -1074

/-- Mantissas lie below this bound. -/
def mantissaBound : Nat := 0x20000000000000

/-- The finite number nearest to a positive quotient, or infinity. -/
def ofQuotient (negative : Bool) (q : Quotient) : Double :=
  let size : Int := (Nat.log2 q.numerator : Int) - (Nat.log2 q.denominator : Int)
  let low := max (size - 53) leastExponent
  let shift (e : Int) : Quotient := q.mul (.scaled 2 1 (-e))
  let exponent := if (shift low).floor < mantissaBound then low else low + 1
  let rounded := (shift exponent).roundEven
  let (mantissa, exponent) :=
    if rounded = mantissaBound then (rounded / 2, exponent + 1) else (rounded, exponent)
  if (Quotient.scaled 2 mantissa exponent).lt ⟨Nat.pow 2 1024, 1⟩ then .finite negative mantissa exponent
  else .infinite negative

/-- The number nearest to the digits times a power of ten. -/
def ofDecimal (negative : Bool) (digits : Nat) (scale : Int) : Double :=
  if digits = 0 then .finite negative 0 0
  else
    let size := scale + (Nat.toDigits 10 digits).length
    if 310 < size then .infinite negative
    else if size < -330 then .finite negative 0 0
    else ofQuotient negative (.scaled 10 digits scale)

def isZero : Double → Bool
  | finite _ mantissa _ => mantissa = 0
  | _ => false

/-- The nearest natural number below `limit`; what lies outside goes to the nearer end and
what is no number goes to zero. -/
def clamp (limit : Nat) : Double → Nat
  | finite false mantissa exponent => min (Quotient.scaled 2 mantissa exponent).roundUp (limit - 1)
  | infinite false => limit - 1
  | _ => 0

/-- A decimal of so many digits that reads back, with its power of ten. Of two the nearer
is taken. -/
def ofLength? (mantissa : Nat) (exponent : Int) (length : Nat) : Option (Nat × Int) :=
  let value := Quotient.scaled 2 mantissa exponent
  let scale := value.magnitude - (length : Int)
  let low := (value.mul (.scaled 10 1 (-scale))).floor
  let reads (n : Nat) : Bool :=
    ofDecimal false n scale = .finite false mantissa exponent
  let nearest := (value.mul (.scaled 10 1 (-scale))).roundUp
  let other := if nearest = low then low + 1 else low
  let found := if reads nearest then some nearest else if reads other then some other else none
  found.map fun n => if n = Nat.pow 10 length then (n / 10, scale + 1) else (n, scale)

/-- The fewest digits that read back, with their power of ten. -/
def shortest (mantissa : Nat) (exponent : Int) : Nat × Int :=
  ((List.range 17).findSome? fun n => ofLength? mantissa exponent (n + 1)).getD (mantissa, 0)

/-- Digits with a point in their place, never with an exponent. -/
def positional (digits : Nat) (scale : Int) : String :=
  let text := toString digits
  if 0 ≤ scale then text ++ String.ofList (List.replicate scale.toNat '0')
  else
    let places := (-scale).toNat
    let padded := List.replicate (places + 1 - text.length) '0' ++ text.toList
    let whole := padded.length - places
    String.ofList (padded.take whole) ++ "." ++ String.ofList (padded.drop whole)

/-- The number in as few digits as read back. -/
def text : Double → String
  | nan => "NaN"
  | infinite negative => (if negative then "-" else "") ++ "inf"
  | finite negative mantissa exponent =>
    (if negative then "-" else "") ++
      if mantissa = 0 then "0"
      else
        let (digits, scale) := shortest mantissa exponent
        positional digits scale

/-- Digits, an optional part behind the point and an optional power of ten: the sign, all
digits and their power of ten. At least one digit stands around the point. -/
def decimalParts? (chars : List Char) : Option (Bool × Nat × Int) := do
  let (negative, chars) := match chars with
    | '-' :: rest => (true, rest)
    | '+' :: rest => (false, rest)
    | all => (false, all)
  let whole := chars.takeWhile Char.isDigit
  let chars := chars.drop whole.length
  let (part, chars) := match chars with
    | '.' :: rest => (rest.takeWhile Char.isDigit, rest.dropWhile Char.isDigit)
    | all => ([], all)
  if whole.isEmpty ∧ part.isEmpty then none
  let power ← match chars with
    | [] => some 0
    | c :: rest => if c = 'e' ∨ c = 'E' then signed? rest else none
  let digits ← Text.digits? 10 0 (whole ++ part)
  return (negative, digits, power - (part.length : Int))
where
  signed? : List Char → Option Int
    | '-' :: rest => if rest.isEmpty then none else (Text.digits? 10 0 rest).map fun n => -(n : Int)
    | chars => (Text.unsigned? 10 chars).map Int.ofNat

/-- Reads a number: a decimal, or infinity or no number by name in any case. -/
def ofText? (word : String) : Option Double :=
  let (negative, name) := match word.toList with
    | '-' :: rest => (true, rest)
    | '+' :: rest => (false, rest)
    | all => (false, all)
  match (String.ofList name).toLower with
  | "inf" | "infinity" => some (.infinite negative)
  | "nan" => some .nan
  | _ => (decimalParts? word.toList).map fun (negative, digits, scale) => ofDecimal negative digits scale

end Double

end CilPolicy
