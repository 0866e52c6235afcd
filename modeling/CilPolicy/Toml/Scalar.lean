import CilPolicy.Toml.Value
import CilPolicy.Word

/-!
Scalars of a TOML document that stand without quotes: truth values, integers, real
numbers, dates and times.
-/

namespace CilPolicy.TomlValue

/-- Digits with single underscores between them; the answer leaves the underscores out. -/
def grouped? (base : Nat) : List Char → Option (List Char)
  | [] => none
  | [c] => if (Text.digit? base c).isSome then some [c] else none
  | c :: '_' :: rest =>
    if (Text.digit? base c).isSome then (grouped? base rest).map (c :: ·) else none
  | c :: rest => if (Text.digit? base c).isSome then (grouped? base rest).map (c :: ·) else none

/-- Splits the sign off. -/
def signOf : List Char → Bool × List Char
  | '-' :: rest => (true, rest)
  | '+' :: rest => (false, rest)
  | all => (false, all)

/-- No zero stands in front of another digit. -/
def plainDigits (chars : List Char) : Bool :=
  match chars with
  | '0' :: _ :: _ => false
  | _ => true

/-- Integers have 64 bits. A wider one is told apart up to 128 bits, with a sign or
without; beyond them it is no value. -/
def ofInt? (n : Int) : Option TomlValue :=
  if fitsLong n then some (.integer n) else if fitsWide n then some .excess else none

def based? (base : Nat) (chars : List Char) : Option TomlValue := do
  let digits ← grouped? base chars
  let n ← Text.digits? base 0 digits
  ofInt? n

def integer? (chars : List Char) : Option TomlValue :=
  match chars with
  | '0' :: 'x' :: rest => based? 16 rest
  | '0' :: 'o' :: rest => based? 8 rest
  | '0' :: 'b' :: rest => based? 2 rest
  | all => do
    let (negative, rest) := signOf all
    let digits ← grouped? 10 rest
    if !plainDigits digits then none
    let n ← Text.digits? 10 0 digits
    ofInt? (if negative then -(n : Int) else n)

/-- A real number has a part behind the point, a power of ten or both. One that is too
large for a finite value is no value. -/
def real? (chars : List Char) : Option TomlValue := do
  let (negative, rest) := signOf chars
  if rest = "inf".toList then return .real (.infinite negative)
  if rest = "nan".toList then return .real .nan
  let isMark (c : Char) : Bool := c == 'e' || c == 'E'
  let front := rest.takeWhile fun c => !isMark c
  let power := (rest.drop front.length).drop 1
  let hasPower := front.length < rest.length
  let whole := front.takeWhile (· != '.')
  let part := (front.drop whole.length).drop 1
  let hasPart := whole.length < front.length
  if !hasPart && !hasPower then none
  let whole ← grouped? 10 whole
  if !plainDigits whole then none
  let part ← if hasPart then grouped? 10 part else some []
  let power ← if hasPower then
      let (down, digits) := signOf power
      (grouped? 10 digits).bind fun ds => (Text.digits? 10 0 ds).map fun n => if down then -(n : Int) else (n : Int)
    else some 0
  let digits ← Text.digits? 10 0 (whole ++ part)
  match Double.ofDecimal negative digits (power - (part.length : Int)) with
  | .infinite _ => none
  | number => return .real number

/-- A number of exactly so many digits in front, within bounds. -/
def field? (width low high : Nat) (chars : List Char) : Option (Nat × List Char) := do
  let digits := chars.take width
  if digits.length ≠ width then none
  let n ← Text.digits? 10 0 digits
  if low ≤ n ∧ n ≤ high then some (n, chars.drop width) else none

/-- Takes one given character. -/
def exactly? (c : Char) : List Char → Option (List Char)
  | d :: rest => if c = d then some rest else none
  | [] => none

def padded (width n : Nat) : String :=
  let digits := Nat.toDigits 10 n
  String.ofList (List.replicate (width - digits.length) '0' ++ digits)

def monthLength (year month : Nat) : Nat :=
  if month = 2 then
    if year % 4 = 0 ∧ (year % 100 ≠ 0 ∨ year % 400 = 0) then 29 else 28
  else if [4, 6, 9, 11].contains month then 30
  else 31

/-- A day: year, month and day of the month. -/
def date? (chars : List Char) : Option (String × List Char) := do
  let (year, rest) ← field? 4 0 9999 chars
  let rest ← exactly? '-' rest
  let (month, rest) ← field? 2 1 12 rest
  let rest ← exactly? '-' rest
  let (day, rest) ← field? 2 1 (monthLength year month) rest
  return (padded 4 year ++ "-" ++ padded 2 month ++ "-" ++ padded 2 day, rest)

/-- A time of day, with or without seconds; of the parts of a second nine digits count and
closing zeros do not, but one digit stays. -/
def time? (chars : List Char) : Option (String × List Char) := do
  let (hour, rest) ← field? 2 0 23 chars
  let rest ← exactly? ':' rest
  let (minute, rest) ← field? 2 0 59 rest
  let clock := padded 2 hour ++ ":" ++ padded 2 minute
  let some rest := exactly? ':' rest | return (clock, rest)
  let (second, rest) ← field? 2 0 60 rest
  let clock := clock ++ ":" ++ padded 2 second
  match rest with
  | '.' :: rest =>
    let digits := rest.takeWhile Char.isDigit
    if digits.isEmpty then none
    let kept := ((digits.take 9).reverse.dropWhile (· == '0')).reverse
    let part := if kept.isEmpty then "0" else String.ofList kept
    return (clock ++ "." ++ part, rest.drop digits.length)
  | rest => return (clock, rest)

/-- The distance from universal time. -/
def offset? : List Char → Option (String × List Char)
  | 'Z' :: rest | 'z' :: rest => some ("Z", rest)
  | sign :: rest => do
    if sign ≠ '+' ∧ sign ≠ '-' then none
    let (hour, rest) ← field? 2 0 23 rest
    let rest ← exactly? ':' rest
    let (minute, rest) ← field? 2 0 59 rest
    let sign := if hour = 0 ∧ minute = 0 then "+" else sign.toString
    return (sign ++ padded 2 hour ++ ":" ++ padded 2 minute, rest)
  | [] => none

/-- A time alone, a day alone, or a day and a time with or without a distance from
universal time. -/
def moment? (chars : List Char) : Option TomlValue :=
  match date? chars with
  | none => do
    let (clock, rest) ← time? chars
    if rest.isEmpty then some (.moment clock) else none
  | some (day, []) => some (.moment day)
  | some (day, mark :: rest) => do
    if mark ≠ 'T' ∧ mark ≠ 't' ∧ mark ≠ ' ' then none
    let (clock, rest) ← time? rest
    if rest.isEmpty then return .moment (day ++ "T" ++ clock)
    let (offset, rest) ← offset? rest
    if rest.isEmpty then some (.moment (day ++ "T" ++ clock ++ offset)) else none

/-- The value of a word without quotes. -/
def scalar? (dialect : TomlDialect) (chars : List Char) : Option TomlValue :=
  match String.ofList chars with
  | "true" => some (.flag true)
  | "false" => some (.flag false)
  | _ =>
    match integer? chars <|> real? chars <|> moment? chars with
    | some .excess => if dialect.wideNumbers then some .excess else none
    | value => value

end CilPolicy.TomlValue
