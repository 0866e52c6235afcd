import CilPolicy.Text.Number

/-!
Internet addresses and their text. An octet of an IPv4 address has no leading
zero; a group of an IPv6 address has at most four digits, one run of zero groups
may be left out, and the last two groups may be written as an IPv4 address.
-/

namespace CilPolicy

/-- An address by its octets in network order. -/
inductive IpAddress where
  | v4 (a b c d : UInt8)
  | v6 (groups : Vector UInt16 8)
deriving DecidableEq, Repr

namespace IpAddress

def isV4 : IpAddress → Bool
  | v4 .. => true
  | v6 _ => false

/-- The two octets of a group. -/
def groupOctets (g : UInt16) : List UInt8 :=
  [(g >>> 8).toUInt8, g.toUInt8]

/-- The octets in network order: four or sixteen. -/
def octets : IpAddress → List UInt8
  | v4 a b c d => [a, b, c, d]
  | v6 groups => groups.toList.flatMap groupOctets

/-- A number of at most `width` digits below `limit`, and the text after it. -/
def number? (base width limit : Nat) (zeros : Bool) (text : List Char) : Option (Nat × List Char) :=
  let digits := text.takeWhile fun c => (Text.digit? base c).isSome
  if digits.isEmpty || width < digits.length then none
  else if !zeros && digits.head? == some '0' && 1 < digits.length then none
  else
    match Text.digits? base 0 digits with
    | some n => if n < limit then some (n, text.dropWhile fun c => (Text.digit? base c).isSome) else none
    | none => none

def octet? : List Char → Option (UInt8 × List Char) :=
  fun text => (number? 10 3 256 false text).map fun (n, rest) => (UInt8.ofNat n, rest)

def group? : List Char → Option (UInt16 × List Char) :=
  fun text => (number? 16 4 65536 true text).map fun (n, rest) => (UInt16.ofNat n, rest)

/-- The text after the given character. -/
def after? (c : Char) : List Char → Option (List Char)
  | x :: rest => if x == c then some rest else none
  | [] => none

/-- Four octets with dots between them, and the text after them. -/
def dotted? (text : List Char) : Option ((UInt8 × UInt8 × UInt8 × UInt8) × List Char) := do
  let (a, text) ← octet? text
  let (b, text) ← octet? (← after? '.' text)
  let (c, text) ← octet? (← after? '.' text)
  let (d, text) ← octet? (← after? '.' text)
  return ((a, b, c, d), text)

/-- The two groups of four octets. -/
def pairGroups : UInt8 × UInt8 × UInt8 × UInt8 → List UInt16
  | (a, b, c, d) => [UInt16.ofNat (256 * a.toNat + b.toNat), UInt16.ofNat (256 * c.toNat + d.toNat)]

/-- Groups read from a text. -/
structure Groups where
  groups : List UInt16
  /-- The last two groups were written as an IPv4 address. -/
  dotted : Bool
  rest : List Char

/-- Reads at most `room` groups with colons between them; `first` says that no colon
has to stand in front. -/
def readGroups : (room : Nat) → (first : Bool) → List Char → Groups
  | 0, _, text => ⟨[], false, text⟩
  | room + 1, first, text =>
    match if first then some text else after? ':' text with
    | none => ⟨[], false, text⟩
    | some body =>
      match if 0 < room then dotted? body else none with
      | some (octets, rest) => ⟨pairGroups octets, true, rest⟩
      | none =>
        match group? body with
        | none => ⟨[], false, text⟩
        | some (g, rest) =>
          let more := readGroups room false rest
          ⟨g :: more.groups, more.dotted, more.rest⟩

/-- The address of up to eight groups, zeros standing between head and tail. -/
def ofGroups (head tail : List UInt16) : IpAddress :=
  v6 (Vector.ofFn fun i : Fin 8 =>
    (head ++ List.replicate (8 - (head.length + tail.length)) 0 ++ tail).getD i 0)

/-- An IPv6 address at the start of a text, and the text after it. -/
def readV6? (text : List Char) : Option (IpAddress × List Char) :=
  let head := readGroups 8 true text
  if head.groups.length = 8 then some (ofGroups head.groups [], head.rest)
  else if head.dotted then none
  else do
    let rest ← after? ':' (← after? ':' head.rest)
    let tail := readGroups (7 - head.groups.length) true rest
    return (ofGroups head.groups tail.groups, tail.rest)

/-- The address if the whole text is an IPv6 address. -/
def parseV6? (text : String) : Option IpAddress :=
  match readV6? text.toList with
  | some (address, []) => some address
  | _ => none

/-- The address if the whole text is one of either kind. -/
def parse? (text : String) : Option IpAddress :=
  match dotted? text.toList with
  | some ((a, b, c, d), []) => some (v4 a b c d)
  | some _ => none
  | none => parseV6? text

end IpAddress

end CilPolicy
