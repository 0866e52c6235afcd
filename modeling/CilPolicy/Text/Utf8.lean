/-!
Reading bytes as UTF-8. A run of bytes that begins no character, or that breaks
off inside one, is one fault; the lossy reading shows each fault as U+FFFD.
-/

namespace CilPolicy.Text

/-- What stands at the front of a byte sequence. -/
inductive Utf8Step where
  | done
  | char (c : Char) (rest : List UInt8)
  | fault (rest : List UInt8)

/-- A byte that continues a character, with its six bits. -/
def continuation (b : UInt8) : Bool :=
  0x80 ≤ b && b ≤ 0xBF

/-- The second byte that a three-byte or four-byte character may have. -/
def secondByte (first second : UInt8) : Bool :=
  if first == 0xE0 then 0xA0 ≤ second && second ≤ 0xBF
  else if first == 0xED then 0x80 ≤ second && second ≤ 0x9F
  else if first == 0xF0 then 0x90 ≤ second && second ≤ 0xBF
  else if first == 0xF4 then 0x80 ≤ second && second ≤ 0x8F
  else continuation second

/-- The low six bits of a continuation byte. -/
def sixBits (b : UInt8) : Nat :=
  b.toNat % 64

/-- Splits the first character, or the first fault, off the bytes. -/
def utf8Step : List UInt8 → Utf8Step
  | [] => .done
  | a :: r =>
    if a < 0x80 then .char (Char.ofNat a.toNat) r
    else if 0xC2 ≤ a && a ≤ 0xDF then
      match r with
      | b :: r' =>
        if continuation b then .char (Char.ofNat (a.toNat % 32 * 64 + sixBits b)) r' else .fault r
      | [] => .fault []
    else if 0xE0 ≤ a && a ≤ 0xEF then
      match r with
      | b :: r' =>
        if secondByte a b then
          match r' with
          | c :: r'' =>
            if continuation c then
              .char (Char.ofNat (a.toNat % 16 * 4096 + sixBits b * 64 + sixBits c)) r''
            else .fault r'
          | [] => .fault []
        else .fault r
      | [] => .fault []
    else if 0xF0 ≤ a && a ≤ 0xF4 then
      match r with
      | b :: r' =>
        if secondByte a b then
          match r' with
          | c :: r'' =>
            if continuation c then
              match r'' with
              | d :: r''' =>
                if continuation d then
                  .char (Char.ofNat (a.toNat % 8 * 262144 + sixBits b * 4096 + sixBits c * 64
                    + sixBits d)) r'''
                else .fault r''
              | [] => .fault []
            else .fault r'
          | [] => .fault []
        else .fault r
      | [] => .fault []
    else .fault r

/-- The characters and faults of the bytes; a fault is `none`. The first argument
bounds the number of steps. -/
def utf8Parts : Nat → List UInt8 → Array (Option Char) → Array (Option Char)
  | 0, _, acc => acc
  | n + 1, bytes, acc =>
    match utf8Step bytes with
    | .done => acc
    | .char c rest => utf8Parts n rest (acc.push (some c))
    | .fault rest => utf8Parts n rest (acc.push none)

/-- The bytes as text, each fault shown as U+FFFD. -/
def ofUtf8Lossy (bytes : List UInt8) : String :=
  String.ofList ((utf8Parts bytes.length bytes #[]).toList.map (·.getD (Char.ofNat 0xFFFD)))

/-- The bytes as text, when they hold no fault. -/
def ofUtf8? (bytes : List UInt8) : Option String :=
  ((utf8Parts bytes.length bytes #[]).toList.mapM id).map String.ofList

/-- The bytes of a text. -/
def toUtf8 (s : String) : List UInt8 :=
  s.toUTF8.toList

end CilPolicy.Text
