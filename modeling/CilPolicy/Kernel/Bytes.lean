import CilPolicy.Kernel.Error

/-!
Little-endian fields as lists of bytes, and a reader that takes them off the
front of its input. A failed read leaves its input where it was.
-/

namespace CilPolicy

abbrev Bytes := List UInt8

namespace Bytes

/-- The number as that many bytes, the lowest first. -/
def littleEndian : Nat → Nat → Bytes
  | 0, _ => []
  | width + 1, n => UInt8.ofNat n :: littleEndian width (n / 256)

/-- The number that bytes give, the lowest first. -/
def toNat : Bytes → Nat
  | [] => 0
  | b :: r => b.toNat + 256 * toNat r

def u8 (n : Nat) : Bytes := littleEndian 1 n
def u16 (n : Nat) : Bytes := littleEndian 2 n
def u32 (n : Nat) : Bytes := littleEndian 4 n
def u64 (n : Nat) : Bytes := littleEndian 8 n

/-- The bytes of a text. -/
def ofString (s : String) : Bytes :=
  s.toUTF8.toList

/-- Length of a text in bytes, as a field. -/
def textLength (s : String) : Bytes :=
  u32 s.utf8ByteSize

/-- The first bytes and what follows them, when there are enough. -/
def split? : Nat → Bytes → Option (Bytes × Bytes)
  | 0, rest => some ([], rest)
  | _ + 1, [] => none
  | n + 1, b :: r => (split? n r).map fun (front, rest) => (b :: front, rest)

end Bytes

/-- Takes fields off the front of a byte sequence. -/
abbrev ByteReader := EStateM KernelError Bytes

namespace ByteReader

/-- Exactly that many bytes. -/
def bytes (n : Nat) : ByteReader Bytes := fun input =>
  match Bytes.split? n input with
  | some (front, rest) => .ok front rest
  | none => .error (.unexpectedEnd n input.length) input

/-- A little-endian number of that many bytes. -/
def number (width : Nat) : ByteReader Nat :=
  Bytes.toNat <$> bytes width

def u8 : ByteReader Nat := number 1
def u16 : ByteReader Nat := number 2
def u32 : ByteReader Nat := number 4
def u64 : ByteReader Nat := number 8

/-- Reads that many items, in order. -/
def replicate (read : ByteReader α) : Nat → ByteReader (List α)
  | 0 => pure []
  | n + 1 => do
    let first ← read
    let rest ← replicate read n
    return first :: rest

/-- The value read from the input and the bytes that follow it. -/
def run? (read : ByteReader α) (input : Bytes) : Except KernelError (α × Bytes) :=
  match read input with
  | .ok value rest => .ok (value, rest)
  | .error fault _ => .error fault

end ByteReader

end CilPolicy
