/-!
Bounds of machine words.
-/

namespace CilPolicy

/-- A word of 32 bits is below this bound. -/
def wordBound : Nat := 0x100000000

/-- A word of 64 bits is below this bound. -/
def longBound : Nat := 0x10000000000000000

/-- The number fits in 64 bits with a sign. -/
def fitsLong (n : Int) : Bool :=
  -0x8000000000000000 ≤ n && n < 0x8000000000000000

/-- The number fits in 128 bits, with a sign or without. -/
def fitsWide (n : Int) : Bool :=
  -0x80000000000000000000000000000000 ≤ n && n < 0x100000000000000000000000000000000

end CilPolicy
