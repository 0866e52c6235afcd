import CilPolicy.BitSet.Basic
import CilPolicy.Kernel.Bytes

/-!
The binary form of a bit set: word size, high bit, number of chunks, then each
chunk as its start and its word. The reader accepts the form the writer produces.
-/

namespace CilPolicy.BitSet

def encodeChunk (c : Chunk) : Bytes :=
  Bytes.u32 c.start ++ Bytes.u64 c.word.toNat

def encode (s : BitSet) : Bytes :=
  Bytes.u32 64 ++ Bytes.u32 s.highBit ++ Bytes.u32 s.chunks.length
    ++ s.chunks.flatMap encodeChunk

/-- One chunk that lies below the high bit and after the chunk before it. -/
def readChunk (high : Nat) (previous : Option Nat) : ByteReader Chunk := do
  let start ← ByteReader.u32
  if start % 64 ≠ 0 then throw (.bitSet (.startUnaligned start))
  if start + 64 > high then throw (.bitSet (.startBeyond start high))
  let word ← ByteReader.u64
  if word = 0 then throw (.bitSet (.nullWord start))
  match previous with
  | some last => if start ≤ last then throw (.bitSet (.outOfOrder start last))
  | none => pure ()
  return ⟨start, BitVec.ofNat 64 word⟩

/-- That many chunks, ascending. -/
def readChunks (high : Nat) : Option Nat → Nat → ByteReader (List Chunk)
  | _, 0 => pure []
  | previous, n + 1 => do
    let c ← readChunk high previous
    let rest ← readChunks high (some c.start) n
    return c :: rest

def read : ByteReader BitSet := do
  let size ← ByteReader.u32
  let high ← ByteReader.u32
  let count ← ByteReader.u32
  if size ≠ 64 then throw (.bitSet (.mapSize size))
  if high % 64 ≠ 0 then throw (.bitSet (.highBitUnaligned high))
  if 0 < high ∧ count = 0 then throw (.bitSet .noChunks)
  let chunks ← readChunks high none count
  match chunks.getLast? with
  | some last => if last.start + 64 ≠ high then throw (.bitSet (.highBitMismatch high last.start))
  | none => pure ()
  return ⟨chunks, high⟩

end CilPolicy.BitSet
