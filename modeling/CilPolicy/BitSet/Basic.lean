import CilPolicy.Text.Quoted
import CilPolicy.Word

/-!
Sparse sets of natural numbers: an ascending run of 64-bit words, each with the
number of its lowest bit. A word that would be zero is not stored, so equal sets
have equal chunks. The end of the last word is kept beside the run, and is set again
whenever the run may have got another last word.
-/

namespace CilPolicy

/-- A word of 64 bits and the number of its lowest bit. -/
structure Chunk where
  start : Nat
  word : BitVec 64
deriving DecidableEq, Repr

namespace Chunk

/-- Offsets of the bits that are set, ascending. -/
def offsets (c : Chunk) : List Nat :=
  (List.range 64).filter c.word.getLsbD

/-- Numbers of the bits that are set, ascending. -/
def bits (c : Chunk) : List Nat :=
  c.offsets.map (c.start + ·)

end Chunk

/-- A sparse set of natural numbers. -/
structure BitSet where
  chunks : List Chunk
  /-- One past the last bit that the last chunk could hold, zero without chunks. In a file
  this is a word of 32 bits, which is enough for bits below 2^32 - 64. -/
  highBit : Nat
deriving DecidableEq, Repr

namespace BitSet

def empty : BitSet := ⟨[], 0⟩

instance : EmptyCollection BitSet := ⟨empty⟩
instance : Inhabited BitSet := ⟨empty⟩

def isEmpty (s : BitSet) : Bool :=
  s.chunks.isEmpty

/-- Number of the lowest bit of the chunk that holds `bit`. -/
def chunkStart (bit : Nat) : Nat :=
  bit / 64 * 64

/-- The word that has `bit` alone. -/
def mask (bit : Nat) : BitVec 64 :=
  1#64 <<< (bit % 64)

/-- The word with every bit below `limit`. -/
def maskBelow (limit : Nat) : BitVec 64 :=
  if 64 ≤ limit then BitVec.allOnes 64 else BitVec.ofNat 64 (Nat.pow 2 limit - 1)

/-- The chunk that starts at `start`. -/
def chunkIn? (chunks : List Chunk) (start : Nat) : Option Chunk :=
  chunks.find? (·.start == start)

/-- The word of the chunk that starts at `start`, zero when there is none. -/
def wordIn (chunks : List Chunk) (start : Nat) : BitVec 64 :=
  match chunkIn? chunks start with
  | some c => c.word
  | none => 0

/-- The stored word that starts at `start`, zero when none is stored. -/
def wordAt (s : BitSet) (start : Nat) : BitVec 64 :=
  wordIn s.chunks start

/-- One past the last bit that the last of the chunks could hold. -/
def endOf (chunks : List Chunk) : Nat :=
  match chunks.getLast? with
  | some c => c.start + 64
  | none => 0

/-- The set of some chunks, with the end of their last. -/
def ofChunks (chunks : List Chunk) : BitSet :=
  ⟨chunks, endOf chunks⟩

/-- The bit is set. -/
def has (s : BitSet) (bit : Nat) : Bool :=
  (s.wordAt (chunkStart bit)).getLsbD (bit % 64)

instance : Membership Nat BitSet := ⟨fun s bit => s.has bit = true⟩

/-- Puts a chunk in front of others unless its word is zero. -/
def keep (start : Nat) (word : BitVec 64) (rest : List Chunk) : List Chunk :=
  if word = 0 then rest else ⟨start, word⟩ :: rest

/-- Sets the bits of `word` in the chunk at `start`. -/
def setIn (start : Nat) (word : BitVec 64) : List Chunk → List Chunk
  | [] => [⟨start, word⟩]
  | c :: cs =>
    if start < c.start then ⟨start, word⟩ :: c :: cs
    else if start = c.start then ⟨start, c.word ||| word⟩ :: cs
    else c :: setIn start word cs

/-- Clears the bits of `word` in the chunk at `start`. -/
def clearIn (start : Nat) (word : BitVec 64) : List Chunk → List Chunk
  | [] => []
  | c :: cs =>
    if start = c.start then keep start (c.word &&& ~~~word) cs
    else c :: clearIn start word cs

/-- Sets the bit. Only a chunk that is new may be the last. -/
def insert (s : BitSet) (bit : Nat) : BitSet :=
  let chunks := setIn (chunkStart bit) (mask bit) s.chunks
  match chunkIn? s.chunks (chunkStart bit) with
  | some _ => { s with chunks }
  | none => ofChunks chunks

/-- Clears the bit. Only a chunk that goes away may have been the last. -/
def erase (s : BitSet) (bit : Nat) : BitSet :=
  let chunks := clearIn (chunkStart bit) (mask bit) s.chunks
  if chunks.length < s.chunks.length then ofChunks chunks else { s with chunks }

/-- Sets or clears the bit. -/
def set (s : BitSet) (bit : Nat) (value : Bool) : BitSet :=
  if value then s.insert bit else s.erase bit

def ofList (bits : List Nat) : BitSet :=
  bits.foldl insert ∅

def singleton (bit : Nat) : BitSet :=
  (∅ : BitSet).insert bit

/-- Combines two ascending runs word by word; a missing word counts as zero. -/
def mergeWith (op : BitVec 64 → BitVec 64 → BitVec 64) : List Chunk → List Chunk → List Chunk
  | [], [] => []
  | a :: as, [] => keep a.start (op a.word 0) (mergeWith op as [])
  | [], b :: bs => keep b.start (op 0 b.word) (mergeWith op [] bs)
  | a :: as, b :: bs =>
    if a.start = b.start then keep a.start (op a.word b.word) (mergeWith op as bs)
    else if a.start < b.start then keep a.start (op a.word 0) (mergeWith op as (b :: bs))
    else keep b.start (op 0 b.word) (mergeWith op (a :: as) bs)
termination_by as bs => as.length + bs.length

def inter (a b : BitSet) : BitSet :=
  ofChunks (mergeWith (· &&& ·) a.chunks b.chunks)

def union (a b : BitSet) : BitSet :=
  ofChunks (mergeWith (· ||| ·) a.chunks b.chunks)

def symmDiff (a b : BitSet) : BitSet :=
  ofChunks (mergeWith (· ^^^ ·) a.chunks b.chunks)

/-- The bits below `limit` that are not in the set. -/
def complement (s : BitSet) (limit : Nat) : BitSet :=
  ofChunks ((List.range ((limit + 63) / 64)).foldr
    (fun i rest => keep (64 * i) (~~~ s.wordAt (64 * i) &&& maskBelow (limit - 64 * i)) rest) [])

/-- The bits below `limit` that are in the first set and not in the second. -/
def diff (a b : BitSet) (limit : Nat) : BitSet :=
  a.inter (b.complement limit)

/-- Every bit below `limit`. -/
def below (limit : Nat) : BitSet :=
  (∅ : BitSet).complement limit

/-- The bits from `low` to `high`, both included. -/
def interval (low high : Nat) : BitSet :=
  (below (high + 1)).diff (below low) (high + 1)

/-- Every bit of the second set is in the first. A set that ends later is not looked at. -/
def covers (a b : BitSet) : Bool :=
  if a.highBit < b.highBit then false
  else b.chunks.all fun c =>
    match chunkIn? a.chunks c.start with
    | some d => (c.word &&& ~~~ d.word) == 0
    | none => false

/-- Some bit is in both of two ascending runs. -/
def meetIn : List Chunk → List Chunk → Bool
  | [], _ => false
  | _, [] => false
  | a :: as, b :: bs =>
    if a.start < b.start then meetIn as (b :: bs)
    else if b.start < a.start then meetIn (a :: as) bs
    else (a.word &&& b.word) != 0 || meetIn as bs
termination_by as bs => as.length + bs.length

/-- Some bit is in both sets. -/
def meets (a b : BitSet) : Bool :=
  meetIn a.chunks b.chunks

/-- The bits of the set, ascending. -/
def toList (s : BitSet) : List Nat :=
  s.chunks.flatMap Chunk.bits

/-- Number of bits in the set. -/
def card (s : BitSet) : Nat :=
  (s.chunks.flatMap Chunk.offsets).length

/-- The greatest bit of the set. -/
def highest? (s : BitSet) : Option Nat :=
  s.chunks.getLast?.bind fun c => c.bits.getLast?

/-- The bits in braces. -/
def text (s : BitSet) : String :=
  Text.braced (s.toList.map toString)

end BitSet

end CilPolicy
