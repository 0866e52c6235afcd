import CilPolicy.BitSet.Codec
import CilPolicy.Proofs.BitSet.Refinement
import CilPolicy.Proofs.Kernel.Reading

/-!
# The binary form of a bit set

A set is written in one way, and only what is written is read. A chunk is read when it may follow
the chunks before it, so the chunks that are read make a canonical run; and the high bit, which
bounds them while they are read, is the end of the last of them.
-/

namespace CilPolicy

open ByteReader

/-- The chunk may stand after one that starts at `previous`, with its end no higher than `high`. -/
structure Chunk.Follows (c : Chunk) (high : Nat) (previous : Option Nat) : Prop where
  aligned : c.start % 64 = 0
  below : c.start + 64 ≤ high
  nonzero : c.word ≠ 0
  after : ∀ last ∈ previous, last < c.start

namespace BitSet

variable {high : Nat} {previous : Option Nat} {input rest : Bytes} {c : Chunk} {cs : List Chunk}
  {s : BitSet}

theorem ofNat_eq_zero_iff {word : Nat} (fits : word < 2 ^ 64) : BitVec.ofNat 64 word = 0 ↔ word = 0 := by
  constructor
  · intro zero
    have number := congrArg BitVec.toNat zero
    rwa [BitVec.toNat_ofNat, Nat.mod_eq_of_lt fits] at number
  · rintro rfl
    rfl

theorem readChunk_ok (bound : high < wordBound) :
    readChunk high previous input = .ok c rest ↔
      c.Follows high previous ∧ input = encodeChunk c ++ rest := by
  have opened : readChunk high previous input = .ok c rest ↔
      ∃ start left, ByteReader.u32 input = .ok start left ∧ start % 64 = 0 ∧ start + 64 ≤ high ∧
        ∃ word left', ByteReader.u64 left = .ok word left' ∧ word ≠ 0 ∧
          (∀ last ∈ previous, last < start) ∧ ⟨start, BitVec.ofNat 64 word⟩ = c ∧ left' = rest := by
    cases previous with
    | none => simp only [readChunk, bind_ok, guard_ok, pure_ok, ne_eq, Decidable.not_not, Nat.not_lt,
        Option.mem_def, reduceCtorEq, false_imp_iff, implies_true, true_and]
    | some last => simp only [readChunk, bind_ok, guard_ok, pure_ok, ne_eq, Decidable.not_not, Nat.not_lt,
        Option.mem_def, Option.some.injEq, forall_eq', Nat.not_le]
  rw [opened]
  constructor
  · rintro ⟨start, left, first, aligned, below, word, left', second, nonzero, after, rfl, rfl⟩
    obtain ⟨_, rfl⟩ := u32_ok.mp first
    obtain ⟨fits, rfl⟩ := u64_ok.mp second
    have number : (BitVec.ofNat 64 word).toNat = word := Nat.mod_eq_of_lt fits
    refine ⟨⟨aligned, below, ?_, after⟩, ?_⟩
    · rwa [ne_eq, ofNat_eq_zero_iff fits]
    · rw [encodeChunk, number, List.append_assoc]
  · rintro ⟨⟨aligned, below, nonzero, after⟩, rfl⟩
    have fits : c.word.toNat < longBound := c.word.isLt
    have start : c.start < wordBound := by omega
    have word : BitVec.ofNat 64 c.word.toNat = c.word := BitVec.ofNat_toNat 64 c.word
    refine ⟨c.start, Bytes.u64 c.word.toNat ++ rest, ?_, aligned, below, c.word.toNat, rest, ?_, ?_,
      after, ?_, rfl⟩
    · exact u32_ok.mpr ⟨start, by rw [encodeChunk, List.append_assoc]⟩
    · exact u64_ok.mpr ⟨fits, rfl⟩
    · rwa [ne_eq, ← ofNat_eq_zero_iff fits, word]
    · rw [word]

/-- A run that may stand after a chunk that starts at `previous`, with its end no higher than `high`. -/
structure RunFollows (cs : List Chunk) (high : Nat) (previous : Option Nat) : Prop where
  canonical : Canonical cs
  below : ∀ c ∈ cs, c.start + 64 ≤ high
  after : ∀ last ∈ previous, ∀ c ∈ cs, last < c.start

/-- A run follows when its first chunk does and the others follow the first. -/
theorem runFollows_cons :
    RunFollows (c :: cs) high previous ↔ c.Follows high previous ∧ RunFollows cs high (some c.start) := by
  constructor
  · rintro ⟨⟨aligned, nonzero, above, canonical⟩, below, after⟩
    refine ⟨⟨aligned, below c List.mem_cons_self, nonzero, fun last hlast => ?_⟩, ⟨canonical, ?_, ?_⟩⟩
    · exact after last hlast c List.mem_cons_self
    · exact fun d hd => below d (List.mem_cons_of_mem c hd)
    · rintro last ⟨⟩
      exact above
  · rintro ⟨⟨aligned, below, nonzero, after⟩, ⟨canonical, belowRest, above⟩⟩
    have above := above c.start rfl
    refine ⟨⟨aligned, nonzero, above, canonical⟩, ?_, ?_⟩
    · intro d hd
      rcases List.mem_cons.mp hd with rfl | hd
      · exact below
      · exact belowRest d hd
    · intro last hlast d hd
      have first := after last hlast
      rcases List.mem_cons.mp hd with rfl | hd
      · exact first
      · exact Nat.lt_trans first (above d hd)

theorem readChunks_ok (bound : high < wordBound) {count : Nat} :
    readChunks high previous count input = .ok cs rest ↔
      cs.length = count ∧ RunFollows cs high previous ∧ input = cs.flatMap encodeChunk ++ rest := by
  induction count generalizing previous input cs rest with
  | zero =>
    rw [readChunks, pure_ok]
    constructor
    · rintro ⟨rfl, rfl⟩
      exact ⟨rfl, ⟨trivial, by simp, by simp⟩, rfl⟩
    · rintro ⟨none, _, whole⟩
      obtain rfl := List.eq_nil_of_length_eq_zero none
      exact ⟨rfl, whole⟩
  | succ count ih =>
    simp only [readChunks, bind_ok, readChunk_ok bound, ih, pure_ok]
    constructor
    · rintro ⟨c, left, ⟨follows, rfl⟩, cs, left', ⟨length, others, rfl⟩, rfl, rfl⟩
      refine ⟨by rw [List.length_cons, length], runFollows_cons.mpr ⟨follows, others⟩, ?_⟩
      rw [List.flatMap_cons, List.append_assoc]
    · rintro ⟨length, follows, rfl⟩
      cases cs with
      | nil => cases length
      | cons c cs =>
        obtain ⟨first, others⟩ := runFollows_cons.mp follows
        refine ⟨c, cs.flatMap encodeChunk ++ rest, ⟨first, ?_⟩, cs, rest, ⟨?_, others, rfl⟩, rfl, rfl⟩
        · rw [List.flatMap_cons, List.append_assoc]
        · exact Nat.succ.inj length

/-- The chunks of a set fit the high bit of the set. -/
theorem WellFormed.runFollows (wf : s.WellFormed) : RunFollows s.chunks s.highBit none where
  canonical := wf.canonical
  below c hc := wf.highBit ▸ start_le_highBit wf.canonical hc
  after := by simp

theorem wordBound_eq : wordBound = bitLimit + 64 ∧ bitLimit % 64 = 0 := by
  decide

/-- What was written is read back, and what follows it is left. -/
theorem takes_read (wf : s.WellFormed) (below : ∀ n, n ∈ s → n < bitLimit) : read.Takes s.encode s := by
  intro rest
  obtain ⟨sizes, steps⟩ := wordBound_eq
  have high := highBit_le wf steps below
  have bound : s.highBit < wordBound := by omega
  have ends := wf.highBit
  have room := length_le_endOf wf.canonical
  have aligned := endOf_aligned wf.canonical
  have count : s.chunks.length < wordBound := by omega
  have size : 64 < wordBound := by decide
  simp only [read, bind_ok, guard_ok]
  refine ⟨64, _, u32_ok.mpr ⟨size, ?_⟩, s.highBit, _, u32_ok.mpr ⟨bound, rfl⟩, s.chunks.length, _,
    u32_ok.mpr ⟨count, rfl⟩, by omega, by omega, ?_, s.chunks, rest,
    (readChunks_ok bound).mpr ⟨rfl, wf.runFollows, rfl⟩, ?_⟩
  · simp only [encode, List.append_assoc]
  · rintro ⟨positive, none⟩
    have empty : s.chunks = [] := List.eq_nil_of_length_eq_zero none
    rw [ends, empty] at positive
    exact absurd positive (Nat.lt_irrefl 0)
  · cases found : s.chunks.getLast? with
    | some last =>
      have ends := wf.ends found
      exact guard_ok.mpr ⟨by omega, rfl⟩
    | none => rfl

theorem readChunks_error {high start : Nat} (word : start < wordBound) (aligned : start % 64 = 0)
    (beyond : high < start + 64) (previous : Option Nat) (count : Nat) (rest : Bytes) :
    readChunks high previous (count + 1) (Bytes.u32 start ++ rest) =
      .error (.bitSet (.startBeyond start high)) rest := by
  refine bind_error ?_
  rw [readChunk, (takes_u32 word).bind_eq, if_neg (not_not_intro aligned), if_pos beyond]
  rfl

/-- A number so high that the end of its chunk is no word is written with an end of zero, and the set is not
read back. -/
theorem read_error (wf : s.WellFormed) (words : ∀ n, n ∈ s → n < wordBound) {n : Nat} (hn : n ∈ s)
    (beyond : bitLimit ≤ n) (rest : Bytes) :
    ∃ start left, read (s.encode ++ rest) = .error (.bitSet (.startBeyond start 0)) left := by
  obtain ⟨sizes, steps⟩ := wordBound_eq
  have below := highBit_le wf (by decide) words
  have above := lt_highBit wf hn
  have aligned : s.highBit % 64 = 0 := wf.highBit ▸ endOf_aligned wf.canonical
  have high : s.highBit = wordBound := by omega
  -- The end of the last chunk is written as zero, and no chunk ends below it.
  have wrapped : Bytes.u32 s.highBit = Bytes.u32 0 := by
    rw [high]
    decide
  have room := length_le_endOf wf.canonical
  rw [← wf.highBit] at room
  cases chunks : s.chunks with
  | nil =>
    have none : s.highBit = 0 := by
      rw [wf.highBit, chunks]
      rfl
    omega
  | cons c cs =>
    have inside : c.start + 64 ≤ s.highBit := by
      have := start_le_highBit wf.canonical (c := c) (chunks ▸ List.mem_cons_self)
      rwa [← wf.highBit] at this
    have count : s.chunks.length < wordBound := by omega
    have start : c.start < wordBound := by omega
    have aligned : c.start % 64 = 0 := start_aligned wf.canonical (chunks ▸ List.mem_cons_self)
    refine ⟨c.start, Bytes.u64 c.word.toNat ++ (cs.flatMap encodeChunk ++ rest), ?_⟩
    have pieces : s.encode ++ rest = Bytes.u32 64 ++ (Bytes.u32 0 ++ (Bytes.u32 s.chunks.length ++
        (Bytes.u32 c.start ++ (Bytes.u64 c.word.toNat ++ (cs.flatMap encodeChunk ++ rest))))) := by
      rw [encode, wrapped, chunks, List.flatMap_cons, encodeChunk]
      simp only [List.append_assoc]
    rw [pieces, read, (takes_u32 (by decide)).bind_eq, (takes_u32 (by decide)).bind_eq, (takes_u32 count).bind_eq,
      if_neg (by decide), if_neg (by decide), if_neg (by simp), chunks, List.length_cons]
    exact bind_error (readChunks_error start aligned (by omega) none cs.length _)

/-- A set that is read is canonical, and the bytes that were taken are those that it is written as. -/
theorem encode_of_read (run : read input = .ok s rest) :
    s.WellFormed ∧ (∀ n, n ∈ s → n < bitLimit) ∧ input = s.encode ++ rest := by
  obtain ⟨sizes, steps⟩ := wordBound_eq
  simp only [read, bind_ok, guard_ok] at run
  obtain ⟨size, _, first, high, _, second, count, _, third, words, aligned, counted, cs, left, run,
    final⟩ := run
  obtain ⟨_, rfl⟩ := u32_ok.mp first
  obtain ⟨bound, rfl⟩ := u32_ok.mp second
  obtain ⟨_, rfl⟩ := u32_ok.mp third
  obtain ⟨rfl, follows, rfl⟩ := (readChunks_ok bound).mp run
  obtain rfl : size = 64 := by omega
  have ends : high = endOf cs ∧ (⟨cs, high⟩ : BitSet) = s ∧ left = rest := by
    cases found : cs.getLast? with
    | some last =>
      rw [found] at final
      obtain ⟨agree, final⟩ := guard_ok.mp final
      have last_end : endOf cs = last.start + 64 := by rw [endOf, found]
      exact ⟨by omega, pure_ok.mp final⟩
    | none =>
      rw [found] at final
      have empty : cs = [] := List.getLast?_eq_none_iff.mp found
      subst empty
      refine ⟨?_, pure_ok.mp final⟩
      -- Without chunks the high bit was checked against their number, before any were read.
      by_contra positive
      exact counted ⟨Nat.pos_of_ne_zero positive, rfl⟩
  obtain ⟨highBit, rfl, rfl⟩ := ends
  have wf : (⟨cs, high⟩ : BitSet).WellFormed := ⟨follows.canonical, highBit⟩
  refine ⟨wf, ?_, ?_⟩
  · intro n hn
    have below : n < high := lt_highBit wf hn
    omega
  · simp only [encode, List.append_assoc]

/-- A set is read exactly where it is written: the bytes are those of a set in canonical form with
every bit below the limit, and what follows them is left. -/
theorem read_eq_ok_iff :
    read input = .ok s rest ↔
      s.WellFormed ∧ (∀ n, n ∈ s → n < bitLimit) ∧ input = s.encode ++ rest := by
  constructor
  · exact encode_of_read
  · rintro ⟨wf, below, rfl⟩
    exact takes_read wf below rest

end BitSet

end CilPolicy
