import CilPolicy.BitSet.Basic
import Mathlib.Tactic.ByContra

/-!
# Bit sets as sets of numbers

A run of chunks is canonical when its starts are multiples of 64 that go up and
no word is zero. Every operation keeps runs canonical, and on canonical runs it
does to the numbers what its name says. Reading a set never needs more than the
word that starts at a place, so each operation is first described by its words.
-/

namespace CilPolicy

theorem exists_bit_of_ne_zero {w : Nat} {x : BitVec w} (h : x ≠ 0) :
    ∃ i, i < w ∧ x.getLsbD i = true := by
  by_contra none
  apply h
  apply BitVec.eq_of_getLsbD_eq
  intro i hi
  cases hx : x.getLsbD i with
  | false => simp
  | true => exact absurd ⟨i, hi, hx⟩ none

namespace BitSet

/-- Starts go up in steps of 64, and no word is zero. -/
def Canonical : List Chunk → Prop
  | [] => True
  | c :: cs => c.start % 64 = 0 ∧ c.word ≠ 0 ∧ (∀ d ∈ cs, c.start < d.start) ∧ Canonical cs

/-- The chunks of the set are canonical, and its high bit is the end of the last. -/
structure WellFormed (s : BitSet) : Prop where
  canonical : Canonical s.chunks
  highBit : s.highBit = endOf s.chunks

theorem wellFormed_ofChunks {cs : List Chunk} (canonical : Canonical cs) : (ofChunks cs).WellFormed :=
  ⟨canonical, rfl⟩

theorem mem_iff_has {s : BitSet} {bit : Nat} : bit ∈ s ↔ s.has bit = true :=
  Iff.rfl

instance (s : BitSet) (bit : Nat) : Decidable (bit ∈ s) :=
  inferInstanceAs (Decidable (s.has bit = true))

/-! ### Words -/

@[simp] theorem wordIn_nil (start : Nat) : wordIn [] start = 0 := rfl

theorem wordIn_cons (c : Chunk) (cs : List Chunk) (start : Nat) :
    wordIn (c :: cs) start = if c.start = start then c.word else wordIn cs start := by
  by_cases h : c.start = start
  · simp [wordIn, chunkIn?, h]
  · simp [wordIn, chunkIn?, h]

theorem wordIn_of_lt {cs : List Chunk} {start : Nat} (above : ∀ d ∈ cs, start < d.start) :
    wordIn cs start = 0 := by
  induction cs with
  | nil => rfl
  | cons c cs ih =>
    have hc := above c List.mem_cons_self
    rw [wordIn_cons, if_neg (by omega)]
    exact ih fun d hd => above d (List.mem_cons_of_mem c hd)

theorem mem_of_chunkIn? {cs : List Chunk} {start : Nat} {c : Chunk} (h : chunkIn? cs start = some c) :
    c ∈ cs ∧ c.start = start := by
  have found := List.find?_some h
  exact ⟨List.mem_of_find?_eq_some h, by simpa using found⟩

/-- A word that is not zero is stored. -/
theorem exists_chunk_of_wordIn {cs : List Chunk} {start : Nat} (h : wordIn cs start ≠ 0) :
    ∃ c ∈ cs, c.start = start ∧ c.word = wordIn cs start := by
  induction cs with
  | nil => exact absurd rfl h
  | cons c cs ih =>
    rw [wordIn_cons] at h ⊢
    split at h
    · rename_i hc
      exact ⟨c, List.mem_cons_self, hc, by simp [hc]⟩
    · rename_i hc
      obtain ⟨d, hd, hs, hw⟩ := ih h
      exact ⟨d, List.mem_cons_of_mem c hd, hs, by simp [hc, hw]⟩

/-- In a canonical run every stored word is the one found at its start. -/
theorem wordIn_of_mem {cs : List Chunk} (canonical : Canonical cs) {c : Chunk} (hc : c ∈ cs) :
    wordIn cs c.start = c.word := by
  induction cs with
  | nil => cases hc
  | cons d cs ih =>
    obtain ⟨_, _, above, rest⟩ := canonical
    rw [wordIn_cons]
    rcases List.mem_cons.mp hc with heq | hc
    · simp [heq]
    · have := above c hc
      rw [if_neg (by omega)]
      exact ih rest hc

theorem start_aligned {cs : List Chunk} (canonical : Canonical cs) {c : Chunk} (hc : c ∈ cs) :
    c.start % 64 = 0 := by
  induction cs with
  | nil => cases hc
  | cons d cs ih =>
    rcases List.mem_cons.mp hc with heq | hc
    · exact heq ▸ canonical.1
    · exact ih canonical.2.2.2 hc

theorem word_ne_zero {cs : List Chunk} (canonical : Canonical cs) {c : Chunk} (hc : c ∈ cs) :
    c.word ≠ 0 := by
  induction cs with
  | nil => cases hc
  | cons d cs ih =>
    rcases List.mem_cons.mp hc with heq | hc
    · exact heq ▸ canonical.2.1
    · exact ih canonical.2.2.2 hc

theorem wordIn_keep {start : Nat} {rest : List Chunk} (above : ∀ d ∈ rest, start < d.start)
    (word : BitVec 64) (place : Nat) :
    wordIn (keep start word rest) place =
      if start = place then word else wordIn rest place := by
  rw [keep]
  split
  · rename_i hw
    split
    · rename_i hp
      rw [← hp, wordIn_of_lt above, hw]
    · rfl
  · exact wordIn_cons ..

theorem mem_keep {start : Nat} {word : BitVec 64} {rest : List Chunk} {d : Chunk}
    (h : d ∈ keep start word rest) : d.start = start ∨ d ∈ rest := by
  rw [keep] at h
  split at h
  · exact Or.inr h
  · rcases List.mem_cons.mp h with heq | h
    · exact Or.inl (by rw [heq])
    · exact Or.inr h

theorem canonical_keep {start : Nat} {word : BitVec 64} {rest : List Chunk}
    (aligned : start % 64 = 0) (above : ∀ d ∈ rest, start < d.start)
    (canonical : Canonical rest) : Canonical (keep start word rest) := by
  rw [keep]
  split
  · exact canonical
  · rename_i hw
    exact ⟨aligned, hw, above, canonical⟩

/-! ### Numbers -/

theorem wellFormed_empty : WellFormed ∅ := ⟨trivial, rfl⟩

@[simp] theorem not_mem_empty (bit : Nat) : ¬ bit ∈ (∅ : BitSet) := by
  simp [mem_iff_has, has, wordAt, EmptyCollection.emptyCollection, empty]

/-- Two numbers have one word and one offset only if they are equal. -/
theorem eq_of_chunk {a b : Nat} (start : chunkStart a = chunkStart b) (offset : a % 64 = b % 64) :
    a = b := by
  simp only [chunkStart] at start
  omega

/-- A number of the set is the bit of a stored chunk. -/
theorem exists_chunk_of_mem {s : BitSet} {bit : Nat} (h : bit ∈ s) :
    ∃ c ∈ s.chunks, c.start = chunkStart bit ∧ c.word.getLsbD (bit % 64) = true := by
  have hbit : (wordIn s.chunks (chunkStart bit)).getLsbD (bit % 64) = true := h
  have stored : wordIn s.chunks (chunkStart bit) ≠ 0 := by
    intro hz
    rw [hz] at hbit
    simp at hbit
  obtain ⟨c, hc, hs, hw⟩ := exists_chunk_of_wordIn stored
  exact ⟨c, hc, hs, hw ▸ hbit⟩

theorem mem_toList_of_mem {s : BitSet} {bit : Nat} (h : bit ∈ s) : bit ∈ s.toList := by
  obtain ⟨c, hc, hs, hset⟩ := exists_chunk_of_mem h
  refine List.mem_flatMap.mpr ⟨c, hc, List.mem_map.mpr ⟨bit % 64, ?_, ?_⟩⟩
  · exact List.mem_filter.mpr ⟨List.mem_range.mpr (Nat.mod_lt _ (by decide)), hset⟩
  · rw [hs, chunkStart]
    omega

theorem mem_toList {s : BitSet} (wf : s.WellFormed) {bit : Nat} : bit ∈ s.toList ↔ bit ∈ s := by
  refine ⟨fun h => ?_, mem_toList_of_mem⟩
  obtain ⟨c, hc, hbits⟩ := List.mem_flatMap.mp h
  obtain ⟨offset, ho, rfl⟩ := List.mem_map.mp hbits
  obtain ⟨hlt, hset⟩ := List.mem_filter.mp ho
  have hlt := List.mem_range.mp hlt
  have aligned := start_aligned wf.canonical hc
  have hstart : chunkStart (c.start + offset) = c.start := by
    rw [chunkStart]
    omega
  have hoffset : (c.start + offset) % 64 = offset := by omega
  change (s.wordAt (chunkStart (c.start + offset))).getLsbD ((c.start + offset) % 64) = true
  rw [hstart, hoffset, show s.wordAt c.start = c.word from wordIn_of_mem wf.canonical hc]
  exact hset

theorem mem_of_chunk {s : BitSet} (wf : s.WellFormed) {c : Chunk} (hc : c ∈ s.chunks) {i : Nat}
    (hi : c.word.getLsbD i = true) : c.start + i ∈ s := by
  have hlt : i < 64 := by
    by_contra hge
    rw [BitVec.getLsbD_of_ge _ _ (by omega)] at hi
    cases hi
  exact (mem_toList wf).mp (List.mem_flatMap.mpr ⟨c, hc, List.mem_map.mpr
    ⟨i, List.mem_filter.mpr ⟨List.mem_range.mpr hlt, hi⟩, rfl⟩⟩)

theorem has_at_chunk {s : BitSet} {start i : Nat} (aligned : start % 64 = 0) (hi : i < 64) :
    start + i ∈ s ↔ (s.wordAt start).getLsbD i = true := by
  have hstart : chunkStart (start + i) = start := by
    rw [chunkStart]
    omega
  have hoffset : (start + i) % 64 = i := by omega
  change (s.wordAt (chunkStart (start + i))).getLsbD ((start + i) % 64) = true ↔ _
  rw [hstart, hoffset]

theorem not_mem_of_isEmpty {s : BitSet} (h : s.isEmpty = true) (bit : Nat) : ¬ bit ∈ s := by
  intro hbit
  have hnil : s.chunks = [] := List.isEmpty_iff.mp h
  have hlist := mem_toList_of_mem hbit
  simp [toList, hnil] at hlist

theorem isEmpty_iff {s : BitSet} (wf : s.WellFormed) : s.isEmpty = true ↔ ∀ bit, ¬ bit ∈ s := by
  constructor
  · exact not_mem_of_isEmpty
  · intro none
    rw [isEmpty]
    cases hchunks : s.chunks with
    | nil => rfl
    | cons c cs =>
      exfalso
      have hc : c ∈ s.chunks := by simp [hchunks]
      obtain ⟨i, _, hi⟩ := exists_bit_of_ne_zero (word_ne_zero wf.canonical hc)
      exact none _ (mem_of_chunk wf hc hi)

theorem isEmpty_eq_false_iff {s : BitSet} (wf : s.WellFormed) :
    s.isEmpty = false ↔ ∃ bit, bit ∈ s := by
  rw [← Bool.not_eq_true, isEmpty_iff wf, Classical.not_forall_not]

end BitSet

end CilPolicy
