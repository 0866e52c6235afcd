import CilPolicy.Proofs.BitSet.Operations
import Mathlib.Data.Finset.Card
import Mathlib.Data.Finset.Range

/-!
# Bit sets refine finite sets

A construction is a set built by the operations, and has a meaning in finite sets beside
its result in chunks. The result is canonical and answers every question as its meaning
does; so two constructions with one meaning have one result. Numbers stay below the
bound of 32-bit words when the bits and limits of the construction leave room for the
chunk that holds them.
-/

namespace CilPolicy

namespace BitSet

/-! ### Listing a set -/

theorem pairwise_start {cs : List Chunk} (canonical : Canonical cs) :
    cs.Pairwise (fun c d => c.start < d.start) := by
  induction cs with
  | nil => exact .nil
  | cons c cs ih =>
    obtain ⟨_, _, above, rest⟩ := canonical
    exact List.pairwise_cons.mpr ⟨above, ih rest⟩

theorem mem_bits {c : Chunk} {n : Nat} :
    n ∈ c.bits ↔ ∃ i, i < 64 ∧ c.word.getLsbD i = true ∧ c.start + i = n := by
  simp only [Chunk.bits, Chunk.offsets, List.mem_map, List.mem_filter, List.mem_range, and_assoc]

theorem pairwise_bits (c : Chunk) : c.bits.Pairwise (· < ·) := by
  refine List.pairwise_map.mpr ?_
  have offsets : c.offsets.Pairwise (· < ·) := List.pairwise_lt_range.filter _
  exact offsets.imp fun hlt => by omega

/-- The numbers are listed in ascending order, each once. -/
theorem pairwise_toList {s : BitSet} (wf : s.WellFormed) : s.toList.Pairwise (· < ·) := by
  refine List.pairwise_flatMap.mpr ⟨fun c _ => pairwise_bits c, ?_⟩
  refine (pairwise_start wf.canonical).imp_of_mem ?_
  intro c d hc hd hlt n hn m hm
  obtain ⟨i, hi, _, rfl⟩ := mem_bits.mp hn
  obtain ⟨j, _, _, rfl⟩ := mem_bits.mp hm
  have := start_aligned wf.canonical hc
  have := start_aligned wf.canonical hd
  omega

theorem card_eq_length (s : BitSet) : s.card = s.toList.length := by
  simp only [card, toList, Chunk.bits, List.length_flatMap, List.length_map]

theorem bits_ne_nil {c : Chunk} (nonzero : c.word ≠ 0) : c.bits ≠ [] := by
  obtain ⟨i, hi, set⟩ := exists_bit_of_ne_zero nonzero
  exact List.ne_nil_of_mem (mem_bits.mpr ⟨i, hi, set, rfl⟩)

/-- The greatest number is the last that is listed. -/
theorem highest?_eq_getLast? {s : BitSet} (wf : s.WellFormed) : s.highest? = s.toList.getLast? := by
  have nonzero := fun {c} (hc : c ∈ s.chunks) => word_ne_zero wf.canonical hc
  rw [highest?, toList]
  rcases List.eq_nil_or_concat' s.chunks with none | ⟨front, last, whole⟩
  · rw [none]
    rfl
  · have listed : last.bits ≠ [] := bits_ne_nil (nonzero (by simp [whole]))
    rw [whole]
    simp [List.getLast?_append, List.getLast?_eq_getLast_of_ne_nil listed]

theorem highest?_eq_some {s : BitSet} (wf : s.WellFormed) {n : Nat} :
    s.highest? = some n ↔ n ∈ s ∧ ∀ m, m ∈ s → m ≤ n := by
  have ascending := pairwise_toList wf
  rw [highest?_eq_getLast? wf]
  simp only [← mem_toList wf]
  rcases List.eq_nil_or_concat' s.toList with none | ⟨front, last, whole⟩
  · simp [none]
  · rw [whole] at ascending ⊢
    obtain ⟨_, _, below⟩ := List.pairwise_append.mp ascending
    have least : ∀ m ∈ front, m < last := fun m hm => below m hm last List.mem_cons_self
    rw [List.getLast?_concat, Option.some.injEq]
    constructor
    · rintro rfl
      refine ⟨by simp, ?_⟩
      intro m hm
      rcases List.mem_append.mp hm with hm | hm
      · exact Nat.le_of_lt (least m hm)
      · exact Nat.le_of_eq (List.mem_singleton.mp hm)
    · rintro ⟨hn, greatest⟩
      have high := greatest last (by simp)
      rcases List.mem_append.mp hn with hn | hn
      · have := least n hn
        omega
      · exact (List.mem_singleton.mp hn).symm

/-! ### One run for each set -/

theorem wordIn_of_unaligned {cs : List Chunk} (canonical : Canonical cs) {start : Nat}
    (unaligned : start % 64 ≠ 0) : wordIn cs start = 0 := by
  by_contra stored
  obtain ⟨c, hc, hs, _⟩ := exists_chunk_of_wordIn stored
  exact unaligned (hs ▸ start_aligned canonical hc)

/-- A canonical run is known by its words. -/
theorem eq_of_wordIn {cs ds : List Chunk} (left : Canonical cs) (right : Canonical ds)
    (same : ∀ start, wordIn cs start = wordIn ds start) : cs = ds := by
  induction cs generalizing ds with
  | nil =>
    cases ds with
    | nil => rfl
    | cons d ds =>
      have hd := same d.start
      rw [wordIn_nil, wordIn_cons, if_pos rfl] at hd
      exact absurd hd.symm right.2.1
  | cons c cs ih =>
    obtain ⟨_, hc, aboveC, restC⟩ := left
    have first := same c.start
    rw [wordIn_cons, if_pos rfl] at first
    cases ds with
    | nil => exact absurd first hc
    | cons d ds =>
      obtain ⟨_, hd, aboveD, restD⟩ := right
      have second := same d.start
      rw [wordIn_cons d, if_pos rfl] at second
      -- The lower of two different first starts has a word in one run only.
      have starts : c.start = d.start := by
        by_contra hne
        rcases Nat.lt_or_gt_of_ne hne with hlt | hgt
        · rw [wordIn_of_lt (above_cons hlt aboveD)] at first
          exact hc first
        · rw [wordIn_of_lt (above_cons hgt aboveC)] at second
          exact hd second.symm
      have words : c.word = d.word := by
        rwa [wordIn_cons, if_pos starts.symm] at first
      have tails : cs = ds := by
        refine ih restC restD ?_
        intro start
        by_cases here : c.start = start
        · rw [wordIn_of_lt (here ▸ aboveC), wordIn_of_lt (here ▸ starts ▸ aboveD)]
        · have others := same start
          rwa [wordIn_cons, wordIn_cons, if_neg here, if_neg (starts ▸ here)] at others
      have heads : c = d := by
        cases c
        cases d
        cases starts
        cases words
        rfl
      rw [heads, tails]

/-- Well-formed sets with the same numbers are equal. -/
theorem eq_of_mem_iff {a b : BitSet} (wa : a.WellFormed) (wb : b.WellFormed)
    (same : ∀ n, n ∈ a ↔ n ∈ b) : a = b := by
  have words : ∀ start, wordIn a.chunks start = wordIn b.chunks start := by
    intro start
    by_cases aligned : start % 64 = 0
    · refine BitVec.eq_of_getLsbD_eq fun i hi => Bool.eq_iff_iff.mpr ?_
      exact (has_at_chunk aligned hi).symm.trans ((same _).trans (has_at_chunk aligned hi))
    · rw [wordIn_of_unaligned wa.canonical aligned, wordIn_of_unaligned wb.canonical aligned]
  have chunks := eq_of_wordIn wa.canonical wb.canonical words
  have ends : a.highBit = b.highBit := by rw [wa.highBit, wb.highBit, chunks]
  cases a
  cases b
  cases chunks
  cases ends
  rfl

/-! ### Constructions -/

/-- The end of the chunk of a bit below this limit is a word of 32 bits. -/
def bitLimit : Nat := wordBound - 64

/-- A set built by the operations. -/
inductive Construction where
  | empty
  | set (base : Construction) (bit : Nat) (value : Bool)
  | ofList (bits : List Nat)
  | inter (left right : Construction)
  | union (left right : Construction)
  | symmDiff (left right : Construction)
  | complement (base : Construction) (limit : Nat)
  | diff (left right : Construction) (limit : Nat)

namespace Construction

/-- The set in chunks. -/
def result : Construction → BitSet
  | empty => ∅
  | set base bit value => base.result.set bit value
  | ofList bits => .ofList bits
  | inter left right => left.result.inter right.result
  | union left right => left.result.union right.result
  | symmDiff left right => left.result.symmDiff right.result
  | complement base limit => base.result.complement limit
  | diff left right limit => left.result.diff right.result limit

/-- The set that the construction stands for. -/
def numbers : Construction → Finset Nat
  | empty => ∅
  | set base bit true => Insert.insert bit base.numbers
  | set base bit false => base.numbers.erase bit
  | ofList bits => bits.toFinset
  | inter left right => left.numbers ∩ right.numbers
  | union left right => left.numbers ∪ right.numbers
  | symmDiff left right => (left.numbers \ right.numbers) ∪ (right.numbers \ left.numbers)
  | complement base limit => Finset.range limit \ base.numbers
  | diff left right limit => (left.numbers \ right.numbers) ∩ Finset.range limit

/-- Bits lie below the limit, and limits are no higher. -/
def Bounded : Construction → Prop
  | empty => True
  | set base bit _ => base.Bounded ∧ bit < bitLimit
  | ofList bits => ∀ bit ∈ bits, bit < bitLimit
  | inter left right | union left right | symmDiff left right => left.Bounded ∧ right.Bounded
  | complement base limit => base.Bounded ∧ limit ≤ bitLimit
  | diff left right limit => left.Bounded ∧ right.Bounded ∧ limit ≤ bitLimit

theorem wellFormed_result (t : Construction) : t.result.WellFormed := by
  induction t with
  | empty => exact wellFormed_empty
  | set base bit value ih => exact wellFormed_set ih bit value
  | ofList bits => exact wellFormed_ofList bits
  | inter left right ihl ihr => exact wellFormed_inter ihl ihr
  | union left right ihl ihr => exact wellFormed_union ihl ihr
  | symmDiff left right ihl ihr => exact wellFormed_symmDiff ihl ihr
  | complement base limit ih => exact wellFormed_complement base.result limit
  | diff left right limit ihl ihr => exact wellFormed_diff ihl right.result limit

/-- The result has the numbers that the construction stands for. -/
theorem mem_result (t : Construction) {n : Nat} : n ∈ t.result ↔ n ∈ t.numbers := by
  induction t with
  | empty => simp [result, numbers]
  | set base bit value ih =>
    have wf := base.wellFormed_result
    cases value with
    | true =>
      rw [numbers, Finset.mem_insert, ← ih]
      exact mem_insert wf
    | false =>
      rw [numbers, Finset.mem_erase, ← ih]
      exact mem_erase wf
  | ofList bits =>
    rw [numbers, List.mem_toFinset]
    exact mem_ofList
  | inter left right ihl ihr =>
    rw [numbers, Finset.mem_inter, ← ihl, ← ihr]
    exact mem_inter left.wellFormed_result right.wellFormed_result
  | union left right ihl ihr =>
    rw [numbers, Finset.mem_union, ← ihl, ← ihr]
    exact mem_union left.wellFormed_result right.wellFormed_result
  | symmDiff left right ihl ihr =>
    rw [numbers, Finset.mem_union, Finset.mem_sdiff, Finset.mem_sdiff, ← ihl, ← ihr]
    refine (mem_symmDiff left.wellFormed_result right.wellFormed_result).trans ?_
    by_cases inLeft : n ∈ left.result <;> by_cases inRight : n ∈ right.result <;>
      simp [inLeft, inRight]
  | complement base limit ih =>
    rw [numbers, Finset.mem_sdiff, Finset.mem_range, ← ih]
    exact mem_complement
  | diff left right limit ihl ihr =>
    rw [numbers, Finset.mem_inter, Finset.mem_sdiff, Finset.mem_range, ← ihl, ← ihr, and_assoc,
      and_comm (a := ¬ n ∈ right.result)]
    exact mem_diff left.wellFormed_result

theorem lt_bitLimit {t : Construction} (bounded : t.Bounded) : ∀ n ∈ t.numbers, n < bitLimit := by
  induction t with
  | empty => simp [numbers]
  | set base bit value ih =>
    intro n hn
    cases value with
    | true =>
      rcases Finset.mem_insert.mp hn with heq | hn
      · exact heq ▸ bounded.2
      · exact ih bounded.1 n hn
    | false => exact ih bounded.1 n (Finset.mem_of_mem_erase hn)
  | ofList bits => exact fun n hn => bounded n (List.mem_toFinset.mp hn)
  | inter left right ihl ihr => exact fun n hn => ihl bounded.1 n (Finset.mem_inter.mp hn).1
  | union left right ihl ihr =>
    intro n hn
    rcases Finset.mem_union.mp hn with hn | hn
    · exact ihl bounded.1 n hn
    · exact ihr bounded.2 n hn
  | symmDiff left right ihl ihr =>
    intro n hn
    rcases Finset.mem_union.mp hn with hn | hn
    · exact ihl bounded.1 n (Finset.mem_sdiff.mp hn).1
    · exact ihr bounded.2 n (Finset.mem_sdiff.mp hn).1
  | complement base limit ih =>
    intro n hn
    have hlt := Finset.mem_range.mp (Finset.mem_sdiff.mp hn).1
    have hle := bounded.2
    omega
  | diff left right limit ihl ihr =>
    intro n hn
    exact ihl bounded.1 n (Finset.mem_sdiff.mp (Finset.mem_inter.mp hn).1).1

end Construction

/-- The set is in the one form that its numbers have, and every question about it has the
answer that the numbers give. -/
structure Refines (s : BitSet) (numbers : Finset Nat) : Prop where
  aligned : ∀ c ∈ s.chunks, c.start % 64 = 0
  ascending : s.chunks.Pairwise (fun c d => c.start < d.start)
  nonzero : ∀ c ∈ s.chunks, c.word ≠ 0
  ends : ∀ c, s.chunks.getLast? = some c → s.highBit = c.start + 64
  endsEmpty : s.chunks = [] → s.highBit = 0
  /-- No end of a chunk is beyond the words of 32 bits. -/
  fits : s.highBit ≤ bitLimit
  has : ∀ n, s.has n = true ↔ n ∈ numbers
  listed : ∀ n, n ∈ s.toList ↔ n ∈ numbers
  inOrder : s.toList.Pairwise (· < ·)
  card : s.card = numbers.card
  highest : ∀ n, s.highest? = some n ↔ n ∈ numbers ∧ ∀ m ∈ numbers, m ≤ n
  isEmpty : s.isEmpty = true ↔ numbers = ∅

theorem WellFormed.ends {s : BitSet} (wf : s.WellFormed) {c : Chunk}
    (last : s.chunks.getLast? = some c) : s.highBit = c.start + 64 := by
  rw [wf.highBit, endOf, last]

/-- When all numbers lie below a multiple of 64, so do the ends of their chunks. -/
theorem highBit_le {s : BitSet} (wf : s.WellFormed) {limit : Nat} (steps : limit % 64 = 0)
    (below : ∀ n, n ∈ s → n < limit) : s.highBit ≤ limit := by
  cases last : s.chunks.getLast? with
  | none =>
    rw [wf.highBit, endOf, last]
    exact Nat.zero_le _
  | some c =>
    have hc := List.mem_of_getLast? last
    obtain ⟨i, _, hi⟩ := exists_bit_of_ne_zero (word_ne_zero wf.canonical hc)
    have hlt := below _ (mem_of_chunk wf hc hi)
    have aligned := start_aligned wf.canonical hc
    rw [wf.ends last]
    omega

theorem refines_of_mem_iff {s : BitSet} (wf : s.WellFormed) {numbers : Finset Nat}
    (same : ∀ n, n ∈ s ↔ n ∈ numbers) (below : ∀ n ∈ numbers, n < bitLimit) : s.Refines numbers where
  aligned _ hc := start_aligned wf.canonical hc
  ascending := pairwise_start wf.canonical
  nonzero _ hc := word_ne_zero wf.canonical hc
  ends _ last := wf.ends last
  endsEmpty none := by rw [wf.highBit, none]; rfl
  fits := highBit_le wf (by decide) fun n hn => below n ((same n).mp hn)
  has := same
  listed n := (mem_toList wf).trans (same n)
  inOrder := pairwise_toList wf
  card := by
    have nodup : s.toList.Nodup := (pairwise_toList wf).imp fun hlt => Nat.ne_of_lt hlt
    have listed : s.toList.toFinset = numbers := by
      ext n
      rw [List.mem_toFinset, mem_toList wf, same n]
    rw [card_eq_length, ← List.toFinset_card_of_nodup nodup, listed]
  highest n := by
    rw [highest?_eq_some wf]
    simp only [same]
  isEmpty := by
    rw [isEmpty_iff wf, Finset.eq_empty_iff_forall_notMem]
    simp only [same]

/-- Every set that the operations build refines the finite set that they stand for; and
two such sets contain, meet and equal each other as their finite sets do. -/
theorem construction_refines {t : Construction} (bounded : t.Bounded) :
    t.result.Refines t.numbers ∧
      ∀ u : Construction,
        (t.result.covers u.result = true ↔ u.numbers ⊆ t.numbers) ∧
        (t.result.meets u.result = true ↔ (t.numbers ∩ u.numbers).Nonempty) ∧
        (t.result = u.result ↔ t.numbers = u.numbers) := by
  have wt := t.wellFormed_result
  refine ⟨refines_of_mem_iff wt (fun _ => t.mem_result) (Construction.lt_bitLimit bounded), ?_⟩
  intro u
  have wu := u.wellFormed_result
  refine ⟨?_, ?_, ?_⟩
  · rw [covers_iff wt wu]
    simp only [Construction.mem_result]
    rfl
  · rw [meets_iff wt wu]
    simp only [Construction.mem_result, Finset.Nonempty, Finset.mem_inter]
  · constructor
    · intro same
      ext n
      rw [← t.mem_result, ← u.mem_result, same]
    · intro same
      refine eq_of_mem_iff wt wu fun n => ?_
      rw [t.mem_result, u.mem_result, same]

/-- Taking the last number out of the last chunk leaves the same set, to the last word, as
never having put it in. -/
theorem construction_refines_single :
    (Construction.set (.ofList [3, 130]) 130 false).Bounded ∧
      (Construction.set (.ofList [3, 130]) 130 false).result.Refines {3} ∧
      (Construction.set (.ofList [3, 130]) 130 false).result =
        (Construction.symmDiff (.ofList [3, 200]) (.ofList [200])).result := by
  have bounded : (Construction.set (.ofList [3, 130]) 130 false).Bounded := by
    simp [Construction.Bounded, bitLimit, wordBound]
  have numbers : (Construction.set (.ofList [3, 130]) 130 false).numbers = {3} := by decide
  obtain ⟨refines, others⟩ := construction_refines bounded
  obtain ⟨_, _, equal⟩ := others (.symmDiff (.ofList [3, 200]) (.ofList [200]))
  exact ⟨bounded, numbers ▸ refines, equal.mpr (by decide)⟩

end BitSet

end CilPolicy
