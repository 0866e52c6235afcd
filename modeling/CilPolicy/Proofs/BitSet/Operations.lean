import CilPolicy.Proofs.BitSet.Membership

/-!
# Operations on bit sets

What each operation does to the numbers of its operands. Unions, intersections and
differences all come from one merge of ascending runs, so they share one law: the
word of the result is the operator applied to the words of the operands.
-/

namespace CilPolicy

namespace BitSet

/-! ### Adding numbers -/

theorem mem_setIn {start : Nat} {word : BitVec 64} {cs : List Chunk} {d : Chunk}
    (h : d ∈ setIn start word cs) : d.start = start ∨ d ∈ cs := by
  induction cs with
  | nil =>
    rw [setIn, List.mem_singleton] at h
    exact Or.inl (by rw [h])
  | cons c cs ih =>
    rw [setIn] at h
    split at h
    · rcases List.mem_cons.mp h with heq | h
      · exact Or.inl (by rw [heq])
      · exact Or.inr h
    · split at h
      · rcases List.mem_cons.mp h with heq | h
        · exact Or.inl (by rw [heq])
        · exact Or.inr (List.mem_cons_of_mem c h)
      · rcases List.mem_cons.mp h with heq | h
        · exact Or.inr (heq ▸ List.mem_cons_self)
        · rcases ih h with hs | h
          · exact Or.inl hs
          · exact Or.inr (List.mem_cons_of_mem c h)

theorem or_ne_zero {w : Nat} {x : BitVec w} (y : BitVec w) (h : x ≠ 0) : x ||| y ≠ 0 := by
  intro hz
  obtain ⟨i, _, hi⟩ := exists_bit_of_ne_zero h
  have hbit := congrArg (·.getLsbD i) hz
  simp [hi] at hbit

theorem canonical_setIn {start : Nat} {word : BitVec 64} (aligned : start % 64 = 0)
    (nonzero : word ≠ 0) {cs : List Chunk} (canonical : Canonical cs) :
    Canonical (setIn start word cs) := by
  induction cs with
  | nil => exact ⟨aligned, nonzero, by simp, trivial⟩
  | cons c cs ih =>
    obtain ⟨hc, hw, above, rest⟩ := canonical
    rw [setIn]
    split
    · rename_i hlt
      refine ⟨aligned, nonzero, ?_, hc, hw, above, rest⟩
      intro d hd
      rcases List.mem_cons.mp hd with heq | hd
      · exact heq ▸ hlt
      · exact Nat.lt_trans hlt (above d hd)
    · split
      · rename_i heq
        exact ⟨aligned, or_ne_zero word hw, heq ▸ above, rest⟩
      · refine ⟨hc, hw, ?_, ih rest⟩
        intro d hd
        rcases mem_setIn hd with hs | hd
        · omega
        · exact above d hd

theorem wordIn_setIn {start : Nat} {word : BitVec 64} {cs : List Chunk}
    (canonical : Canonical cs) (place : Nat) :
    wordIn (setIn start word cs) place =
      if start = place then wordIn cs place ||| word else wordIn cs place := by
  induction cs with
  | nil => simp [setIn, wordIn_cons]
  | cons c cs ih =>
    obtain ⟨_, _, above, rest⟩ := canonical
    rw [setIn]
    split
    · rename_i hlt
      have absent : wordIn (c :: cs) start = 0 := by
        apply wordIn_of_lt
        intro d hd
        rcases List.mem_cons.mp hd with heq | hd
        · exact heq ▸ hlt
        · exact Nat.lt_trans hlt (above d hd)
      rw [wordIn_cons]
      by_cases hp : start = place
      · subst hp
        rw [if_pos rfl, if_pos rfl, absent]
        simp
      · rw [if_neg hp, if_neg hp]
    · split
      · rename_i heq
        subst heq
        rw [wordIn_cons, wordIn_cons]
        split
        · rfl
        · rfl
      · rename_i hne
        rw [wordIn_cons, wordIn_cons, ih rest]
        split
        · rw [if_neg (by omega)]
        · rfl

/-- Only the starts of the chunks decide where a run ends. -/
theorem endOf_congr {cs ds : List Chunk} (same : cs.map (·.start) = ds.map (·.start)) :
    endOf cs = endOf ds := by
  have ends : ∀ es : List Chunk, endOf es = ((es.map (·.start)).getLast?.map (· + 64)).getD 0 := by
    intro es
    rw [endOf, List.getLast?_map]
    cases es.getLast? with
    | none => rfl
    | some c => rfl
  rw [ends cs, ends ds, same]

/-- Setting bits of a chunk that is there leaves the starts as they are. -/
theorem starts_setIn {start : Nat} {word : BitVec 64} {cs : List Chunk} (canonical : Canonical cs)
    {c : Chunk} (hc : c ∈ cs) (hs : c.start = start) :
    (setIn start word cs).map (·.start) = cs.map (·.start) := by
  induction cs with
  | nil => cases hc
  | cons d cs ih =>
    obtain ⟨_, _, above, rest⟩ := canonical
    have later : c ∈ cs → d.start < start := fun hmem => hs ▸ above c hmem
    rw [setIn]
    rcases List.mem_cons.mp hc with heq | hmem
    · have same : start = d.start := by rw [← hs, heq]
      rw [if_neg (by omega), if_pos same]
      simp [same]
    · have hlt := later hmem
      rw [if_neg (by omega), if_neg (by omega)]
      simp [ih rest hmem]

theorem mask_ne_zero (bit : Nat) : mask bit ≠ 0 := by
  intro h
  have hbit := congrArg (·.getLsbD (bit % 64)) h
  have hlt : bit % 64 < 64 := Nat.mod_lt _ (by decide)
  simp [mask, hlt] at hbit

theorem getLsbD_mask (bit i : Nat) : (mask bit).getLsbD i = true ↔ i = bit % 64 := by
  have hlt : bit % 64 < 64 := Nat.mod_lt _ (by decide)
  rw [mask, BitVec.getLsbD_shiftLeft]
  simp only [BitVec.getLsbD_one, Bool.and_eq_true, decide_eq_true_eq, Bool.not_eq_true',
    decide_eq_false_iff_not]
  omega

theorem chunkStart_aligned (bit : Nat) : chunkStart bit % 64 = 0 := by
  rw [chunkStart]
  omega

theorem chunks_insert (s : BitSet) (bit : Nat) :
    (s.insert bit).chunks = setIn (chunkStart bit) (mask bit) s.chunks := by
  rw [insert]
  split
  · rfl
  · rfl

theorem wellFormed_insert {s : BitSet} (wf : s.WellFormed) (bit : Nat) :
    (s.insert bit).WellFormed := by
  have canonical := canonical_setIn (chunkStart_aligned bit) (mask_ne_zero bit) wf.canonical
  rw [insert]
  split
  · rename_i c stored
    obtain ⟨hc, hs⟩ := mem_of_chunkIn? stored
    have ends : endOf (setIn (chunkStart bit) (mask bit) s.chunks) = endOf s.chunks :=
      endOf_congr (starts_setIn wf.canonical hc hs)
    exact ⟨canonical, wf.highBit.trans ends.symm⟩
  · exact wellFormed_ofChunks canonical

theorem mem_insert {s : BitSet} (wf : s.WellFormed) {bit n : Nat} :
    n ∈ s.insert bit ↔ n = bit ∨ n ∈ s := by
  change (wordIn (s.insert bit).chunks (chunkStart n)).getLsbD (n % 64) = true
    ↔ n = bit ∨ (wordIn s.chunks (chunkStart n)).getLsbD (n % 64) = true
  rw [chunks_insert, wordIn_setIn wf.canonical]
  by_cases hs : chunkStart bit = chunkStart n
  · rw [if_pos hs, BitVec.getLsbD_or, Bool.or_eq_true, getLsbD_mask, or_comm]
    constructor
    · rintro (ho | hn)
      · exact Or.inl (eq_of_chunk hs.symm ho)
      · exact Or.inr hn
    · rintro (heq | hn)
      · exact Or.inl (heq ▸ rfl)
      · exact Or.inr hn
  · rw [if_neg hs]
    constructor
    · exact Or.inr
    · rintro (heq | hn)
      · exact absurd (heq ▸ rfl) hs
      · exact hn

theorem wellFormed_foldl_insert (bits : List Nat) {s : BitSet} (wf : s.WellFormed) :
    (bits.foldl insert s).WellFormed := by
  induction bits generalizing s with
  | nil => exact wf
  | cons b bits ih => exact ih (wellFormed_insert wf b)

theorem mem_foldl_insert (bits : List Nat) {s : BitSet} (wf : s.WellFormed) {n : Nat} :
    n ∈ bits.foldl insert s ↔ n ∈ s ∨ n ∈ bits := by
  induction bits generalizing s with
  | nil => simp
  | cons b bits ih =>
    rw [List.foldl_cons, ih (wellFormed_insert wf b), mem_insert wf, List.mem_cons]
    constructor
    · rintro ((h | h) | h)
      · exact Or.inr (Or.inl h)
      · exact Or.inl h
      · exact Or.inr (Or.inr h)
    · rintro (h | h | h)
      · exact Or.inl (Or.inr h)
      · exact Or.inl (Or.inl h)
      · exact Or.inr h

theorem wellFormed_ofList (bits : List Nat) : (ofList bits).WellFormed :=
  wellFormed_foldl_insert bits wellFormed_empty

theorem mem_ofList {bits : List Nat} {n : Nat} : n ∈ ofList bits ↔ n ∈ bits := by
  rw [ofList, mem_foldl_insert bits wellFormed_empty]
  simp

theorem wellFormed_singleton (bit : Nat) : (singleton bit).WellFormed :=
  wellFormed_insert wellFormed_empty bit

theorem mem_singleton {bit n : Nat} : n ∈ singleton bit ↔ n = bit := by
  rw [singleton, mem_insert wellFormed_empty]
  simp

/-! ### Removing numbers -/

theorem start_of_mem_clearIn {start : Nat} {word : BitVec 64} {cs : List Chunk} {d : Chunk}
    (h : d ∈ clearIn start word cs) : ∃ c ∈ cs, c.start = d.start := by
  induction cs with
  | nil => cases h
  | cons c cs ih =>
    rw [clearIn] at h
    split at h
    · rename_i same
      rcases mem_keep h with hs | h
      · exact ⟨c, List.mem_cons_self, by omega⟩
      · exact ⟨d, List.mem_cons_of_mem c h, rfl⟩
    · rcases List.mem_cons.mp h with heq | h
      · exact ⟨c, List.mem_cons_self, heq ▸ rfl⟩
      · obtain ⟨e, he, hs⟩ := ih h
        exact ⟨e, List.mem_cons_of_mem c he, hs⟩

theorem canonical_clearIn {start : Nat} {word : BitVec 64} {cs : List Chunk}
    (canonical : Canonical cs) : Canonical (clearIn start word cs) := by
  induction cs with
  | nil => trivial
  | cons c cs ih =>
    obtain ⟨hc, hw, above, rest⟩ := canonical
    rw [clearIn]
    split
    · rename_i same
      exact canonical_keep (same ▸ hc) (same ▸ above) rest
    · refine ⟨hc, hw, ?_, ih rest⟩
      intro d hd
      obtain ⟨e, he, hs⟩ := start_of_mem_clearIn hd
      have := above e he
      omega

theorem wordIn_clearIn {start : Nat} {word : BitVec 64} {cs : List Chunk}
    (canonical : Canonical cs) (place : Nat) :
    wordIn (clearIn start word cs) place =
      if start = place then wordIn cs place &&& ~~~word else wordIn cs place := by
  induction cs with
  | nil => simp [clearIn]
  | cons c cs ih =>
    obtain ⟨_, _, above, rest⟩ := canonical
    rw [clearIn]
    split
    · rename_i same
      subst same
      rw [wordIn_keep above, wordIn_cons]
      split
      · rfl
      · rfl
    · rename_i hne
      rw [wordIn_cons, wordIn_cons, ih rest]
      by_cases hp : c.start = place
      · rw [if_pos hp, if_pos hp, if_neg (by omega)]
      · rw [if_neg hp, if_neg hp]

/-- Where no chunk goes away, the starts stay as they are. -/
theorem starts_clearIn {start : Nat} {word : BitVec 64} {cs : List Chunk}
    (kept : ¬ (clearIn start word cs).length < cs.length) :
    (clearIn start word cs).map (·.start) = cs.map (·.start) := by
  induction cs with
  | nil => rfl
  | cons c cs ih =>
    rw [clearIn] at kept ⊢
    by_cases same : start = c.start
    · rw [if_pos same, keep] at kept ⊢
      by_cases zero : c.word &&& ~~~word = 0
      · rw [if_pos zero, List.length_cons] at kept
        omega
      · rw [if_neg zero]
        simp [same]
    · rw [if_neg same] at kept ⊢
      rw [List.length_cons, List.length_cons] at kept
      simp [ih (by omega)]

theorem chunks_erase (s : BitSet) (bit : Nat) :
    (s.erase bit).chunks = clearIn (chunkStart bit) (mask bit) s.chunks := by
  rw [erase]
  split
  · rfl
  · rfl

theorem wellFormed_erase {s : BitSet} (wf : s.WellFormed) (bit : Nat) :
    (s.erase bit).WellFormed := by
  have canonical : Canonical (clearIn (chunkStart bit) (mask bit) s.chunks) :=
    canonical_clearIn wf.canonical
  rw [erase]
  split
  · exact wellFormed_ofChunks canonical
  · rename_i kept
    have ends := endOf_congr (starts_clearIn kept)
    exact ⟨canonical, wf.highBit.trans ends.symm⟩

theorem mem_erase {s : BitSet} (wf : s.WellFormed) {bit n : Nat} :
    n ∈ s.erase bit ↔ n ≠ bit ∧ n ∈ s := by
  change (wordIn (s.erase bit).chunks (chunkStart n)).getLsbD (n % 64) = true
    ↔ n ≠ bit ∧ (wordIn s.chunks (chunkStart n)).getLsbD (n % 64) = true
  have hlt : n % 64 < 64 := Nat.mod_lt _ (by decide)
  rw [chunks_erase, wordIn_clearIn wf.canonical]
  by_cases hs : chunkStart bit = chunkStart n
  · have other : ¬ (mask bit).getLsbD (n % 64) = true ↔ n ≠ bit := by
      rw [getLsbD_mask]
      exact not_congr ⟨eq_of_chunk hs.symm, fun heq => heq ▸ rfl⟩
    rw [if_pos hs, BitVec.getLsbD_and, BitVec.getLsbD_not, Bool.and_eq_true, ← other, and_comm]
    simp [hlt]
  · have other : n ≠ bit := fun heq => hs (heq ▸ rfl)
    rw [if_neg hs]
    simp [other]

theorem wellFormed_set {s : BitSet} (wf : s.WellFormed) (bit : Nat) (value : Bool) :
    (s.set bit value).WellFormed := by
  cases value with
  | true => exact wellFormed_insert wf bit
  | false => exact wellFormed_erase wf bit

/-! ### Merging two runs -/

variable {op : BitVec 64 → BitVec 64 → BitVec 64}

theorem start_of_mem_mergeWith {as bs : List Chunk} {d : Chunk} (h : d ∈ mergeWith op as bs) :
    (∃ c ∈ as, c.start = d.start) ∨ ∃ c ∈ bs, c.start = d.start := by
  fun_induction mergeWith op as bs with
  | case1 => cases h
  | case2 a as ih =>
    rcases mem_keep h with hs | h
    · exact Or.inl ⟨a, List.mem_cons_self, hs.symm⟩
    · rcases ih h with ⟨c, hc, hs⟩ | ⟨c, hc, _⟩
      · exact Or.inl ⟨c, List.mem_cons_of_mem a hc, hs⟩
      · cases hc
  | case3 b bs ih =>
    rcases mem_keep h with hs | h
    · exact Or.inr ⟨b, List.mem_cons_self, hs.symm⟩
    · rcases ih h with ⟨c, hc, _⟩ | ⟨c, hc, hs⟩
      · cases hc
      · exact Or.inr ⟨c, List.mem_cons_of_mem b hc, hs⟩
  | case4 a as b bs heq ih =>
    rcases mem_keep h with hs | h
    · exact Or.inl ⟨a, List.mem_cons_self, hs.symm⟩
    · rcases ih h with ⟨c, hc, hs⟩ | ⟨c, hc, hs⟩
      · exact Or.inl ⟨c, List.mem_cons_of_mem a hc, hs⟩
      · exact Or.inr ⟨c, List.mem_cons_of_mem b hc, hs⟩
  | case5 a as b bs hne hlt ih =>
    rcases mem_keep h with hs | h
    · exact Or.inl ⟨a, List.mem_cons_self, hs.symm⟩
    · rcases ih h with ⟨c, hc, hs⟩ | hb
      · exact Or.inl ⟨c, List.mem_cons_of_mem a hc, hs⟩
      · exact Or.inr hb
  | case6 a as b bs hne hlt ih =>
    rcases mem_keep h with hs | h
    · exact Or.inr ⟨b, List.mem_cons_self, hs.symm⟩
    · rcases ih h with ha | ⟨c, hc, hs⟩
      · exact Or.inl ha
      · exact Or.inr ⟨c, List.mem_cons_of_mem b hc, hs⟩

/-- Everything in a merge lies above a place that both runs lie above. -/
theorem mergeWith_above {as bs : List Chunk} {start : Nat} (left : ∀ d ∈ as, start < d.start)
    (right : ∀ d ∈ bs, start < d.start) : ∀ d ∈ mergeWith op as bs, start < d.start := by
  intro d hd
  rcases start_of_mem_mergeWith hd with ⟨c, hc, hs⟩ | ⟨c, hc, hs⟩
  · exact hs ▸ left c hc
  · exact hs ▸ right c hc

theorem above_cons {c : Chunk} {cs : List Chunk} {start : Nat} (hlt : start < c.start)
    (above : ∀ d ∈ cs, c.start < d.start) : ∀ d ∈ c :: cs, start < d.start := by
  intro d hd
  rcases List.mem_cons.mp hd with heq | hd
  · exact heq ▸ hlt
  · exact Nat.lt_trans hlt (above d hd)

theorem canonical_mergeWith {as bs : List Chunk} (left : Canonical as) (right : Canonical bs) :
    Canonical (mergeWith op as bs) := by
  fun_induction mergeWith op as bs with
  | case1 => trivial
  | case2 a as ih =>
    obtain ⟨ha, _, above, rest⟩ := left
    exact canonical_keep ha (mergeWith_above above (by simp)) (ih rest trivial)
  | case3 b bs ih =>
    obtain ⟨hb, _, above, rest⟩ := right
    exact canonical_keep hb (mergeWith_above (by simp) above) (ih trivial rest)
  | case4 a as b bs heq ih =>
    obtain ⟨ha, _, aboveA, restA⟩ := left
    obtain ⟨_, _, aboveB, restB⟩ := right
    exact canonical_keep ha (mergeWith_above aboveA (heq ▸ aboveB)) (ih restA restB)
  | case5 a as b bs hne hlt ih =>
    obtain ⟨ha, _, aboveA, restA⟩ := left
    exact canonical_keep ha (mergeWith_above aboveA (above_cons hlt right.2.2.1)) (ih restA right)
  | case6 a as b bs hne hlt ih =>
    obtain ⟨hb, _, aboveB, restB⟩ := right
    exact canonical_keep hb
      (mergeWith_above (above_cons (by omega) left.2.2.1) aboveB) (ih left restB)

/-- The word of a merge is the operator applied to the words of the two runs. -/
theorem wordIn_mergeWith (zero : op 0 0 = 0) {as bs : List Chunk} (left : Canonical as)
    (right : Canonical bs) (place : Nat) :
    wordIn (mergeWith op as bs) place = op (wordIn as place) (wordIn bs place) := by
  fun_induction mergeWith op as bs with
  | case1 => simp only [wordIn_nil, zero]
  | case2 a as ih =>
    obtain ⟨_, _, above, rest⟩ := left
    rw [wordIn_keep (mergeWith_above above (by simp)), wordIn_cons, ih rest trivial]
    split <;> rfl
  | case3 b bs ih =>
    obtain ⟨_, _, above, rest⟩ := right
    rw [wordIn_keep (mergeWith_above (by simp) above), wordIn_cons, ih trivial rest]
    split <;> rfl
  | case4 a as b bs heq ih =>
    obtain ⟨_, _, aboveA, restA⟩ := left
    obtain ⟨_, _, aboveB, restB⟩ := right
    rw [wordIn_keep (mergeWith_above aboveA (heq ▸ aboveB)), wordIn_cons, wordIn_cons,
      ih restA restB, ← heq]
    split <;> rfl
  | case5 a as b bs hne hlt ih =>
    obtain ⟨_, _, aboveA, restA⟩ := left
    have aboveB := above_cons hlt right.2.2.1
    rw [wordIn_keep (mergeWith_above aboveA aboveB), wordIn_cons a as, ih restA right]
    split
    · rename_i hp
      rw [← hp, wordIn_of_lt aboveB]
    · rfl
  | case6 a as b bs hne hlt ih =>
    obtain ⟨_, _, aboveB, restB⟩ := right
    have hba : b.start < a.start := by omega
    have aboveA := above_cons hba left.2.2.1
    rw [wordIn_keep (mergeWith_above aboveA aboveB), wordIn_cons b bs, ih left restB]
    split
    · rename_i hp
      rw [← hp, wordIn_of_lt aboveA]
    · rfl

/-- Operators that work bit by bit give sets that are described bit by bit. -/
theorem mem_mergeWith (zero : op 0 0 = 0) {a b : BitSet} (wa : a.WellFormed) (wb : b.WellFormed)
    (n : Nat) : n ∈ ofChunks (mergeWith op a.chunks b.chunks) ↔
      (op (a.wordAt (chunkStart n)) (b.wordAt (chunkStart n))).getLsbD (n % 64) = true := by
  change (wordIn (mergeWith op a.chunks b.chunks) (chunkStart n)).getLsbD (n % 64) = true ↔ _
  rw [wordIn_mergeWith zero wa.canonical wb.canonical]
  rfl

theorem wellFormed_inter {a b : BitSet} (wa : a.WellFormed) (wb : b.WellFormed) :
    (a.inter b).WellFormed :=
  wellFormed_ofChunks (canonical_mergeWith wa.canonical wb.canonical)

theorem wellFormed_union {a b : BitSet} (wa : a.WellFormed) (wb : b.WellFormed) :
    (a.union b).WellFormed :=
  wellFormed_ofChunks (canonical_mergeWith wa.canonical wb.canonical)

theorem wellFormed_symmDiff {a b : BitSet} (wa : a.WellFormed) (wb : b.WellFormed) :
    (a.symmDiff b).WellFormed :=
  wellFormed_ofChunks (canonical_mergeWith wa.canonical wb.canonical)

theorem mem_inter {a b : BitSet} (wa : a.WellFormed) (wb : b.WellFormed) {n : Nat} :
    n ∈ a.inter b ↔ n ∈ a ∧ n ∈ b := by
  rw [inter, mem_mergeWith (by simp) wa wb, BitVec.getLsbD_and, Bool.and_eq_true]
  rfl

theorem mem_union {a b : BitSet} (wa : a.WellFormed) (wb : b.WellFormed) {n : Nat} :
    n ∈ a.union b ↔ n ∈ a ∨ n ∈ b := by
  rw [union, mem_mergeWith (by simp) wa wb, BitVec.getLsbD_or, Bool.or_eq_true]
  rfl

theorem mem_symmDiff {a b : BitSet} (wa : a.WellFormed) (wb : b.WellFormed) {n : Nat} :
    n ∈ a.symmDiff b ↔ ¬ (n ∈ a ↔ n ∈ b) := by
  rw [symmDiff, mem_mergeWith (by simp) wa wb, BitVec.getLsbD_xor]
  change (a.has n ^^ b.has n) = true ↔ ¬ (a.has n = true ↔ b.has n = true)
  cases a.has n <;> simp

/-! ### Complements -/

theorem getLsbD_maskBelow (limit i : Nat) :
    (maskBelow limit).getLsbD i = true ↔ i < 64 ∧ i < limit := by
  rw [maskBelow]
  split
  · simp only [BitVec.getLsbD_allOnes, decide_eq_true_eq]
    omega
  · rw [BitVec.getLsbD_ofNat, show Nat.pow 2 limit = 2 ^ limit from rfl, Nat.testBit_two_pow_sub_one]
    simp

/-- The chunks of a complement from some word on. -/
def complementFrom (s : BitSet) (limit : Nat) (places : List Nat) : List Chunk :=
  places.foldr (fun i rest =>
    keep (64 * i) (~~~ s.wordAt (64 * i) &&& maskBelow (limit - 64 * i)) rest) []

theorem mem_complementFrom {s : BitSet} {limit : Nat} {places : List Nat} {d : Chunk}
    (h : d ∈ complementFrom s limit places) : ∃ i ∈ places, d.start = 64 * i := by
  induction places with
  | nil => cases h
  | cons i places ih =>
    rcases mem_keep h with hs | h
    · exact ⟨i, List.mem_cons_self, hs⟩
    · obtain ⟨j, hj, hs⟩ := ih h
      exact ⟨j, List.mem_cons_of_mem i hj, hs⟩

theorem complementFrom_above {s : BitSet} {limit i : Nat} {places : List Nat}
    (ascending : ∀ j ∈ places, i < j) :
    ∀ d ∈ complementFrom s limit places, 64 * i < d.start := by
  intro d hd
  obtain ⟨j, hj, hs⟩ := mem_complementFrom hd
  have := ascending j hj
  omega

theorem canonical_complementFrom {s : BitSet} {limit : Nat} {places : List Nat}
    (ascending : places.Pairwise (· < ·)) : Canonical (complementFrom s limit places) := by
  induction places with
  | nil => trivial
  | cons i places ih =>
    obtain ⟨above, rest⟩ := List.pairwise_cons.mp ascending
    exact canonical_keep (by omega) (complementFrom_above above) (ih rest)

theorem wordIn_complementFrom {s : BitSet} {limit : Nat} {places : List Nat}
    (ascending : places.Pairwise (· < ·)) (k : Nat) :
    wordIn (complementFrom s limit places) (64 * k) =
      if k ∈ places then ~~~ s.wordAt (64 * k) &&& maskBelow (limit - 64 * k) else 0 := by
  induction places with
  | nil => rfl
  | cons i places ih =>
    obtain ⟨above, rest⟩ := List.pairwise_cons.mp ascending
    have higher : ∀ d ∈ complementFrom s limit places, 64 * i < d.start := complementFrom_above above
    refine (wordIn_keep higher _ _).trans ?_
    rw [ih rest]
    by_cases hk : i = k
    · subst hk
      simp
    · rw [if_neg (by omega)]
      simp [Ne.symm hk]

theorem wellFormed_complement (s : BitSet) (limit : Nat) : (s.complement limit).WellFormed :=
  wellFormed_ofChunks (canonical_complementFrom List.pairwise_lt_range)

theorem mem_complement {s : BitSet} {limit n : Nat} :
    n ∈ s.complement limit ↔ n < limit ∧ ¬ n ∈ s := by
  have hstart : chunkStart n = 64 * (n / 64) := by
    rw [chunkStart]
    omega
  change (wordIn (complementFrom s limit (List.range ((limit + 63) / 64))) (chunkStart n)).getLsbD
    (n % 64) = true ↔ n < limit ∧ ¬ (s.wordAt (chunkStart n)).getLsbD (n % 64) = true
  have hlt : n % 64 < 64 := Nat.mod_lt _ (by decide)
  rw [hstart, wordIn_complementFrom List.pairwise_lt_range]
  split
  · rename_i hmem
    rw [BitVec.getLsbD_and, Bool.and_eq_true, getLsbD_maskBelow, BitVec.getLsbD_not]
    simp only [hlt, decide_true, Bool.true_and, Bool.not_eq_true', Bool.not_eq_true]
    constructor
    · rintro ⟨hs, _, hn⟩
      exact ⟨by omega, hs⟩
    · rintro ⟨hn, hs⟩
      exact ⟨hs, trivial, by omega⟩
  · rename_i hmem
    have hge : (limit + 63) / 64 ≤ n / 64 := by
      have := mt List.mem_range.mpr hmem
      omega
    simp only [BitVec.ofNat_eq_ofNat, BitVec.getLsbD_zero, Bool.false_eq_true, false_iff, not_and]
    intro hn
    omega

theorem wellFormed_diff {a : BitSet} (wa : a.WellFormed) (b : BitSet) (limit : Nat) :
    (a.diff b limit).WellFormed :=
  wellFormed_inter wa (wellFormed_complement b limit)

theorem mem_diff {a b : BitSet} (wa : a.WellFormed) {limit n : Nat} :
    n ∈ a.diff b limit ↔ n ∈ a ∧ n < limit ∧ ¬ n ∈ b := by
  rw [diff, mem_inter wa (wellFormed_complement b limit), mem_complement]

theorem wellFormed_below (limit : Nat) : (below limit).WellFormed :=
  wellFormed_complement ∅ limit

theorem mem_below {limit n : Nat} : n ∈ below limit ↔ n < limit := by
  rw [below, mem_complement]
  simp

theorem start_le_highBit {cs : List Chunk} (canonical : Canonical cs) {c : Chunk} (hc : c ∈ cs) :
    c.start + 64 ≤ endOf cs := by
  induction cs generalizing c with
  | nil => cases hc
  | cons d cs ih =>
    obtain ⟨_, _, above, rest⟩ := canonical
    cases cs with
    | nil =>
      rw [List.mem_singleton] at hc
      simp [endOf, hc]
    | cons e cs =>
      have hlast : endOf (d :: e :: cs) = endOf (e :: cs) := by
        simp [endOf, List.getLast?_cons_cons]
      rw [hlast]
      rcases List.mem_cons.mp hc with heq | hc
      · have hd := above e List.mem_cons_self
        have he := ih rest List.mem_cons_self
        rw [heq]
        omega
      · exact ih rest hc

/-- Every number of a set is below its high bit. -/
theorem lt_highBit {s : BitSet} (wf : s.WellFormed) {n : Nat} (h : n ∈ s) : n < s.highBit := by
  obtain ⟨c, hc, hbits⟩ := List.mem_flatMap.mp (mem_toList_of_mem h)
  obtain ⟨offset, ho, rfl⟩ := List.mem_map.mp hbits
  have hlt := List.mem_range.mp (List.mem_filter.mp ho).1
  have := start_le_highBit wf.canonical hc
  rw [wf.highBit]
  omega

/-! ### Comparing sets -/

/-- Walking two runs side by side finds the chunks of one start that share a bit. -/
theorem meetIn_iff {as bs : List Chunk} (left : Canonical as) (right : Canonical bs) :
    meetIn as bs = true ↔
      ∃ a ∈ as, ∃ b ∈ bs, a.start = b.start ∧ a.word &&& b.word ≠ 0 := by
  fun_induction meetIn as bs with
  | case1 => simp
  | case2 => simp
  | case3 a as b bs hlt ih =>
    have above := above_cons hlt right.2.2.1
    rw [ih left.2.2.2 right]
    constructor
    · rintro ⟨x, hx, y, hy, shared⟩
      exact ⟨x, List.mem_cons_of_mem a hx, y, hy, shared⟩
    · rintro ⟨x, hx, y, hy, same, bits⟩
      rcases List.mem_cons.mp hx with heq | hx
      · have := above y hy
        subst heq
        omega
      · exact ⟨x, hx, y, hy, same, bits⟩
  | case4 a as b bs hle hlt ih =>
    have above := above_cons hlt left.2.2.1
    rw [ih left right.2.2.2]
    constructor
    · rintro ⟨x, hx, y, hy, shared⟩
      exact ⟨x, hx, y, List.mem_cons_of_mem b hy, shared⟩
    · rintro ⟨x, hx, y, hy, same, bits⟩
      rcases List.mem_cons.mp hy with heq | hy
      · have := above x hx
        subst heq
        omega
      · exact ⟨x, hx, y, hy, same, bits⟩
  | case5 a as b bs hle hge ih =>
    have same : a.start = b.start := by omega
    rw [Bool.or_eq_true, bne_iff_ne, ih left.2.2.2 right.2.2.2]
    constructor
    · rintro (bits | ⟨x, hx, y, hy, shared⟩)
      · exact ⟨a, List.mem_cons_self, b, List.mem_cons_self, same, bits⟩
      · exact ⟨x, List.mem_cons_of_mem a hx, y, List.mem_cons_of_mem b hy, shared⟩
    · rintro ⟨x, hx, y, hy, starts, bits⟩
      rcases List.mem_cons.mp hx with hxa | hx
      · rcases List.mem_cons.mp hy with hyb | hy
        · subst hxa hyb
          exact Or.inl bits
        · have := right.2.2.1 y hy
          subst hxa
          omega
      · rcases List.mem_cons.mp hy with hyb | hy
        · have := left.2.2.1 x hx
          subst hyb
          omega
        · exact Or.inr ⟨x, hx, y, hy, starts, bits⟩

theorem meets_iff {a b : BitSet} (wa : a.WellFormed) (wb : b.WellFormed) :
    a.meets b = true ↔ ∃ n, n ∈ a ∧ n ∈ b := by
  rw [meets, meetIn_iff wa.canonical wb.canonical]
  constructor
  · rintro ⟨c, hc, d, hd, same, bits⟩
    obtain ⟨i, hlt, hi⟩ := exists_bit_of_ne_zero bits
    rw [BitVec.getLsbD_and, Bool.and_eq_true] at hi
    exact ⟨c.start + i, mem_of_chunk wa hc hi.1, same ▸ mem_of_chunk wb hd hi.2⟩
  · rintro ⟨n, ha, hb⟩
    obtain ⟨c, hc, hs, hi⟩ := exists_chunk_of_mem ha
    obtain ⟨d, hd, hs', hi'⟩ := exists_chunk_of_mem hb
    refine ⟨c, hc, d, hd, hs.trans hs'.symm, ?_⟩
    intro zero
    have hbit := congrArg (·.getLsbD (n % 64)) zero
    simp [hi, hi'] at hbit

theorem endOf_aligned {cs : List Chunk} (canonical : Canonical cs) : endOf cs % 64 = 0 := by
  rw [endOf]
  split
  · rename_i c last
    have := start_aligned canonical (List.mem_of_getLast? last)
    omega
  · rfl

/-- From the first chunk on, every chunk takes 64 of the numbers before the end. -/
theorem start_add_length_le_endOf {c : Chunk} {cs : List Chunk} (canonical : Canonical (c :: cs)) :
    c.start + 64 * (c :: cs).length ≤ endOf (c :: cs) := by
  induction cs generalizing c with
  | nil => exact Nat.le_refl _
  | cons d cs ih =>
    obtain ⟨aligned, _, above, others⟩ := canonical
    have step := above d List.mem_cons_self
    have next := others.1
    have last : endOf (c :: d :: cs) = endOf (d :: cs) := by
      rw [endOf, endOf, List.getLast?_cons_cons]
    have rest := ih others
    rw [List.length_cons] at rest
    rw [last, List.length_cons, List.length_cons]
    omega

theorem length_le_endOf {cs : List Chunk} (canonical : Canonical cs) : 64 * cs.length ≤ endOf cs := by
  cases cs with
  | nil => exact Nat.zero_le _
  | cons c cs =>
    have := start_add_length_le_endOf canonical
    omega

/-- A set that ends later than another has a bit that the other has not. -/
theorem exists_mem_of_highBit_lt {a b : BitSet} (wa : a.WellFormed) (wb : b.WellFormed)
    (hlt : a.highBit < b.highBit) : ∃ n, n ∈ b ∧ ¬ n ∈ a := by
  rw [wa.highBit, wb.highBit] at hlt
  cases last : b.chunks.getLast? with
  | none =>
    rw [show endOf b.chunks = 0 by simp [endOf, last]] at hlt
    omega
  | some c =>
    have hc := List.mem_of_getLast? last
    have ends : endOf b.chunks = c.start + 64 := by simp [endOf, last]
    have startAligned := start_aligned wb.canonical hc
    have endAligned := endOf_aligned wa.canonical
    obtain ⟨i, _, hi⟩ := exists_bit_of_ne_zero (word_ne_zero wb.canonical hc)
    refine ⟨c.start + i, mem_of_chunk wb hc hi, ?_⟩
    intro inside
    have below := lt_highBit wa inside
    rw [wa.highBit] at below
    omega

theorem covers_iff {a b : BitSet} (wa : a.WellFormed) (wb : b.WellFormed) :
    a.covers b = true ↔ ∀ n, n ∈ b → n ∈ a := by
  rw [covers]
  split
  · rename_i hlt
    obtain ⟨n, inside, outside⟩ := exists_mem_of_highBit_lt wa wb hlt
    simp only [Bool.false_eq_true, false_iff]
    exact fun sub => outside (sub n inside)
  · rw [List.all_eq_true]
    constructor
    · intro all n hb
      obtain ⟨c, hc, hs, hi⟩ := exists_chunk_of_mem hb
      have checked := all c hc
      split at checked
      · rename_i d stored
        obtain ⟨hd, same⟩ := mem_of_chunkIn? stored
        have hlt : n % 64 < 64 := Nat.mod_lt _ (by decide)
        have hbit := congrArg (·.getLsbD (n % 64)) (beq_iff_eq.mp checked)
        have inside : d.word.getLsbD (n % 64) = true := by simpa [hi, hlt] using hbit
        have member := mem_of_chunk wa hd inside
        rwa [same, hs, chunkStart, show n / 64 * 64 + n % 64 = n by omega] at member
      · cases checked
    · intro sub c hc
      obtain ⟨i, hlt, hi⟩ := exists_bit_of_ne_zero (word_ne_zero wb.canonical hc)
      have stored : ∀ i, i < 64 → c.word.getLsbD i = true →
          (wordIn a.chunks c.start).getLsbD i = true := fun i hlt hi =>
        (has_at_chunk (start_aligned wb.canonical hc) hlt).mp (sub _ (mem_of_chunk wb hc hi))
      have hword := stored i hlt hi
      rw [wordIn] at hword stored
      split at hword
      · rename_i d found
        simp only [found] at stored ⊢
        refine beq_iff_eq.mpr (BitVec.eq_of_getLsbD_eq ?_)
        intro j hj
        cases hset : c.word.getLsbD j with
        | false => simp [hset]
        | true => simp [hset, stored j hj hset]
      · simp at hword

end BitSet

end CilPolicy
