import CilPolicy.Evaluation.Category
import CilPolicy.Proofs.Evaluation.Group

/-!
# Category sets

A category expression stands for positions in the order of the categories, whatever
sets it names and whether or not those are known already: its set is well formed and
has no position outside the order.
-/

namespace CilPolicy

open BitSet

theorem mem_interval {low high n : Nat} : n ∈ interval low high ↔ low ≤ n ∧ n ≤ high := by
  rw [interval, mem_diff (wellFormed_below _), mem_below, mem_below]
  omega

theorem within_interval {whole : BitSet} {low high : Nat} (h : ∀ n ≤ high, n ∈ whole) :
    Within whole (interval low high) := by
  refine ⟨wellFormed_diff (wellFormed_below _) _ _, ?_⟩
  intro n hn
  exact h n (mem_interval.mp hn).2

theorem within_foldl_union {whole acc : BitSet} {sets : List BitSet} (h : ∀ s ∈ sets, Within whole s)
    (start : Within whole acc) : Within whole (sets.foldl BitSet.union acc) := by
  induction sets generalizing acc with
  | nil => exact start
  | cons first rest ih =>
    have step := within_union start (h first List.mem_cons_self)
    exact ih (fun s hs => h s (List.mem_cons_of_mem first hs)) step

theorem Operator.within_apply {whole : BitSet} (ww : whole.WellFormed) (op : Operator)
    {operands : List BitSet} (h : ∀ s ∈ operands, Within whole s) :
    Within whole (op.apply whole operands) := by
  unfold Operator.apply
  split
  · exact ⟨ww, fun _ hn => hn⟩
  · refine ⟨wellFormed_diff ww _ _, ?_⟩
    intro n hn
    exact ((mem_diff ww).mp hn).1
  · rename_i a b
    have ha := h a (by simp)
    have hb := h b (by simp)
    refine ⟨wellFormed_inter ha.wellFormed hb.wellFormed, ?_⟩
    intro n hn
    exact ha.inside n ((mem_inter ha.wellFormed hb.wellFormed).mp hn).1
  · rename_i a b
    exact within_union (h a (by simp)) (h b (by simp))
  · rename_i a b
    have difference := wellFormed_symmDiff (h a (by simp)).wellFormed (h b (by simp)).wellFormed
    refine ⟨wellFormed_inter difference ww, ?_⟩
    intro n hn
    exact ((mem_inter difference ww).mp hn).2
  · exact within_foldl_union h (within_empty whole)

namespace Expr

variable {whole : BitSet} {leaf : Id → Except LevelFault BitSet} {position : Id → Except LevelFault Nat}

mutual

/-- An expression has positions of the whole only, when its leaves have. -/
theorem within_categoryPositions (ww : whole.WellFormed)
    (leaves : ∀ id s, leaf id = .ok s → Within whole s)
    (placed : ∀ id n, position id = .ok n → ∀ m ≤ n, m ∈ whole) :
    (e : Expr Id) → {s : BitSet} → e.categoryPositions whole leaf position = .ok s → Within whole s
  | item id, s, h => leaves id s h
  | list members, s, h => within_categoryUnion ww leaves placed members (within_empty whole) h
  | apply op operands, s, h => by
    by_cases range : op = .range
    · subst range
      unfold categoryPositions at h
      split at h
      · obtain ⟨low, _, h⟩ := bind_eq_ok.mp h
        obtain ⟨high, hhigh, h⟩ := bind_eq_ok.mp h
        split at h
        · cases h
        · cases h
          exact within_interval (placed _ high hhigh)
      · cases h
    · rw [categoryPositions] at h
      · obtain ⟨sets, hsets, h⟩ := bind_eq_ok.mp h
        cases h
        exact op.within_apply ww (within_categoryOperands ww leaves placed operands hsets)
      · exact range

theorem within_categoryUnion (ww : whole.WellFormed)
    (leaves : ∀ id s, leaf id = .ok s → Within whole s)
    (placed : ∀ id n, position id = .ok n → ∀ m ≤ n, m ∈ whole) :
    (es : List (Expr Id)) → {acc s : BitSet} → Within whole acc →
    categoryUnion whole leaf position acc es = .ok s → Within whole s
  | [], _, _, start, h => by
    cases h
    exact start
  | e :: es, _, _, start, h => by
    obtain ⟨positions, first, h⟩ := bind_eq_ok.mp h
    have step := within_union start (within_categoryPositions ww leaves placed e first)
    exact within_categoryUnion ww leaves placed es step h

theorem within_categoryOperands (ww : whole.WellFormed)
    (leaves : ∀ id s, leaf id = .ok s → Within whole s)
    (placed : ∀ id n, position id = .ok n → ∀ m ≤ n, m ∈ whole) :
    (es : List (Expr Id)) → {sets : List BitSet} →
    categoryOperands whole leaf position es = .ok sets → ∀ s ∈ sets, Within whole s
  | [], _, h => by
    cases h
    simp
  | e :: es, _, h => by
    obtain ⟨first, hfirst, h⟩ := bind_eq_ok.mp h
    obtain ⟨others, hothers, h⟩ := bind_eq_ok.mp h
    cases h
    intro s hs
    rcases List.mem_cons.mp hs with rfl | hs
    · exact within_categoryPositions ww leaves placed e hfirst
    · exact within_categoryOperands ww leaves placed es hothers s hs

end

end Expr

/-- What is known of the category sets: all have positions of the order only. -/
def KnownWithin (whole : BitSet) (known : Array (Option BitSet)) : Prop :=
  ∀ (id : Nat) (s : BitSet), known[id]? = some (some s) → Within whole s

namespace OrderedDatabase

variable {db : OrderedDatabase} {known : Array (Option BitSet)}

theorem wellFormed_categoryWhole : db.categoryWhole.WellFormed :=
  wellFormed_below _

theorem mem_categoryWhole_of_position {id : Id} {n m : Nat} (h : db.categoryPosition id = .ok n)
    (hm : m ≤ n) : m ∈ db.categoryWhole := by
  rw [categoryPosition] at h
  split at h
  · rename_i found
    cases h
    obtain ⟨inside, _⟩ := List.idxOf?_eq_some_iff.mp found
    exact mem_below.mpr (Nat.lt_of_le_of_lt hm inside)
  · cases h

theorem within_categoryLeaf (within : KnownWithin db.categoryWhole known) {fuel : Nat} {id : Id}
    {s : BitSet} (h : db.categoryLeaf known fuel id = .ok s) : Within db.categoryWhole s := by
  induction fuel generalizing id s with
  | zero =>
    cases h
    exact within_empty _
  | succ fuel ih =>
    rw [categoryLeaf] at h
    split at h
    · split at h
      · rename_i found _
        cases h
        exact within id s (Option.join_eq_some_iff.mp found)
      · exact Expr.within_categoryPositions wellFormed_categoryWhole (fun _ _ => ih)
          (fun _ _ hn _ => mem_categoryWhole_of_position hn) _ h
      · cases h
        exact within_empty _
    · obtain ⟨n, hn, rfl⟩ := map_eq_ok.mp h
      exact within_singleton (mem_categoryWhole_of_position hn (Nat.le_refl n))

/-- The positions of a category expression are those of ordered categories. -/
theorem within_categoryBits (within : KnownWithin db.categoryWhole known) {e : Expr Id} {s : BitSet}
    (h : db.categoryBits known e = .ok s) : Within db.categoryWhole s :=
  Expr.within_categoryPositions wellFormed_categoryWhole (fun _ _ => within_categoryLeaf within)
    (fun _ _ hn _ => mem_categoryWhole_of_position hn) e h

theorem knownWithin_push {whole : BitSet} {s? : Option BitSet} (within : KnownWithin whole known)
    (last : ∀ s, s? = some s → Within whole s) : KnownWithin whole (known.push s?) := by
  intro id s h
  rw [Array.getElem?_push] at h
  split at h
  · exact last s (Option.some.inj h)
  · exact within id s h

theorem knownWithin_evaluateCategorySets (db : OrderedDatabase) :
    KnownWithin db.categoryWhole db.evaluateCategorySets.1 := by
  refine List.foldlRecOn (motive := fun state : Array (Option BitSet) × List Diagnostic =>
    KnownWithin db.categoryWhole state.1) _ _ ?_ ?_
  · intro id s h
    simp at h
  · rintro ⟨known, faults⟩ within ⟨id, d⟩ _
    dsimp only
    split
    · split
      · rename_i positions found
        refine knownWithin_push within ?_
        rintro s ⟨⟩
        exact within_categoryBits within found
      · exact knownWithin_push within (by simp)
    · exact knownWithin_push within (by simp)

theorem knownWithin_evaluate {repeats : Bool} {result : EvaluatedDatabase}
    (run : (db.evaluate repeats).Yields result) :
    KnownWithin result.categoryWhole result.categorySets := by
  rw [OrderedDatabase.evaluate] at run
  obtain ⟨_, _, run⟩ := Report.yields_bind run
  obtain ⟨_, _, run⟩ := Report.yields_bind run
  cases Report.yields_pure run
  exact knownWithin_evaluateCategorySets db

end OrderedDatabase

end CilPolicy
