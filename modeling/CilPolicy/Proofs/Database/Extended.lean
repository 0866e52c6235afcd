import CilPolicy.Database.Extended
import CilPolicy.Proofs.BitSet.Refinement
import CilPolicy.Proofs.Evaluation.Category
import CilPolicy.Proofs.Text.Number

/-!
# Expressions over extended permissions

An expression over numbers stands for a set, in which complements are taken among the numbers below
the limit; and its evaluation is that set.
-/

namespace CilPolicy

open Text

namespace Expr

mutual

/-- The number is one of those that the expression stands for. -/
def HasNumber : Expr String → Nat → Prop
  | item text, n => Writes text n
  | list members, n => SomeHasNumber members n
  | apply op operands, n =>
    match op, operands with
    | .all, _ => True
    | .range, [item low, item high] => ∃ a b, Writes low a ∧ Writes high b ∧ a ≤ n ∧ n ≤ b
    | .not, [a] => ¬ a.HasNumber n
    | .and, [a, b] => a.HasNumber n ∧ b.HasNumber n
    | .or, [a, b] => a.HasNumber n ∨ b.HasNumber n
    | .xor, [a, b] => ¬ (a.HasNumber n ↔ b.HasNumber n)
    | _, _ => False

def SomeHasNumber : List (Expr String) → Nat → Prop
  | [], _ => False
  | e :: es, n => e.HasNumber n ∨ SomeHasNumber es n

end

mutual

/-- Names are numbers below the limit, ranges go up, and operators of sets have their operands. -/
def Numeric : Expr String → Prop
  | item text => ∃ n, Writes text n ∧ n < extendedLimit
  | list members => AllNumeric members
  | apply op operands =>
    match op, operands with
    | .all, _ => True
    | .range, [item low, item high] => ∃ a b, Writes low a ∧ Writes high b ∧ a ≤ b ∧ b < extendedLimit
    | .not, [a] => a.Numeric
    | .and, [a, b] | .or, [a, b] | .xor, [a, b] => a.Numeric ∧ b.Numeric
    | _, _ => False

def AllNumeric : List (Expr String) → Prop
  | [] => True
  | e :: es => e.Numeric ∧ AllNumeric es

end

variable {text low high : String} {s : BitSet} {n : Nat}

theorem extendedNumber_eq_ok : extendedNumber text = .ok n ↔ Writes text n ∧ n < extendedLimit := by
  rw [← number?_eq_some_iff, extendedNumber]
  split
  · rename_i m value
    rw [value, Option.some.injEq, Except.ok.injEq]
  · rename_i none
    rw [none]
    exact iff_of_false (fun h => by cases h) (fun h => by cases h)

theorem extendedRange_eq_ok : extendedRange low high = .ok s ↔
    ∃ a b, Writes low a ∧ Writes high b ∧ a ≤ b ∧ b < extendedLimit ∧ s = .interval a b := by
  simp only [extendedRange, bind_eq_ok, extendedNumber_eq_ok]
  constructor
  · rintro ⟨a, ⟨first, _⟩, b, ⟨last, fits⟩, run⟩
    split at run
    · cases run
    · rename_i up
      cases run
      exact ⟨a, b, first, last, Nat.le_of_not_lt up, fits, rfl⟩
  · rintro ⟨a, b, first, last, up, fits, rfl⟩
    refine ⟨a, ⟨first, Nat.lt_of_le_of_lt up fits⟩, b, ⟨last, fits⟩, ?_⟩
    rw [if_neg (Nat.not_lt.mpr up)]
    rfl

/-- The number is below the limit, and one of those that the expression stands for. -/
def Numbers (e : Expr String) (n : Nat) : Prop :=
  n < extendedLimit ∧ e.HasNumber n

/-- An operator of two sets stands for what it makes of the two operands. -/
theorem represents_both {x y : Except ExtendedFault BitSet} {op : BitSet → BitSet → BitSet} {p q r : Nat → Prop}
    (run : (do return op (← x) (← y) : Except ExtendedFault BitSet) = .ok s)
    (left : ∀ {a}, x = .ok a → Represents a p) (right : ∀ {b}, y = .ok b → Represents b q)
    (joined : ∀ a b, Represents a p → Represents b q → Represents (op a b) r) : Represents s r := by
  obtain ⟨a, first, run⟩ := bind_eq_ok.mp run
  obtain ⟨b, second, run⟩ := bind_eq_ok.mp run
  cases run
  exact joined a b (left first) (right second)

mutual

/-- A set that an expression evaluates to has exactly the numbers that the expression stands for. -/
theorem represents_extendedNumbers : (e : Expr String) → {s : BitSet} → e.extendedNumbers = .ok s →
    Represents s e.Numbers
  | item text, _, run => by
    obtain ⟨n, number, rfl⟩ := map_eq_ok.mp run
    obtain ⟨writes, fits⟩ := extendedNumber_eq_ok.mp number
    refine ⟨BitSet.wellFormed_singleton n, fun m => ?_⟩
    rw [BitSet.mem_singleton]
    constructor
    · rintro rfl
      exact ⟨fits, writes⟩
    · exact fun has => has.2.unique writes
  | list members, _, run => by
    obtain ⟨wf, same⟩ := represents_extendedUnion members represents_empty run
    exact ⟨wf, fun n => (same n).trans (by simp only [false_or, Numbers, HasNumber])⟩
  | apply op operands, s, run => by
    cases op with
    | all =>
      obtain rfl := Except.ok.inj run
      exact ⟨BitSet.wellFormed_below _, fun n => BitSet.mem_below.trans (and_iff_left trivial).symm⟩
    | range =>
      match operands, run with
      | [item low, item high], run =>
        obtain ⟨a, b, first, last, _, fits, rfl⟩ := extendedRange_eq_ok.mp run
        refine ⟨BitSet.wellFormed_diff (BitSet.wellFormed_below _) _ _, fun n => mem_interval.trans ?_⟩
        constructor
        · rintro ⟨above, below⟩
          exact ⟨Nat.lt_of_le_of_lt below fits, a, b, first, last, above, below⟩
        · rintro ⟨_, a', b', first', last', above, below⟩
          exact ⟨first'.unique first ▸ above, last'.unique last ▸ below⟩
    | not =>
      match operands, run with
      | [a], run =>
        obtain ⟨x, hx, run⟩ := bind_eq_ok.mp run
        obtain rfl := Except.ok.inj run
        obtain ⟨wf, same⟩ := represents_extendedNumbers a hx
        refine ⟨BitSet.wellFormed_complement x _, fun n => BitSet.mem_complement.trans ?_⟩
        rw [same]
        exact and_congr_right fun fits => not_congr (and_iff_right fits)
    | and =>
      match operands, run with
      | [a, b], run =>
        refine represents_both run (represents_extendedNumbers a) (represents_extendedNumbers b)
          fun x y hx hy => ⟨BitSet.wellFormed_inter hx.1 hy.1, fun n => (BitSet.mem_inter hx.1 hy.1).trans ?_⟩
        rw [hx.2, hy.2]
        exact and_and_left.symm
    | or =>
      match operands, run with
      | [a, b], run =>
        refine represents_both run (represents_extendedNumbers a) (represents_extendedNumbers b)
          fun x y hx hy => ⟨BitSet.wellFormed_union hx.1 hy.1, fun n => (BitSet.mem_union hx.1 hy.1).trans ?_⟩
        rw [hx.2, hy.2]
        exact and_or_left.symm
    | xor =>
      match operands, run with
      | [a, b], run =>
        refine represents_both run (represents_extendedNumbers a) (represents_extendedNumbers b)
          fun x y hx hy => ⟨BitSet.wellFormed_symmDiff hx.1 hy.1, fun n => (BitSet.mem_symmDiff hx.1 hy.1).trans ?_⟩
        rw [hx.2, hy.2]
        by_cases fits : n < extendedLimit
        · simp only [Numbers, HasNumber, fits, true_and]
        · simp only [Numbers, fits, false_and, iff_self, not_true]
    | eq | neq => cases run

theorem represents_extendedUnion : (es : List (Expr String)) → {acc s : BitSet} → {p : Nat → Prop} →
    Represents acc p → extendedUnion acc es = .ok s →
    Represents s fun n => p n ∨ n < extendedLimit ∧ SomeHasNumber es n
  | [], _, _, p, before, run => by
    cases run
    obtain ⟨wf, same⟩ := before
    refine ⟨wf, fun n => (same n).trans ?_⟩
    simp only [SomeHasNumber, and_false, or_false]
  | e :: es, _, _, p, before, run => by
    obtain ⟨numbers, first, run⟩ := bind_eq_ok.mp run
    have step := represents_union before (represents_extendedNumbers e first)
    obtain ⟨wf, same⟩ := represents_extendedUnion es step run
    refine ⟨wf, fun n => (same n).trans ?_⟩
    simp only [Numbers, SomeHasNumber, and_or_left, or_assoc]

end

theorem exists_both_iff {x y : Except ExtendedFault BitSet} {op : BitSet → BitSet → BitSet} :
    (∃ s, (do return op (← x) (← y) : Except ExtendedFault BitSet) = .ok s) ↔
      (∃ s, x = .ok s) ∧ ∃ s, y = .ok s := by
  simp only [bind_eq_ok]
  constructor
  · rintro ⟨_, first, hx, second, hy, _⟩
    exact ⟨⟨first, hx⟩, second, hy⟩
  · rintro ⟨⟨first, hx⟩, second, hy⟩
    exact ⟨_, first, hx, second, hy, rfl⟩

mutual

/-- An expression is evaluated exactly when it is one over numbers. -/
theorem exists_extendedNumbers_iff : (e : Expr String) → ((∃ s, e.extendedNumbers = .ok s) ↔ e.Numeric)
  | item text => by
    simp only [extendedNumbers, map_eq_ok, extendedNumber_eq_ok]
    constructor
    · rintro ⟨_, n, number, _⟩
      exact ⟨n, number⟩
    · rintro ⟨n, number⟩
      exact ⟨_, n, number, rfl⟩
  | list members => exists_extendedUnion_iff members
  | apply op operands => by
    cases op with
    | all => exact iff_of_true ⟨_, rfl⟩ trivial
    | range =>
      match operands with
      | [item low, item high] =>
        simp only [extendedNumbers, extendedRange_eq_ok, Numeric]
        constructor
        · rintro ⟨_, a, b, first, last, up, fits, _⟩
          exact ⟨a, b, first, last, up, fits⟩
        · rintro ⟨a, b, first, last, up, fits⟩
          exact ⟨_, a, b, first, last, up, fits, rfl⟩
      | [] | [_] | [list _, _] | [apply _ _, _] | [item _, list _] | [item _, apply _ _]
        | _ :: _ :: _ :: _ => simp only [extendedNumbers, Numeric, reduceCtorEq, exists_false]
    | not =>
      match operands with
      | [a] =>
        refine Iff.trans ?_ (exists_extendedNumbers_iff a)
        simp only [extendedNumbers, bind_eq_ok]
        constructor
        · rintro ⟨_, x, run, _⟩
          exact ⟨x, run⟩
        · rintro ⟨x, run⟩
          exact ⟨_, x, run, rfl⟩
      | [] | _ :: _ :: _ => exact iff_of_false (by rintro ⟨_, ⟨⟩⟩) id
    | and | or | xor =>
      match operands with
      | [a, b] =>
        exact exists_both_iff.trans (and_congr (exists_extendedNumbers_iff a) (exists_extendedNumbers_iff b))
      | [] | [_] | _ :: _ :: _ :: _ => exact iff_of_false (by rintro ⟨_, ⟨⟩⟩) id
    | eq | neq => exact iff_of_false (by rintro ⟨_, ⟨⟩⟩) id

theorem exists_extendedUnion_iff : (es : List (Expr String)) → {acc : BitSet} →
    ((∃ s, extendedUnion acc es = .ok s) ↔ AllNumeric es)
  | [], _ => iff_of_true ⟨_, rfl⟩ trivial
  | e :: es, acc => by
    rw [AllNumeric, ← exists_extendedNumbers_iff e]
    constructor
    · rintro ⟨s, run⟩
      obtain ⟨numbers, first, run⟩ := bind_eq_ok.mp run
      exact ⟨⟨numbers, first⟩, (exists_extendedUnion_iff es).mp ⟨s, run⟩⟩
    · rintro ⟨⟨numbers, first⟩, others⟩
      obtain ⟨s, run⟩ := (exists_extendedUnion_iff es).mpr others
      exact ⟨s, bind_eq_ok.mpr ⟨numbers, first, run⟩⟩

end

/-- An expression evaluates to a set exactly when it is one over numbers, and then to the set that it
stands for. -/
theorem extendedNumbers_eq_ok_iff {e : Expr String} :
    e.extendedNumbers = .ok s ↔ e.Numeric ∧ Represents s e.Numbers := by
  constructor
  · intro run
    exact ⟨(exists_extendedNumbers_iff e).mp ⟨s, run⟩, represents_extendedNumbers e run⟩
  · rintro ⟨numeric, wf, same⟩
    obtain ⟨t, run⟩ := (exists_extendedNumbers_iff e).mpr numeric
    obtain ⟨wf', same'⟩ := represents_extendedNumbers e run
    rw [run, BitSet.eq_of_mem_iff wf wf' fun n => (same n).trans (same' n).symm]

end Expr

end CilPolicy
