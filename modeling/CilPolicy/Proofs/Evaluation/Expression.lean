import CilPolicy.Evaluation.Set
import CilPolicy.Proofs.BitSet.Operations
import Mathlib.Data.List.Forall2

/-!
# What expressions denote

The meaning of an expression is a predicate on numbers: a list is the union of its
members, and operators are those of sets within a whole. The evaluation of an
expression to a bit set has exactly the numbers of which the predicate holds.
-/

namespace CilPolicy

/-- Applies an operator to predicates. -/
def Operator.Denotes (whole : Nat → Prop) (op : Operator) (operands : List (Nat → Prop)) (n : Nat) :
    Prop :=
  match op, operands with
  | .all, _ => whole n
  | .not, [a] => whole n ∧ ¬ a n
  | .and, [a, b] => a n ∧ b n
  | .or, [a, b] => a n ∨ b n
  | .xor, [a, b] => ¬ (a n ↔ b n) ∧ whole n
  | _, operands => ∃ a ∈ operands, a n

namespace Expr

mutual

/-- The number belongs to the set that the expression stands for. -/
def Denotes (whole : Nat → Prop) (leaf : Id → Nat → Prop) : Expr Id → Nat → Prop
  | item id => leaf id
  | list members => fun n => ∃ a ∈ denotations whole leaf members, a n
  | apply op operands => op.Denotes whole (denotations whole leaf operands)

/-- The meanings of some expressions. -/
def denotations (whole : Nat → Prop) (leaf : Id → Nat → Prop) :
    List (Expr Id) → List (Nat → Prop)
  | [] => []
  | e :: es => e.Denotes whole leaf :: denotations whole leaf es

end

/-- A bit set is well formed and has the numbers that satisfy the predicate. -/
def Represents (set : BitSet) (p : Nat → Prop) : Prop :=
  set.WellFormed ∧ ∀ n, n ∈ set ↔ p n

open BitSet

theorem represents_empty : Represents ∅ (fun _ => False) :=
  ⟨wellFormed_empty, by simp⟩

theorem represents_union {a b : BitSet} {p q : Nat → Prop} (ha : Represents a p)
    (hb : Represents b q) : Represents (a.union b) (fun n => p n ∨ q n) := by
  refine ⟨wellFormed_union ha.1 hb.1, fun n => ?_⟩
  rw [mem_union ha.1 hb.1, ha.2, hb.2]

/-- The union of some sets is represented by the union of what they represent. -/
theorem represents_foldl_union {sets : List BitSet} {ps : List (Nat → Prop)}
    (h : List.Forall₂ Represents sets ps) {acc : BitSet} {p : Nat → Prop} (hacc : Represents acc p) :
    Represents (sets.foldl BitSet.union acc) (fun n => p n ∨ ∃ a ∈ ps, a n) := by
  induction h generalizing acc p with
  | nil =>
    refine ⟨hacc.1, fun n => ?_⟩
    simp [hacc.2 n]
  | cons first _ ih =>
    obtain ⟨wf, hmem⟩ := ih (represents_union hacc first)
    refine ⟨wf, fun n => (hmem n).trans ?_⟩
    simp [or_assoc]

theorem represents_apply {whole : BitSet} (ww : whole.WellFormed) (op : Operator)
    {sets : List BitSet} {ps : List (Nat → Prop)} (h : List.Forall₂ Represents sets ps) :
    Represents (op.apply whole sets) (op.Denotes (· ∈ whole) ps) := by
  have union : Represents (sets.foldl BitSet.union ∅) (fun n => ∃ a ∈ ps, a n) := by
    obtain ⟨wf, hmem⟩ := represents_foldl_union h represents_empty
    exact ⟨wf, fun n => (hmem n).trans (by simp)⟩
  cases op with
  | all => exact ⟨ww, fun _ => Iff.rfl⟩
  | not =>
    match h with
    | .cons ha .nil =>
      refine ⟨wellFormed_diff ww _ _, fun n => ?_⟩
      have high := lt_highBit ww (n := n)
      rw [Operator.apply, mem_diff ww, ha.2]
      exact ⟨fun hn => ⟨hn.1, hn.2.2⟩, fun hn => ⟨hn.1, high hn.1, hn.2⟩⟩
    | .nil => exact union
    | .cons _ (.cons _ _) => exact union
  | and =>
    match h with
    | .cons ha (.cons hb .nil) =>
      refine ⟨wellFormed_inter ha.1 hb.1, fun n => ?_⟩
      rw [Operator.apply, mem_inter ha.1 hb.1, ha.2, hb.2]
      rfl
    | .nil => exact union
    | .cons _ .nil => exact union
    | .cons _ (.cons _ (.cons _ _)) => exact union
  | or =>
    match h with
    | .cons ha (.cons hb .nil) => exact represents_union ha hb
    | .nil => exact union
    | .cons _ .nil => exact union
    | .cons _ (.cons _ (.cons _ _)) => exact union
  | xor =>
    match h with
    | .cons ha (.cons hb .nil) =>
      have ws := wellFormed_symmDiff ha.1 hb.1
      refine ⟨wellFormed_inter ws ww, fun n => ?_⟩
      rw [Operator.apply, mem_inter ws ww, mem_symmDiff ha.1 hb.1, ha.2, hb.2]
      rfl
    | .nil => exact union
    | .cons _ .nil => exact union
    | .cons _ (.cons _ (.cons _ _)) => exact union
  | range => exact union
  | eq => exact union
  | neq => exact union

mutual

/-- The evaluation of an expression has exactly the numbers that it denotes. -/
theorem represents_evaluate {whole : BitSet} (ww : whole.WellFormed) {leaf : Id → BitSet}
    (leaves : ∀ id, (leaf id).WellFormed) : (e : Expr Id) →
    Represents (e.evaluate whole leaf) (e.Denotes (· ∈ whole) fun id n => n ∈ leaf id)
  | item id => ⟨leaves id, fun _ => Iff.rfl⟩
  | list members => by
    obtain ⟨wf, hmem⟩ := represents_evaluateUnion ww leaves members represents_empty
    exact ⟨wf, fun n => (hmem n).trans (by simp [Denotes])⟩
  | apply op operands => represents_apply ww op (represents_evaluateAll ww leaves operands)

theorem represents_evaluateUnion {whole : BitSet} (ww : whole.WellFormed) {leaf : Id → BitSet}
    (leaves : ∀ id, (leaf id).WellFormed) : (es : List (Expr Id)) → {acc : BitSet} →
    {p : Nat → Prop} → Represents acc p →
    Represents (evaluateUnion whole leaf acc es) (fun n => p n ∨
      ∃ a ∈ denotations (· ∈ whole) (fun id n => n ∈ leaf id) es, a n)
  | [], _, _, hacc => ⟨hacc.1, fun n => by simp [denotations, evaluateUnion, hacc.2 n]⟩
  | e :: es, _, _, hacc => by
    have step := represents_union hacc (represents_evaluate ww leaves e)
    obtain ⟨wf, hmem⟩ := represents_evaluateUnion ww leaves es step
    exact ⟨wf, fun n => (hmem n).trans (by simp [denotations, or_assoc])⟩

theorem represents_evaluateAll {whole : BitSet} (ww : whole.WellFormed) {leaf : Id → BitSet}
    (leaves : ∀ id, (leaf id).WellFormed) : (es : List (Expr Id)) →
    List.Forall₂ Represents (evaluateAll whole leaf es)
      (denotations (· ∈ whole) (fun id n => n ∈ leaf id) es)
  | [] => .nil
  | e :: es => .cons (represents_evaluate ww leaves e) (represents_evaluateAll ww leaves es)

end

end Expr

end CilPolicy
