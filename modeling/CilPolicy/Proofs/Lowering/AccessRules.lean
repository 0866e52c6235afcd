import CilPolicy.Lowering.AccessRules
import CilPolicy.Proofs.Access.Table
import CilPolicy.Proofs.BitSet.Operations

/-!
# What gathered access rules mark

Rules of one key are merged into one word. A word marks a permission by its bit, or by
the lack of it where the word says what is audited; so merging adds what is marked, for
grants and for denials alike.
-/

namespace CilPolicy

/-- What a change brings about for its key, it brings about whether or not the key is
there already. -/
theorem exists_mem_upsert {κ ν : Type} [DecidableEq κ] {key k : κ} {change : Option ν → ν}
    {has : ν → Prop} {new : Prop} {l : List (κ × ν)} (first : k = key → (has (change none) ↔ new))
    (merged : k = key → ∀ v, (k, v) ∈ l → (has (change (some v)) ↔ has v ∨ new)) :
    (∃ w, (k, w) ∈ upsert key change l ∧ has w) ↔ (∃ w, (k, w) ∈ l ∧ has w) ∨ (k = key ∧ new) := by
  induction l with
  | nil =>
    simp only [upsert, List.mem_singleton, Prod.mk.injEq, List.not_mem_nil, false_and, exists_false,
      false_or]
    constructor
    · rintro ⟨_, ⟨same, rfl⟩, h⟩
      exact ⟨same, (first same).mp h⟩
    · rintro ⟨same, h⟩
      exact ⟨_, ⟨same, rfl⟩, (first same).mpr h⟩
  | cons head rest ih =>
    obtain ⟨k', v⟩ := head
    have others := ih fun same w hw => merged same w (List.mem_cons_of_mem _ hw)
    rw [upsert]
    split
    · rename_i found
      subst found
      by_cases same : k = k'
      · subst same
        simp only [List.mem_cons, Prod.mk.injEq, true_and, or_and_right, exists_or, exists_eq_left,
          merged rfl v List.mem_cons_self]
        exact or_right_comm
      · simp [same]
    · simp only [List.mem_cons, or_and_right, exists_or, others, or_assoc]

/-- The keys of a changed list are the old ones and the changed one. -/
theorem key_of_mem_upsert {κ ν : Type} [DecidableEq κ] {key k : κ} {change : Option ν → ν} {w : ν}
    {l : List (κ × ν)} (h : (k, w) ∈ upsert key change l) : k = key ∨ ∃ v, (k, v) ∈ l := by
  have found : (∃ v, (k, v) ∈ l ∧ True) ∨ (k = key ∧ True) :=
    (exists_mem_upsert (by simp) (by simp)).mp ⟨w, h, trivial⟩
  rcases found with ⟨v, hv, _⟩ | ⟨heq, _⟩
  · exact Or.inr ⟨v, hv⟩
  · exact Or.inl heq

theorem mem_upsert_of_ne {κ ν : Type} [DecidableEq κ] {key k : κ} {change : Option ν → ν} {w : ν}
    {l : List (κ × ν)} (other : k ≠ key) : (k, w) ∈ upsert key change l ↔ (k, w) ∈ l := by
  have found : (∃ v, (k, v) ∈ upsert key change l ∧ v = w) ↔
      (∃ v, (k, v) ∈ l ∧ v = w) ∨ (k = key ∧ False) :=
    exists_mem_upsert (fun same => absurd same other) (fun same => absurd same other)
  simpa using found

theorem lookup_upsert_of_ne {κ ν : Type} [DecidableEq κ] {key k : κ} {change : Option ν → ν}
    {l : List (κ × ν)} (other : k ≠ key) : (upsert key change l).lookup k = l.lookup k := by
  have differ : (k == key) = false := beq_eq_false_iff_ne.mpr other
  induction l with
  | nil => simp only [upsert, List.lookup_cons, differ]
  | cons head rest ih =>
    obtain ⟨k', v⟩ := head
    rw [upsert]
    split
    · rename_i found
      subst found
      simp only [List.lookup_cons, differ]
    · simp only [List.lookup_cons, ih]

/-- The word marks the permission, as words of the kinds do. -/
def marked (kinds : RuleKinds) (word : BitVec 32) (p : Nat) : Bool :=
  if kinds = RuleKinds.auditDeny then !word.getLsbD p else word.getLsbD p

/-- The kinds of words. -/
def RuleKinds.words : List RuleKinds :=
  [allowed, auditAllow, auditDeny, transition, member, change]

/-- The kinds of words that hold permissions. -/
def RuleKinds.vectorKinds : List RuleKinds := [allowed, auditAllow, auditDeny]

/-- The kinds of words that hold a result type. -/
def RuleKinds.resultKinds : List RuleKinds := [transition, member, change]

/-- The kinds of numbers of extended permissions. -/
def RuleKinds.numberKinds : List RuleKinds :=
  [extendedAllowed, extendedAuditAllow, extendedDontAudit]

namespace RuleKinds

theorem words_subset : words ⊆ recordOrder := by
  simp [words, recordOrder]

theorem numberKinds_subset : numberKinds ⊆ recordOrder := by
  simp [numberKinds, recordOrder]

theorem vectorKinds_subset : vectorKinds ⊆ words := by
  simp [vectorKinds, words]

theorem resultKinds_subset : resultKinds ⊆ words := by
  simp [resultKinds, words]

theorem not_extended : ∀ k ∈ words, k.overlap extended = false := by
  simp only [words, List.mem_cons, List.not_mem_nil, or_false]
  rintro _ (rfl | rfl | rfl | rfl | rfl | rfl) <;> rfl

theorem extended_of_number : ∀ k ∈ numberKinds, k.overlap extended = true := by
  simp only [numberKinds, List.mem_cons, List.not_mem_nil, or_false]
  rintro _ (rfl | rfl | rfl) <;> rfl

variable {a b : RuleKinds}

theorem number_ne_word (ha : a ∈ numberKinds) (hb : b ∈ words) : a ≠ b := by
  rintro rfl
  cases (extended_of_number a ha).symm.trans (not_extended a hb)

theorem result_ne_number (ha : a ∈ resultKinds) (hb : b ∈ numberKinds) : a ≠ b :=
  (number_ne_word hb (resultKinds_subset ha)).symm

theorem result_ne_vector (ha : a ∈ resultKinds) (hb : b ∈ vectorKinds) : a ≠ b := by
  simp only [resultKinds, vectorKinds, List.mem_cons, List.not_mem_nil, or_false] at ha hb
  rcases ha with rfl | rfl | rfl <;> rcases hb with rfl | rfl | rfl <;> decide

theorem eq_of_overlap (ha : a ∈ words) (hb : b ∈ words) (overlap : a.overlap b = true) : a = b :=
  (overlap_iff (words_subset ha) (words_subset hb)).mp overlap

theorem overlap_self (ha : a ∈ recordOrder) : a.overlap a = true :=
  (overlap_iff ha ha).mpr rfl

theorem not_overlap_word (ha : a ∈ numberKinds) (hb : b ∈ words) : a.overlap b = false := by
  rw [← Bool.not_eq_true, overlap_iff (numberKinds_subset ha) (words_subset hb)]
  exact number_ne_word ha hb

end RuleKinds

namespace AccessRules

/-- Some word of the key marks the permission. -/
def Marks (r : AccessRules) (key : AccessKey) (p : Nat) : Prop :=
  ∃ word, (key, word) ∈ r.words ∧ marked key.kinds word p = true

/-- Words and numbers stand under kinds of their own. -/
structure KindsFit (r : AccessRules) : Prop where
  words : ∀ key word, (key, word) ∈ r.words → key.kinds ∈ RuleKinds.words
  extended : ∀ key numbers, (key, numbers) ∈ r.extended → key.kinds ∈ RuleKinds.numberKinds

variable {r : AccessRules} {key k : AccessKey}

theorem not_marks_empty {p : Nat} : ¬ Marks {} key p := by
  rintro ⟨_, hmem, _⟩
  cases hmem

theorem kindsFit_empty : KindsFit {} where
  words _ _ h := by cases h
  extended _ _ h := by cases h

/-- Granting permissions marks them for the key, and unmarks nothing. -/
theorem marks_grant {permissions : BitVec 32} {p : Nat} (hp : p < 32) :
    (r.grant key permissions).Marks k p ↔
      r.Marks k p ∨ (k = key ∧ permissions.getLsbD p = true) := by
  rw [Marks, grant]
  apply exists_mem_upsert
  · rintro rfl
    by_cases deny : k.kinds = RuleKinds.auditDeny
    · simp only [marked, deny, if_true, Option.getD_none, BitVec.getLsbD_and, BitVec.getLsbD_allOnes,
        BitVec.getLsbD_not, hp, decide_true, Bool.true_and, Bool.not_not]
    · simp only [marked, deny, if_false, Option.getD_none, BitVec.getLsbD_or]
      simp
  · rintro rfl word _
    by_cases deny : k.kinds = RuleKinds.auditDeny
    · simp only [marked, deny, if_true, Option.getD_some, BitVec.getLsbD_and, BitVec.getLsbD_not, hp,
        decide_true, Bool.true_and, Bool.not_and, Bool.not_not, Bool.or_eq_true]
    · simp only [marked, deny, if_false, Option.getD_some, BitVec.getLsbD_or, Bool.or_eq_true]

theorem KindsFit.grant (fit : r.KindsFit) (permissions : BitVec 32)
    (kinds : key.kinds ∈ RuleKinds.words) : (r.grant key permissions).KindsFit where
  words k word h := by
    rcases key_of_mem_upsert h with rfl | ⟨old, hold⟩
    · exact kinds
    · exact fit.words k old hold
  extended := fit.extended

theorem KindsFit.setResult (fit : r.KindsFit) (result : Nat) (kinds : key.kinds ∈ RuleKinds.words) :
    (r.setResult key result).KindsFit where
  words k word h := by
    rcases List.mem_append.mp h with h | h
    · exact fit.words k word h
    · cases List.mem_singleton.mp h
      exact kinds
  extended := fit.extended

theorem KindsFit.extend (fit : r.KindsFit) (numbers : BitSet)
    (kinds : key.kinds ∈ RuleKinds.numberKinds) : (r.extend key numbers).KindsFit where
  words := fit.words
  extended k old h := by
    rcases key_of_mem_upsert h with rfl | ⟨old, hold⟩
    · exact kinds
    · exact fit.extended k old hold

/-- A result type under a key of its own kinds marks no permission of another. -/
theorem marks_setResult {result p : Nat} (other : key.kinds ≠ k.kinds) :
    (r.setResult key result).Marks k p ↔ r.Marks k p := by
  have hne : k ≠ key := fun heq => other (heq ▸ rfl)
  simp [Marks, setResult, hne]

/-- The entries of the rules mark what the words mark. -/
theorem exists_toEntries (fit : r.KindsFit) {kinds : RuleKinds} (vector : kinds ∈ RuleKinds.vectorKinds)
    {q : AccessKey → Prop} {p : Nat} :
    (∃ e ∈ r.toEntries, e.key.kinds.overlap kinds = true ∧ q e.key ∧
        marked kinds e.datum.data p = true) ↔
      ∃ key, key.kinds = kinds ∧ q key ∧ r.Marks key p := by
  have word' := RuleKinds.vectorKinds_subset vector
  constructor
  · rintro ⟨e, he, overlap, hq, hmarked⟩
    rcases List.mem_append.mp he with he | he
    · obtain ⟨⟨key, word⟩, hword, rfl⟩ := List.mem_map.mp he
      have same := RuleKinds.eq_of_overlap (fit.words key word hword) word' overlap
      exact ⟨key, same, hq, word, hword, same ▸ hmarked⟩
    · obtain ⟨⟨key, numbers⟩, hnumbers, he⟩ := List.mem_flatMap.mp he
      obtain ⟨x, _, rfl⟩ := List.mem_map.mp he
      have apart := RuleKinds.not_overlap_word (fit.extended key numbers hnumbers) word'
      exact absurd (overlap.symm.trans apart) Bool.noConfusion
  · rintro ⟨key, rfl, hq, word, hword, hmarked⟩
    refine ⟨⟨key, .ofWord word⟩, List.mem_append.mpr (Or.inl ?_), ?_, hq, hmarked⟩
    · exact List.mem_map.mpr ⟨(key, word), hword, rfl⟩
    · exact RuleKinds.overlap_self (RuleKinds.words_subset word')

end AccessRules

end CilPolicy
