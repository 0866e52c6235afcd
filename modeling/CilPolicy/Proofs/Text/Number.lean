import CilPolicy.Text.Number
import Mathlib.Data.Nat.Digits.Lemmas
import Mathlib.Tactic.IntervalCases

/-!
# The numbers that texts write

A numeral is some digits of its base, perhaps behind a plus sign. A text writes a number in decimal,
or in hexadecimal behind its mark, and it is read exactly as the number that it writes.
-/

namespace CilPolicy

namespace Text

/-- The character is the digit, in either case. -/
def IsDigit (c : Char) (d : Nat) : Prop :=
  c = Nat.digitChar d ∨ c = (Nat.digitChar d).toUpper

/-- The characters are digits of the base, the most significant first, and make up the number. -/
def Spells (base : Nat) (chars : List Char) (n : Nat) : Prop :=
  ∃ digits, List.Forall₂ IsDigit chars digits ∧ (∀ d ∈ digits, d < base) ∧ n = Nat.ofDigits base digits.reverse

/-- There are digits, perhaps behind a plus sign. -/
def Numeral (base : Nat) (chars : List Char) (n : Nat) : Prop :=
  ∃ digits, digits ≠ [] ∧ (chars = digits ∨ chars = '+' :: digits) ∧ Spells base digits n

/-- The text writes the number in decimal, or in hexadecimal behind its mark. -/
def Writes (text : String) (n : Nat) : Prop :=
  Numeral 10 text.toList n ∨
    ∃ rest, (text.toList = '0' :: 'x' :: rest ∨ text.toList = '0' :: 'X' :: rest) ∧ Numeral 16 rest n

instance (c : Char) (d : Nat) : Decidable (IsDigit c d) :=
  inferInstanceAs (Decidable (_ ∨ _))

variable {base acc limit m n d : Nat} {c : Char} {chars : List Char} {text : String}

/-- The characters of one range are digits when all those listed are. -/
theorem isDigit_of_range (first count value : Nat)
    (listed : ∀ i < count, IsDigit (Char.ofNat (first + i)) (i + value)) (low : first ≤ c.toNat)
    (high : c.toNat < first + count) : IsDigit c (c.toNat - first + value) := by
  obtain ⟨i, index⟩ := Nat.exists_eq_add_of_le low
  have here := listed i (by omega)
  rw [← index, Char.ofNat_toNat] at here
  rwa [index, Nat.add_sub_cancel_left]

theorem digit?_eq_some_iff (small : base ≤ 16) : digit? base c = some d ↔ IsDigit c d ∧ d < base := by
  constructor
  · intro run
    obtain ⟨fits, value⟩ := (ite_eq_iff.mp run).resolve_right fun other => by cases other.2
    have value := Option.some.inj value
    rw [value] at fits
    refine ⟨?_, fits⟩
    split at value
    · rename_i range
      exact value ▸ isDigit_of_range 48 10 0 (by decide) range.1 (Nat.lt_succ_of_le range.2)
    split at value
    · rename_i range
      exact value ▸ isDigit_of_range 97 6 10 (by decide) range.1 (Nat.lt_succ_of_le range.2)
    split at value
    · rename_i range
      exact value ▸ isDigit_of_range 65 6 10 (by decide) range.1 (Nat.lt_succ_of_le range.2)
    · omega
  · rintro ⟨digit, fits⟩
    have few : d < 16 := by omega
    rcases digit with rfl | rfl
    · interval_cases d <;> exact if_pos fits
    · interval_cases d <;> exact if_pos fits

theorem spells_nil : Spells base [] n ↔ n = 0 := by
  constructor
  · rintro ⟨_, ⟨⟩, _, value⟩
    exact value
  · rintro rfl
    exact ⟨[], .nil, by simp, rfl⟩

theorem digits?_eq_some_iff (small : base ≤ 16) :
    digits? base acc chars = some n ↔ ∃ low, Spells base chars low ∧ n = acc * base ^ chars.length + low := by
  induction chars generalizing acc with
  | nil => simp [digits?, spells_nil, eq_comm]
  | cons c chars ih =>
    have step : ∀ (d : Nat) (ds : List Nat), ds.length = chars.length →
        acc * base ^ (chars.length + 1) + Nat.ofDigits base (d :: ds).reverse =
          (base * acc + d) * base ^ chars.length + Nat.ofDigits base ds.reverse := by
      intro d ds length
      rw [List.reverse_cons, Nat.ofDigits_append, List.length_reverse, length, Nat.ofDigits_singleton,
        Nat.pow_succ]
      ring
    rw [digits?, Option.bind_eq_some_iff]
    constructor
    · rintro ⟨d, digit, run⟩
      obtain ⟨isDigit, fits⟩ := (digit?_eq_some_iff small).mp digit
      obtain ⟨_, ⟨ds, digits, below, rfl⟩, rfl⟩ := ih.mp run
      refine ⟨_, ⟨d :: ds, .cons isDigit digits, List.forall_mem_cons.mpr ⟨fits, below⟩, rfl⟩, ?_⟩
      exact (step d ds digits.length_eq.symm).symm
    · rintro ⟨_, ⟨ds, digits, below, rfl⟩, rfl⟩
      cases digits with
      | cons isDigit digits =>
        rename_i d ds
        obtain ⟨fits, below⟩ := List.forall_mem_cons.mp below
        refine ⟨d, (digit?_eq_some_iff small).mpr ⟨isDigit, fits⟩, ih.mpr ⟨_, ⟨ds, digits, below, rfl⟩, ?_⟩⟩
        exact step d ds digits.length_eq.symm

theorem not_spells_plus (small : base ≤ 16) : ¬ Spells base ('+' :: chars) n := by
  rintro ⟨_, digits, below, _⟩
  cases digits with
  | cons isDigit _ =>
    have none : ∀ d < 16, ¬ IsDigit '+' d := by decide
    exact none _ (Nat.lt_of_lt_of_le (below _ List.mem_cons_self) small) isDigit

theorem unsigned?_eq_some_iff (small : base ≤ 16) : unsigned? base chars = some n ↔ Numeral base chars n := by
  have read : ∀ digits : List Char, (if digits.isEmpty then none else digits? base 0 digits) = some n ↔
      digits ≠ [] ∧ Spells base digits n := by
    intro digits
    simp only [List.isEmpty_iff, Option.ite_none_left_eq_some, digits?_eq_some_iff small, Nat.zero_mul,
      Nat.zero_add, exists_eq_right', ne_eq]
  unfold unsigned?
  split
  · rename_i digits
    rw [read]
    constructor
    · rintro ⟨some, spells⟩
      exact ⟨digits, some, .inr rfl, spells⟩
    · rintro ⟨_, some, rfl | same, spells⟩
      · exact absurd spells (not_spells_plus small)
      · cases same
        exact ⟨some, spells⟩
  · rename_i unsigned
    rw [read]
    constructor
    · rintro ⟨some, spells⟩
      exact ⟨_, some, .inl rfl, spells⟩
    · rintro ⟨digits, some, rfl | rfl, spells⟩
      · exact ⟨some, spells⟩
      · exact absurd rfl (unsigned digits)

/-- A text is read as a number exactly when it writes the number and the number is below the limit. -/
theorem number?_eq_some_iff : number? limit text = some n ↔ Writes text n ∧ n < limit := by
  -- The mark of hexadecimal numbers has a letter that is no decimal digit.
  have noDecimal : ∀ x ∈ ['x', 'X'], ∀ rest, ¬ Numeral 10 ('0' :: x :: rest) n := by
    rintro x hx rest ⟨_, _, rfl | ⟨⟨⟩⟩, _, digits, below, _⟩
    rcases digits with _ | ⟨_, _ | ⟨isDigit, _⟩⟩
    have lower : ∀ d < 10, ¬ IsDigit 'x' d := by decide
    have upper : ∀ d < 10, ¬ IsDigit 'X' d := by decide
    have few := below _ (List.mem_cons_of_mem _ List.mem_cons_self)
    rcases List.mem_pair.mp hx with rfl | rfl
    · exact lower _ few isDigit
    · exact upper _ few isDigit
  have decimal : (10 : Nat) ≤ 16 := by decide
  rw [number?, Option.filter_eq_some_iff, decide_eq_true_eq]
  refine and_congr_left fun _ => ?_
  unfold Writes
  split
  · rename_i rest marked
    rw [unsigned?_eq_some_iff (Nat.le_refl 16), marked]
    constructor
    · exact fun numeral => .inr ⟨rest, .inl rfl, numeral⟩
    · rintro (numeral | ⟨_, same | other, numeral⟩)
      · exact absurd numeral (noDecimal 'x' (by simp) rest)
      · cases same
        exact numeral
      · cases other
  · rename_i rest marked
    rw [unsigned?_eq_some_iff (Nat.le_refl 16), marked]
    constructor
    · exact fun numeral => .inr ⟨rest, .inr rfl, numeral⟩
    · rintro (numeral | ⟨_, other | same, numeral⟩)
      · exact absurd numeral (noDecimal 'X' (by simp) rest)
      · cases other
      · cases same
        exact numeral
  · rename_i small large
    rw [unsigned?_eq_some_iff decimal]
    refine (or_iff_left ?_).symm
    rintro ⟨rest, marked | marked, _⟩
    · exact small rest marked
    · exact large rest marked

theorem Writes.unique (left : Writes text m) (right : Writes text n) : m = n := by
  have first := number?_eq_some_iff.mpr ⟨left, Nat.lt_succ_of_le (Nat.le_max_left m n)⟩
  have second := number?_eq_some_iff.mpr ⟨right, Nat.lt_succ_of_le (Nat.le_max_right m n)⟩
  exact Option.some.inj (first.symm.trans second)

end Text
end CilPolicy
