import CilPolicy.Proofs.BitSet.Refinement
import CilPolicy.Proofs.Lowering.Expansion

/-!
# Extended permissions in records

A set of numbers is split by driver. A driver that has all of its functions is one bit of the record
of drivers, any other driver that has some function has a record of functions of its own, and
together the records stand for the set again.
-/

namespace CilPolicy

namespace ExtendedSet

/-! ### What records stand for -/

/-- The number is one of those that the record stands for: a function of its driver, or any function
of one of its drivers. -/
def Covers (x : ExtendedSet) (n : Nat) : Prop :=
  (x.form = functionForm ∧ ∃ f, f < 256 ∧ x.has f = true ∧ n = 256 * x.driver.toNat + f) ∨
    (x.form = driverForm ∧ ∃ d f, d < 256 ∧ f < 256 ∧ x.has d = true ∧ n = 256 * d + f)

/-- The records stand for the numbers, and none of them is needless. -/
structure Split (numbers : BitSet) (records : List ExtendedSet) : Prop where
  decoded : ∀ n, (∃ x ∈ records, x.Covers n) ↔ n ∈ numbers
  form : ∀ x ∈ records, x.form = functionForm ∨ x.form = driverForm
  oneOfDrivers : records.Pairwise fun x y => ¬ (x.form = driverForm ∧ y.form = driverForm)
  nonempty : ∀ x ∈ records, x.bits ≠ 0
  oneOfFunctions : records.Pairwise fun x y =>
    x.form = functionForm → y.form = functionForm → x.driver ≠ y.driver
  apart : ∀ x ∈ records, ∀ y ∈ records, x.form = functionForm → y.form = driverForm →
    y.has x.driver.toNat = false

variable {numbers : BitSet} {d f n : Nat} {x : ExtendedSet}

theorem mem_completeDrivers :
    d ∈ completeDrivers numbers ↔ d < 256 ∧ ∀ f < 256, 256 * d + f ∈ numbers := by
  rw [completeDrivers, List.mem_filter, List.mem_range, beq_iff_eq]
  refine and_congr_right fun _ => ?_
  constructor
  · intro full f lt
    rw [← getLsbD_functionsOf numbers d lt, full, BitVec.getLsbD_allOnes, decide_eq_true lt]
  · intro all
    refine BitVec.eq_of_getLsbD_eq fun f lt => ?_
    rw [(getLsbD_functionsOf numbers d lt).mpr (all f lt), BitVec.getLsbD_allOnes, decide_eq_true lt]

theorem mem_partialDrivers : d ∈ partialDrivers numbers ↔
    d < 256 ∧ (∃ f, f < 256 ∧ 256 * d + f ∈ numbers) ∧ d ∉ completeDrivers numbers := by
  rw [completeDrivers, partialDrivers, List.mem_filter, List.mem_filter, List.mem_range, Bool.and_eq_true,
    bne_iff_ne, bne_iff_ne, beq_iff_eq, functionsOf_ne_zero_iff]
  exact and_congr_right fun lt => and_congr_right fun _ => not_congr (and_iff_right lt).symm

/-- The record of some drivers. -/
def ofDrivers (drivers : List Nat) : ExtendedSet :=
  drivers.foldl insert ⟨driverForm, 0, 0⟩

/-- The record of the functions of a driver. -/
def ofFunctions (numbers : BitSet) (driver : Nat) : ExtendedSet :=
  ⟨functionForm, UInt8.ofNat driver, functionsOf numbers driver⟩

theorem records_eq (numbers : BitSet) : records numbers =
    (if (completeDrivers numbers).isEmpty then [] else [ofDrivers (completeDrivers numbers)]) ++
      (partialDrivers numbers).map (ofFunctions numbers) :=
  rfl

theorem mem_records : x ∈ records numbers ↔
    (completeDrivers numbers ≠ [] ∧ x = ofDrivers (completeDrivers numbers)) ∨
      ∃ d ∈ partialDrivers numbers, x = ofFunctions numbers d := by
  simp only [records_eq, List.mem_append, List.mem_ite_nil_left, List.isEmpty_iff, List.mem_singleton,
    List.mem_map, eq_comm (a := x), ne_eq]

theorem has_insert : (x.insert d).has n = true ↔ x.has n = true ∨ (n < 256 ∧ n = d) := by
  rw [has, insert, BitVec.getLsbD_or, Bool.or_eq_true, BitVec.getLsbD_shiftLeft, BitVec.getLsbD_one]
  refine or_congr_right ?_
  simp only [Bool.and_eq_true, decide_eq_true_eq, Bool.not_eq_true', decide_eq_false_iff_not]
  omega

theorem has_foldl_insert {drivers : List Nat} :
    (drivers.foldl insert x).has n = true ↔ x.has n = true ∨ (n < 256 ∧ n ∈ drivers) := by
  induction drivers generalizing x with
  | nil => simp
  | cons d drivers ih => rw [List.foldl_cons, ih, has_insert, or_assoc, List.mem_cons, and_or_left]

theorem has_ofDrivers {drivers : List Nat} : (ofDrivers drivers).has n = true ↔ n < 256 ∧ n ∈ drivers := by
  have empty : (⟨driverForm, 0, 0⟩ : ExtendedSet).has n = false := BitVec.getLsbD_zero
  rw [ofDrivers, has_foldl_insert, empty]
  exact or_iff_right Bool.false_ne_true

theorem form_ofDrivers (drivers : List Nat) : (ofDrivers drivers).form = driverForm := by
  have kept : ∀ x : ExtendedSet, (drivers.foldl insert x).form = x.form := by
    induction drivers with
    | nil => exact fun _ => rfl
    | cons d drivers ih => exact fun x => ih (x.insert d)
  exact kept _

theorem covers_ofDrivers {drivers : List Nat} :
    (ofDrivers drivers).Covers n ↔ ∃ d f, d < 256 ∧ f < 256 ∧ d ∈ drivers ∧ n = 256 * d + f := by
  have other : driverForm ≠ functionForm := by decide
  rw [Covers, form_ofDrivers]
  simp only [other, false_and, false_or, true_and, has_ofDrivers]
  constructor
  · rintro ⟨d, f, hd, hf, ⟨_, listed⟩, same⟩
    exact ⟨d, f, hd, hf, listed, same⟩
  · rintro ⟨d, f, hd, hf, listed, same⟩
    exact ⟨d, f, hd, hf, ⟨hd, listed⟩, same⟩

theorem driver_ofFunctions (lt : d < 256) : (ofFunctions numbers d).driver.toNat = d :=
  Nat.mod_eq_of_lt lt

theorem covers_ofFunctions (lt : d < 256) :
    (ofFunctions numbers d).Covers n ↔ ∃ f, f < 256 ∧ 256 * d + f ∈ numbers ∧ n = 256 * d + f := by
  have other : functionForm ≠ driverForm := by decide
  rw [Covers, driver_ofFunctions lt]
  simp only [ofFunctions, other, false_and, or_false, true_and]
  refine exists_congr fun f => and_congr_right fun hf => and_congr_left fun _ => ?_
  exact getLsbD_functionsOf numbers d hf

theorem bits_ne_zero (set : x.has n = true) : x.bits ≠ 0 := by
  intro zero
  rw [has, zero] at set
  exact absurd set (by simp)

/-- The record of the drivers is followed by the records of functions, which go up by driver. -/
theorem pairwise_records {R : ExtendedSet → ExtendedSet → Prop}
    (first : ∀ d, R (ofDrivers (completeDrivers numbers)) (ofFunctions numbers d))
    (others : ∀ d e, d < e → e < 256 → R (ofFunctions numbers d) (ofFunctions numbers e)) :
    (records numbers).Pairwise R := by
  have ascending : (partialDrivers numbers).Pairwise (· < ·) := List.pairwise_lt_range.filter _
  rw [records_eq]
  refine List.pairwise_append.mpr ⟨?_, ?_, ?_⟩
  · split
    · exact .nil
    · exact List.pairwise_singleton R _
  · refine List.pairwise_map.mpr (ascending.imp_of_mem fun _ he lt => ?_)
    exact others _ _ lt (mem_partialDrivers.mp he).1
  · intro x hx y hy
    simp only [List.mem_ite_nil_left, List.mem_singleton] at hx
    obtain ⟨d, _, rfl⟩ := List.mem_map.mp hy
    exact hx.2 ▸ first d

/-- The records of a set of numbers below the limit stand for exactly that set. -/
theorem split_records (below : ∀ n, n ∈ numbers → n < extendedLimit) : Split numbers (records numbers) where
  decoded n := by
    constructor
    · rintro ⟨x, hx, covers⟩
      rcases mem_records.mp hx with ⟨_, rfl⟩ | ⟨d, partly, rfl⟩
      · obtain ⟨d, f, _, hf, complete, rfl⟩ := covers_ofDrivers.mp covers
        exact (mem_completeDrivers.mp complete).2 f hf
      · obtain ⟨f, _, member, rfl⟩ := (covers_ofFunctions (mem_partialDrivers.mp partly).1).mp covers
        exact member
    · intro member
      have lt := below n member
      have driver : n / 256 < 256 := by rw [extendedLimit] at lt; omega
      have function : n % 256 < 256 := Nat.mod_lt n (by decide)
      have parts : 256 * (n / 256) + n % 256 = n := Nat.div_add_mod n 256
      by_cases complete : n / 256 ∈ completeDrivers numbers
      · have some := List.ne_nil_of_mem complete
        refine ⟨_, mem_records.mpr (.inl ⟨some, rfl⟩), covers_ofDrivers.mpr ?_⟩
        exact ⟨n / 256, n % 256, driver, function, complete, parts.symm⟩
      · have partly : n / 256 ∈ partialDrivers numbers :=
          mem_partialDrivers.mpr ⟨driver, ⟨n % 256, function, by rwa [parts]⟩, complete⟩
        refine ⟨_, mem_records.mpr (.inr ⟨_, partly, rfl⟩), (covers_ofFunctions driver).mpr ?_⟩
        exact ⟨n % 256, function, by rwa [parts], parts.symm⟩
  form x hx := by
    rcases mem_records.mp hx with ⟨_, rfl⟩ | ⟨d, _, rfl⟩
    · exact .inr (form_ofDrivers _)
    · exact .inl rfl
  oneOfDrivers := by
    have other : functionForm ≠ driverForm := by decide
    exact pairwise_records (fun _ both => other both.2) fun _ _ _ _ both => other both.2
  nonempty x hx := by
    rcases mem_records.mp hx with ⟨some, rfl⟩ | ⟨d, partly, rfl⟩
    · obtain ⟨d, complete⟩ := List.exists_mem_of_ne_nil _ some
      exact bits_ne_zero (has_ofDrivers.mpr ⟨(mem_completeDrivers.mp complete).1, complete⟩)
    · exact functionsOf_ne_zero_iff.mpr (mem_partialDrivers.mp partly).2.1
  oneOfFunctions := by
    have other : driverForm ≠ functionForm := by decide
    refine pairwise_records (fun _ first _ => ?_) fun d e lt bound _ _ same => ?_
    · exact absurd ((form_ofDrivers _).symm.trans first) other
    · have drivers := congrArg UInt8.toNat same
      rw [driver_ofFunctions (Nat.lt_trans lt bound), driver_ofFunctions bound] at drivers
      exact Nat.ne_of_lt lt drivers
  apart x hx y hy function driver := by
    have other : driverForm ≠ functionForm := by decide
    rcases mem_records.mp hx with ⟨_, rfl⟩ | ⟨d, partly, rfl⟩
    · exact absurd ((form_ofDrivers _).symm.trans function) other
    rcases mem_records.mp hy with ⟨_, rfl⟩ | ⟨e, _, rfl⟩
    · obtain ⟨lt, _, incomplete⟩ := mem_partialDrivers.mp partly
      refine Bool.eq_false_iff.mpr fun set => incomplete ?_
      rw [driver_ofFunctions lt] at set
      exact (has_ofDrivers.mp set).2
    · exact absurd driver.symm other

end ExtendedSet

/-- An expression over numbers is evaluated to the set that it stands for, and refused otherwise; and
the records of any set of numbers below the limit stand for that set. -/
theorem extended_numbers_kept :
    (∀ (e : Expr String) (s : BitSet),
        e.extendedNumbers = .ok s ↔ e.Numeric ∧ Expr.Represents s e.Numbers) ∧
      ∀ s : BitSet, s.WellFormed → (∀ n, n ∈ s → n < extendedLimit) →
        ExtendedSet.Split s (ExtendedSet.records s) :=
  ⟨fun _ _ => Expr.extendedNumbers_eq_ok_iff, fun _ _ below => ExtendedSet.split_records below⟩

/-- A range from the last functions of one driver through all those of the next, and a single number. -/
theorem extended_numbers_kept_range :
    let e : Expr String := .list [.apply .range [.item "0x12fe", .item "0x13FF"], .item "+7"]
    ∃ s, e.extendedNumbers = .ok s ∧ e.Numeric ∧ Expr.Represents s e.Numbers ∧
      ExtendedSet.records s = [⟨2, 0, 1#256 <<< 0x13⟩, ⟨1, 0, 1#256 <<< 7⟩, ⟨1, 0x12, 3#256 <<< 0xfe⟩] ∧
      ExtendedSet.Split s (ExtendedSet.records s) := by
  intro e
  have run : e.extendedNumbers.toOption.map ExtendedSet.records =
      some [⟨2, 0, 1#256 <<< 0x13⟩, ⟨1, 0, 1#256 <<< 7⟩, ⟨1, 0x12, 3#256 <<< 0xfe⟩] := by
    decide +kernel
  obtain ⟨s, evaluated, records⟩ := Option.map_eq_some_iff.mp run
  have evaluated := toOption_eq_some_iff.mp evaluated
  obtain ⟨numeric, represents⟩ := (extended_numbers_kept.1 e s).mp evaluated
  have split := extended_numbers_kept.2 s represents.1 fun n hn => ((represents.2 n).mp hn).1
  exact ⟨s, evaluated, numeric, represents, records, split⟩

end CilPolicy
