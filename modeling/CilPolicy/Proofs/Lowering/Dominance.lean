import CilPolicy.Proofs.BitSet.Refinement
import CilPolicy.Proofs.Evaluation.AttributeMeaning
import CilPolicy.Proofs.Lowering.Ranges
import CilPolicy.Proofs.Lowering.Symbols
import CilPolicy.Proofs.Table.Symbol
import Mathlib.Order.Defs.Unbundled

/-!
# Ranges that are checked, and levels of the kernel

The check of a range compares places in the order of the sensitivities, and category sets of the
database. In kernel values a range is in order when its high level dominates its low level. The two
agree, but for the categories that a sensitivity may be used with. These are what the table of levels
has for the sensitivity, and the check looks at them for both levels. Domination is a partial order of
the levels that a policy has, as their category sets are in canonical form.
-/

namespace CilPolicy

/-! ### Domination -/

namespace Level

variable {a b : Level}

theorem dominates_iff (wa : a.cats.WellFormed) (wb : b.cats.WellFormed) :
    a.dominates b = true ↔ b.sens ≤ a.sens ∧ ∀ n, n ∈ b.cats → n ∈ a.cats := by
  rw [dominates, Bool.and_eq_true, decide_eq_true_iff, BitSet.covers_iff wa wb]

/-- Two levels that dominate each other are equal, as no two canonical sets have the same categories. -/
theorem eq_of_dominates (wa : a.cats.WellFormed) (wb : b.cats.WellFormed) (below : b.dominates a = true)
    (above : a.dominates b = true) : a = b := by
  obtain ⟨sensBelow, catsBelow⟩ := (dominates_iff wb wa).mp below
  obtain ⟨sensAbove, catsAbove⟩ := (dominates_iff wa wb).mp above
  have sens : a.sens = b.sens := Nat.le_antisymm sensBelow sensAbove
  have cats : a.cats = b.cats := BitSet.eq_of_mem_iff wa wb fun n => ⟨catsBelow n, catsAbove n⟩
  cases a
  cases b
  cases sens
  cases cats
  rfl

/-- Domination is a partial order of levels with canonical category sets. -/
theorem isPartialOrder_dominates {p : Level → Prop} (canonical : ∀ a, p a → a.cats.WellFormed) :
    IsPartialOrder {a // p a} fun a b => b.1.dominates a.1 = true where
  refl a := (dominates_iff (canonical _ a.2) (canonical _ a.2)).mpr ⟨Nat.le_refl _, fun _ h => h⟩
  trans a b c below above := by
    have wa := canonical _ a.2
    have wb := canonical _ b.2
    have wc := canonical _ c.2
    obtain ⟨sens, cats⟩ := (dominates_iff wb wa).mp below
    obtain ⟨sens', cats'⟩ := (dominates_iff wc wb).mp above
    exact (dominates_iff wc wa).mpr ⟨Nat.le_trans sens sens', fun n h => cats' n (cats n h)⟩
  antisymm a b below above := Subtype.ext (eq_of_dominates (canonical _ a.2) (canonical _ b.2) below above)

end Level

/-! ### The check of a range -/

namespace EvaluatedDatabase

variable {db : EvaluatedDatabase} {low high v : LevelValue}

/-- A level is allowed when its sensitivity may be used with each of its categories. That a level has no
categories, or that its sensitivity has none, is no case of its own. -/
theorem checkLevel_iff (wf : v.categories.WellFormed) :
    db.checkLevel v = .ok () ↔ ∀ n, n ∈ v.categories → n ∈ db.allowedCategories v.sensitivity := by
  rw [checkLevel]
  split
  · rename_i none
    exact iff_of_true rfl fun n h => absurd h ((BitSet.isEmpty_iff wf).mp none n)
  · rename_i some
    obtain ⟨n, member⟩ := (BitSet.isEmpty_eq_false_iff wf).mp (Bool.eq_false_iff.mpr some)
    split
    · rename_i refused
      refine iff_of_false nofun fun all => ?_
      exact BitSet.not_mem_of_isEmpty refused n (all n member)
    · cases found : v.categories.toList.find? (!(db.allowedCategories v.sensitivity).has ·) with
      | some position =>
        have listed := (BitSet.mem_toList wf).mp (List.mem_of_find?_eq_some found)
        have outside : (db.allowedCategories v.sensitivity).has position = false := by
          simpa using List.find?_some found
        exact iff_of_false nofun fun all => Bool.eq_false_iff.mp outside (all position listed)
      | none =>
        refine iff_of_true rfl fun n h => ?_
        have inside := List.find?_eq_none.mp found n ((BitSet.mem_toList wf).mpr h)
        rwa [Bool.not_eq_true', Bool.not_eq_false] at inside

theorem checkRange_iff : db.checkRange low high = .ok () ↔
    (db.sensitivityLe low.sensitivity high.sensitivity = true ∧
      high.categories.covers low.categories = true) ∧
    db.checkLevel low = .ok () ∧ db.checkLevel high = .ok () := by
  rw [checkRange]
  cases db.sensitivityLe low.sensitivity high.sensitivity with
  | false => simp
  | true =>
    cases high.categories.covers low.categories with
    | false => simp
    | true =>
      simp only [Bool.not_true, Bool.false_eq_true, if_false, true_and]
      rw [bind_eq_ok]
      exact ⟨fun ⟨_, first, second⟩ => ⟨first, second⟩, fun ⟨first, second⟩ => ⟨(), first, second⟩⟩

/-! ### The stages before -/

/-- The database has been resolved and put in order, and then evaluated. -/
def OrderedEvaluated (db : EvaluatedDatabase) : Prop :=
  ∃ statements repeats again resolved ordered, (Database.resolve repeats statements).outcome.1 = .ok resolved ∧
    resolved.order.outcome.1 = .ok ordered ∧ (ordered.evaluate again).outcome.1 = .ok db

/-- What these stages leave of sensitivities and categories. -/
structure LevelsOrdered (db : EvaluatedDatabase) : Prop where
  resolved : db.Resolved
  placed : db.Placed
  known : KnownWithin db.categoryWhole db.categorySets
  inside : ∀ id ∈ db.orders.sensitivities, db.IsSensitivity id
  nodup : db.orders.sensitivities.Nodup
  distinct : db.sensitivities.Distinct

end EvaluatedDatabase

/-- No sensitivity has two places in the merged order. -/
theorem Database.nodup_sensitivities {resolved : Database} {db : OrderedDatabase}
    (run : resolved.order.Yields db) : db.orders.sensitivities.Nodup := by
  rw [Database.order] at run
  obtain ⟨_, _, run⟩ := Report.yields_bind run
  obtain ⟨_, _, run⟩ := Report.yields_bind run
  obtain ⟨sensitivities, merged, run⟩ := Report.yields_bind run
  obtain ⟨_, _, run⟩ := Report.yields_bind run
  obtain ⟨_, _, run⟩ := Report.yields_bind run
  cases Report.yields_pure run
  exact nodup_mergeFragments merged

namespace EvaluatedDatabase

variable {db : EvaluatedDatabase} {v : LevelValue}

theorem OrderedEvaluated.levels (stages : db.OrderedEvaluated) : db.LevelsOrdered := by
  obtain ⟨statements, repeats, again, resolved, ordered, resolve, order, evaluate⟩ := stages
  have closed := Database.closed_of_resolve resolve
  rw [Database.outcome_resolve] at resolve
  have order := Report.yields_of_outcome order
  have evaluate := Report.yields_of_outcome evaluate
  have orders := closed.orderInside.orders order
  have nodup := Database.nodup_sensitivities order
  have fits := Database.resolved_of_ofStatements resolve
  have sound := Database.sound_of_ofStatements resolve
  obtain ⟨rfl, placed⟩ := Database.order_spec order
  obtain ⟨_, same⟩ := OrderedDatabase.evaluate_spec evaluate
  refine ⟨?_, ?_, OrderedDatabase.knownWithin_evaluate evaluate, ?_, ?_, ?_⟩
  · rw [same]
    exact fits.evaluated
  · rw [same]
    exact ⟨placed.classes, placed.sids, placed.sensitivities⟩
  · rw [same]
    intro id listed
    obtain ⟨actual, link⟩ := orders.sensitivities id listed
    obtain ⟨s, hs, heq⟩ := Option.map_eq_some_iff.mp link
    exact ⟨s, hs, congrArg Prod.fst heq⟩
  · rw [same]
    exact nodup
  · rw [same]
    exact (Registry.distinct_outline _).mp sound.sensitivities

end EvaluatedDatabase

/-! ### The table of levels -/

namespace Lowering

variable {l : Lowering}

theorem nodup_names {α : Type} {n : Numbering} {r : Registry α} (distinct : r.Distinct) (nodup : n.ids.Nodup)
    (declared : ∀ id ∈ n.ids, id < r.size) : (n.names r).Nodup := by
  rw [Numbering.names]
  refine nodup.map_on ?_
  intro id hid other hother same
  exact distinct.id_eq (Registry.named_nameOf (declared id hid))
    (same ▸ Registry.named_nameOf (declared other hother))

theorem aliasSymbols_sublist {α β : Type} (n : Numbering) (r : Registry α) (actual : α → Option Id)
    (make : Id → Nat → β) : ((aliasSymbols n r actual make).map Prod.fst).Sublist r.names := by
  rw [aliasSymbols, Registry.names]
  induction r.toList with
  | nil => exact .slnil
  | cons d rest ih =>
    rw [List.filterMap_cons]
    split
    · exact ih.cons d.name
    · rename_i symbol found
      obtain ⟨a, _, found⟩ := Option.bind_eq_some_iff.mp found
      obtain ⟨value, _, rfl⟩ := Option.map_eq_some_iff.mp found
      exact ih.cons_cons d.name

theorem map_fst_numbered {α : Type} {n : Numbering} {r : Registry α}
    (declared : ∀ id ∈ n.ids, ∃ v, r.value? id = some v) :
    (numbered n r).map (fun x => x.2.2.name) = n.names r := by
  have pairs := congrArg (List.map Prod.fst) (map_numbered declared)
  rwa [List.map_map, List.zipIdx_map_fst] at pairs

/-- Sensitivities and their aliases have different names, so that all of them go into the table. -/
theorem exists_sensitivitySymbols (numbered : l.Numbered) (ordered : l.db.LevelsOrdered) :
    ∃ table, l.sensitivitySymbols = .ok table := by
  have distinct := ordered.distinct
  have plain : ∀ id ∈ l.sensitivities.ids, l.db.IsSensitivity id := by
    rw [numbered.sensitivities]
    exact ordered.inside
  have declared : ∀ id ∈ l.sensitivities.ids, ∃ s, l.db.sensitivities.value? id = some s :=
    fun id listed => (plain id listed).imp fun _ h => h.1
  have primary := map_fst_numbered declared
  rw [sensitivitySymbols_eq]
  refine SymbolTable.exists_ofList ?_ _ _
  rw [List.map_append, List.map_map]
  refine List.nodup_append.mpr ⟨?_, (aliasSymbols_sublist ..).nodup distinct.nodup_names, ?_⟩
  · refine (congrArg List.Nodup primary).mpr (nodup_names distinct ?_ fun id listed => ?_)
    · rw [numbered.sensitivities]
      exact ordered.nodup
    · obtain ⟨s, hs⟩ := declared id listed
      exact Registry.lt_of_value? hs
  · -- A name in both parts would be that of an alias and of something that is none.
    rintro name hname _ hother rfl
    obtain ⟨id, listed, rfl⟩ := List.mem_map.mp ((congrArg (name ∈ ·) primary).mp hname)
    obtain ⟨e, he, same⟩ := List.mem_map.mp hother
    obtain ⟨d, hd, a, v, stands, _, rfl⟩ := mem_aliasSymbols.mp he
    obtain ⟨s, hs, notAlias⟩ := plain id listed
    obtain ⟨other, hother⟩ := Registry.exists_get?_of_mem hd
    have named := Registry.named_nameOf (Registry.lt_of_value? hs)
    cases distinct.id_eq named ⟨d, hother, same⟩
    cases hs.symm.trans (Registry.value?_eq_some.mpr ⟨d, hother, rfl⟩)
    simp [SensitivityInfo.standsFor, notAlias] at stands

/-- A sensitivity has an entry with its value and the categories that it may be used with. -/
theorem find?_sensitivitySymbols {table : SymbolTable SensitivityDatum} (run : l.sensitivitySymbols = .ok table)
    {id : Id} {s : SensitivityInfo} (declared : l.db.sensitivities.value? id = some s) {value : Nat}
    (hv : l.sensitivities.value? id = some value) :
    table.find? (l.db.sensitivities.nameOf id) = some ⟨false, ⟨value, l.db.allowedCategories id⟩⟩ := by
  obtain ⟨d, hd, rfl⟩ := Registry.value?_eq_some.mp declared
  have name : l.db.sensitivities.nameOf id = d.name := by simp [Registry.nameOf, hd]
  rw [sensitivitySymbols_eq] at run
  rw [name, SymbolTable.find?_ofList run]
  exact List.mem_append_left _ (List.mem_map.mpr ⟨(value, id, d), mem_numbered hv hd, rfl⟩)

/-- In the table of levels, the sensitivity of the level has the value of the level, and all categories
of the level are among its own. -/
def RecordedIn (l : Lowering) (table : SymbolTable SensitivityDatum) (v : LevelValue) : Prop :=
  ∃ datum, table.find? (l.db.sensitivities.nameOf v.sensitivity) = some datum ∧
    datum.level.sens = (l.level v).sens ∧ ∀ n, n ∈ v.categories → n ∈ datum.level.cats

/-- The level is the kernel value of a level that the policy has. -/
def LowersLevel (l : Lowering) (a : Level) : Prop :=
  ∃ level v, l.db.evalLevel level = .ok v ∧ l.level v = a

theorem recordedIn_iff (numbered : l.Numbered) (ordered : l.db.LevelsOrdered)
    {table : SymbolTable SensitivityDatum} (run : l.sensitivitySymbols = .ok table) {v : LevelValue}
    (sensitivity : l.db.IsSensitivity v.sensitivity) (wf : v.categories.WellFormed) :
    l.RecordedIn table v ↔ l.db.checkLevel v = .ok () := by
  obtain ⟨s, hs, _⟩ := sensitivity
  obtain ⟨value, hvalue⟩ : ∃ value, l.sensitivities.value? v.sensitivity = some value := by
    refine Numbering.exists_value? ?_
    rw [numbered.sensitivities]
    exact ordered.placed.sensitivities _ ⟨s, hs, by assumption⟩
  have found := find?_sensitivitySymbols run hs hvalue
  rw [EvaluatedDatabase.checkLevel_iff wf, RecordedIn, found]
  constructor
  · rintro ⟨_, heq, _, inside⟩
    cases heq
    exact inside
  · intro inside
    exact ⟨_, rfl, by simp [level, hvalue], inside⟩

end Lowering

namespace EvaluatedDatabase

variable {db : EvaluatedDatabase}

/-- The check accepts a range exactly if, in kernel values, its high level dominates its low level and
the table of levels has the categories of both with their sensitivities. There always is such a table,
and a kernel policy has no other. Domination is a partial order of the levels in kernel values. -/
theorem checkRange_iff_dominates (stages : db.OrderedEvaluated) (settings : Settings) (options : LoweringOptions) :
    let l := Lowering.new db settings options
    ∃ table, l.sensitivitySymbols = .ok table ∧
      (∀ k, (db.lower settings options).outcome.1 = .ok k → k.sensitivities = table) ∧
      (∀ lowArg highArg low high, db.LevelFits lowArg → db.LevelFits highArg →
        db.evalLevel lowArg = .ok low → db.evalLevel highArg = .ok high →
        (db.checkRange low high = .ok () ↔ (l.level high).dominates (l.level low) = true ∧
          l.RecordedIn table low ∧ l.RecordedIn table high)) ∧
      IsPartialOrder {a // l.LowersLevel a} fun a b => b.1.dominates a.1 = true := by
  intro l
  have numbered : l.Numbered := Lowering.numbered_new db settings options
  have ordered : l.db.LevelsOrdered := stages.levels
  obtain ⟨table, run⟩ := Lowering.exists_sensitivitySymbols numbered ordered
  refine ⟨table, run, fun k lowered => ?_, ?_, ?_⟩
  · have filled := (Lowering.filled_of_policy (Report.yields_of_outcome lowered)).sensitivities
    exact Except.ok.inj (filled.symm.trans run)
  · intro lowArg highArg low high lowFits highFits hlow hhigh
    have lowSensitivity := isSensitivity_of_evalLevel ordered.resolved lowFits hlow
    have highSensitivity := isSensitivity_of_evalLevel ordered.resolved highFits hhigh
    have lowForm := wellFormed_of_known ordered.known hlow
    have highForm := wellFormed_of_known ordered.known hhigh
    rw [checkRange_iff, Lowering.recordedIn_iff numbered ordered run lowSensitivity lowForm,
      Lowering.recordedIn_iff numbered ordered run highSensitivity highForm, Level.dominates, Bool.and_eq_true,
      decide_eq_true_iff]
    rw [Lowering.level_le_iff numbered ordered.placed lowSensitivity highSensitivity]
    exact Iff.rfl
  · refine Level.isPartialOrder_dominates ?_
    rintro a ⟨level, v, hv, rfl⟩
    exact wellFormed_of_known ordered.known hv

/-- A policy with two sensitivities, of which the second may be used with a category. -/
def ascendingPolicy : List Statement :=
  smallPolicy ([.declare .sensitivity "s1", .order .sensitivity ["s0", "s1"], .declare .category "c0",
    .order .category ["c0"], .sensitivityCategory "s1" (.item "c0"),
    .access .allow "a" "b" (.given "file" (.list [.item "read"]))].map (Statement.plain {}))

/-- The first sensitivity alone, and the second with a category. -/
def ascendingLevels : LevelArg Id × LevelArg Id :=
  (.given ⟨0, none⟩, .given ⟨1, some (.item 0)⟩)

/-- The two levels make a range, and none the other way round. -/
def ascends (db : EvaluatedDatabase) (_ : Settings) (_ : KernelPolicy) : Bool :=
  (db.sensitivities.value? 0).any (!·.isAlias) && (db.sensitivities.value? 1).any (!·.isAlias) &&
    match db.evalLevel ascendingLevels.1, db.evalLevel ascendingLevels.2 with
    | .ok low, .ok high => decide (db.checkRange low high = .ok ()) && decide (db.checkRange high low ≠ .ok ())
    | _, _ => false

set_option maxRecDepth 10000 in
theorem ascendingPolicy_lowers : lowersTo ascendingPolicy {} ascends = true := by
  decide +kernel

/-- In a small policy a range is accepted, and the level at its high end dominates the other one but is
not dominated by it. -/
theorem checkRange_iff_dominates_ascending : ∃ db settings table low high, db.OrderedEvaluated ∧
    (Lowering.new db settings {}).sensitivitySymbols = .ok table ∧
    db.evalLevel ascendingLevels.1 = .ok low ∧ db.evalLevel ascendingLevels.2 = .ok high ∧
    ((Lowering.new db settings {}).level high).dominates ((Lowering.new db settings {}).level low) = true ∧
    (Lowering.new db settings {}).RecordedIn table high ∧
    ((Lowering.new db settings {}).level low).dominates ((Lowering.new db settings {}).level high) = false := by
  obtain ⟨resolved, ordered, db, settings, k, resolve, order, _, evaluate, _, _, test⟩ :=
    stages_of_lowersTo ascendingPolicy_lowers
  have stages : db.OrderedEvaluated := ⟨_, _, _, resolved, ordered, resolve, order, evaluate⟩
  obtain ⟨sensitivities, test⟩ := Bool.and_eq_true_iff.mp test
  obtain ⟨first, second⟩ := Bool.and_eq_true_iff.mp sensitivities
  have fits : ∀ id, (db.sensitivities.value? id).any (!·.isAlias) = true → db.IsSensitivity id := by
    intro id h
    obtain ⟨s, hs, plain⟩ := (Option.any_eq_true ..).mp h
    exact ⟨s, hs, by simpa using plain⟩
  split at test
  · rename_i low high hlow hhigh
    obtain ⟨accepted, refused⟩ := Bool.and_eq_true_iff.mp test
    obtain ⟨table, run, _, iff, _⟩ := checkRange_iff_dominates stages settings {}
    have lowFits : db.LevelFits ascendingLevels.1 := fits 0 first
    have highFits : db.LevelFits ascendingLevels.2 := fits 1 second
    have upwards := iff _ _ low high lowFits highFits hlow hhigh
    have downwards := iff _ _ high low highFits lowFits hhigh hlow
    obtain ⟨above, lowRecorded, highRecorded⟩ := upwards.mp (of_decide_eq_true accepted)
    refine ⟨db, settings, table, low, high, stages, run, hlow, hhigh, above, highRecorded, ?_⟩
    refine Bool.eq_false_iff.mpr fun below => ?_
    exact of_decide_eq_true refused (downwards.mpr ⟨below, highRecorded, lowRecorded⟩)
  · cases test

end EvaluatedDatabase

end CilPolicy
