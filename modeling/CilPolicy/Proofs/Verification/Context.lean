import CilPolicy.Proofs.Verification.Passed

/-!
# Contexts that a policy permits

A context is permitted when its user may take its role, its role may take its type and,
with levels, its high level dominates its low level. The checks of a verified policy
leave every named context and every context of a label permitted. Nothing checks a
context that is written out for an initial SID.
-/

namespace CilPolicy

/-! ### What references fit -/

namespace Database.Resolved

variable {db : Database}

theorem level_fits (resolved : db.Resolved) {level : LevelArg Id} (fits : db.LevelFits level)
    {spec : LevelSpec Id} (h : db.levelSpec? level = some spec) : db.IsSensitivity spec.sensitivity := by
  cases level with
  | named id => exact resolved.levels id (some spec) (Option.join_eq_some_iff.mp h) spec rfl
  | given given =>
    cases h
    exact fits

theorem range_fits (resolved : db.Resolved) {range : RangeArg Id} (fits : db.RangeFits range)
    {spec : RangeSpec Id} (h : db.rangeSpec? range = some spec) :
    db.LevelFits spec.low ∧ db.LevelFits spec.high := by
  cases range with
  | named id => exact resolved.ranges id (some spec) (Option.join_eq_some_iff.mp h) spec rfl
  | given given =>
    cases h
    exact fits

theorem context_fits (resolved : db.Resolved) {context : ContextArg Id}
    (fits : db.ContextFits context) {spec : ContextSpec Id} (h : db.contextSpec? context = some spec) :
    db.IsConcreteType spec.type ∧ db.RangeFits spec.range := by
  cases context with
  | named id => exact resolved.contexts id (some spec) (Option.join_eq_some_iff.mp h) spec rfl
  | given given =>
    cases h
    exact fits

end Database.Resolved

namespace EvaluatedDatabase

variable {db : EvaluatedDatabase}

theorem isSensitivity_of_evalLevel (resolved : db.Resolved) {level : LevelArg Id}
    (fits : db.LevelFits level) {v : LevelValue} (h : db.evalLevel level = .ok v) :
    db.IsSensitivity v.sensitivity := by
  rw [evalLevel] at h
  split at h
  · cases h
  · rename_i hspec
    cases h
    exact resolved.level_fits fits hspec
  · rename_i hspec
    obtain ⟨categories, _, h⟩ := bind_eq_ok.mp h
    cases h
    exact resolved.level_fits fits hspec

/-- The levels of a range have sensitivities that are no aliases. -/
theorem isSensitivity_of_evalRange (resolved : db.Resolved) {range : RangeArg Id}
    (fits : db.RangeFits range) {low high : LevelValue} (h : db.evalRange range = .ok (low, high)) :
    db.IsSensitivity low.sensitivity ∧ db.IsSensitivity high.sensitivity := by
  rw [evalRange] at h
  split at h
  · cases h
  · rename_i hspec
    obtain ⟨lowFits, highFits⟩ := resolved.range_fits fits hspec
    obtain ⟨low, hlow, h⟩ := bind_eq_ok.mp h
    obtain ⟨high, hhigh, h⟩ := bind_eq_ok.mp h
    cases h
    exact ⟨isSensitivity_of_evalLevel resolved lowFits hlow,
      isSensitivity_of_evalLevel resolved highFits hhigh⟩

/-! ### What the checks leave -/

theorem guard_eq_ok {ε α : Type} {c : Prop} [Decidable c] {e : ε} {rest : Unit → Except ε α} {a : α}
    (h : (if c then throw e >>= rest else rest ()) = .ok a) : ¬ c ∧ rest () = .ok a := by
  split at h
  · cases h
  · rename_i passed
    exact ⟨passed, h⟩

/-- The high level of the range dominates the low one. -/
def Ascends (db : EvaluatedDatabase) (range : RangeArg Id) : Prop :=
  ∃ low high, db.evalRange range = .ok (low, high) ∧
    db.sensitivityLe low.sensitivity high.sensitivity = true ∧
    high.categories.covers low.categories = true

/-- The policy permits the context; `mls` says whether levels count. -/
structure Permits (db : EvaluatedDatabase) (mls : Bool) (spec : ContextSpec Id) : Prop where
  role : spec.role ∈ db.userRoles.getD spec.user ∅
  type : spec.type ∈ db.roleTypes.getD spec.role ∅
  range : mls = true → db.Ascends spec.range

theorem ascends_of_check {range : RangeArg Id} (h : db.checkRangeArg range = .ok ()) :
    db.Ascends range := by
  obtain ⟨⟨low, high⟩, hrange, h⟩ := bind_eq_ok.mp h
  dsimp only [checkRange] at h
  split at h
  · cases h
  · rename_i order
    split at h
    · cases h
    · rename_i covers
      exact ⟨low, high, hrange, by simpa using order, by simpa using covers⟩

theorem eq_ok_of_faultOf {ε : Type} {wrap : ε → Violation} {location : Location} {r : Except ε Unit}
    (h : faultOf wrap location r = []) : r = .ok () := by
  cases r with
  | error fault => cases h
  | ok u => rfl

/-- The ranges that have names ascend. -/
theorem Passed.ascends_declared (passed : db.Passed) {id : Id} {range : Option (RangeSpec Id)}
    (h : db.ranges.value? id = some range) : db.Ascends (.named id) := by
  have declarations := passed.declarations
  simp only [declarationFaults, namedLevelFaults, List.append_eq_nil_iff] at declarations
  obtain ⟨⟨⟨_, ⟨_, ranges⟩, _⟩, _⟩, _⟩ := declarations
  obtain ⟨d, hd, _⟩ := Registry.value?_eq_some.mp h
  have silent := List.flatMap_eq_nil_iff.mp ranges (id, d) (Registry.mem_indexed.mpr hd)
  exact ascends_of_check (eq_ok_of_faultOf silent)

theorem Passed.ascends_named (passed : db.Passed) {id : Id} {levels : LevelValue × LevelValue}
    (h : db.evalRange (.named id) = .ok levels) : db.Ascends (.named id) := by
  cases hspec : db.rangeSpec? (.named id) with
  | none =>
    rw [evalRange, hspec] at h
    cases h
  | some spec => exact passed.ascends_declared (Option.join_eq_some_iff.mp hspec)

/-- The ranges that transitions write out ascend. -/
theorem Passed.ascends_given (passed : db.Passed) {r : PlacedRule} (hr : r ∈ db.rules)
    {source target cls : Id} {spec : RangeSpec Id}
    (hrule : r.rule = .rangeTransition source target cls (.given spec)) : db.Ascends (.given spec) := by
  have declarations := passed.declarations
  simp only [declarationFaults, namedLevelFaults, List.append_eq_nil_iff] at declarations
  obtain ⟨⟨⟨_, _, transitions⟩, _⟩, _⟩ := declarations
  have silent := List.flatMap_eq_nil_iff.mp transitions r hr
  rw [hrule] at silent
  exact ascends_of_check (eq_ok_of_faultOf silent)

/-- What the check of a context leaves. -/
theorem checkContext_spec {c : ContextSpec Id} (h : db.checkContext c = .ok ()) :
    c.role ∈ db.userRoles.getD c.user ∅ ∧ c.type ∈ db.roleTypes.getD c.role ∅ ∧
      ∀ spec, c.range = .given spec → db.Ascends c.range := by
  rw [checkContext] at h
  obtain ⟨_, h⟩ := guard_eq_ok h
  obtain ⟨role, h⟩ := guard_eq_ok h
  obtain ⟨_, h⟩ := guard_eq_ok h
  obtain ⟨type, h⟩ := guard_eq_ok h
  rw [Bool.not_eq_true, Bool.not_eq_false'] at role type
  refine ⟨role, type, fun spec hspec => ?_⟩
  rw [hspec] at h ⊢
  obtain ⟨_, checked, _⟩ := bind_eq_ok.mp h
  exact ascends_of_check (mapError_eq_ok.mp checked)

theorem Passed.permits_of_check (passed : db.Passed) {spec : ContextSpec Id} {mls : Bool}
    (checked : db.checkContext spec = .ok ())
    (leveled : mls = true → ∃ levels, db.evalRange spec.range = .ok levels) : db.Permits mls spec := by
  obtain ⟨role, type, given⟩ := checkContext_spec checked
  refine ⟨role, type, fun on => ?_⟩
  cases hrange : spec.range with
  | given spec' => exact hrange ▸ given spec' hrange
  | named id =>
    obtain ⟨levels, hlevels⟩ := leveled on
    exact passed.ascends_named (hrange ▸ hlevels)

theorem Passed.checked_named (passed : db.Passed) {id : Id} {spec : ContextSpec Id}
    (h : db.contextSpec? (.named id) = some spec) : db.checkContext spec = .ok () := by
  obtain ⟨named, _⟩ := List.append_eq_nil_iff.mp passed.contexts
  obtain ⟨d, hd, hspec⟩ := Registry.value?_eq_some.mp (Option.join_eq_some_iff.mp h)
  have silent := List.flatMap_eq_nil_iff.mp named d (Registry.mem_toList_of_get? hd)
  rw [hspec] at silent
  exact eq_ok_of_faultOf silent

/-- The context has passed the check, if it has a meaning at all. -/
def Checked (db : EvaluatedDatabase) (context : ContextArg Id) : Prop :=
  ∀ spec, db.contextSpec? context = some spec → db.checkContext spec = .ok ()

theorem Passed.checked_of_label (passed : db.Passed) {location : Location} {context : ContextArg Id}
    (h : (location, context) ∈ db.labelContexts) : db.Checked context := by
  intro spec hspec
  cases context with
  | named id => exact passed.checked_named hspec
  | given given =>
    cases hspec
    obtain ⟨_, labels⟩ := List.append_eq_nil_iff.mp passed.contexts
    exact eq_ok_of_faultOf (List.flatMap_eq_nil_iff.mp labels _ h)

theorem allContexts_of_labelContexts {p : ContextArg Id → Prop}
    (all : ∀ item ∈ db.labelContexts, p item.2) : db.labels.AllContexts p := by
  simp only [labelContexts, List.forall_mem_append, List.forall_mem_map] at all
  obtain ⟨⟨⟨⟨⟨⟨⟨⟨⟨⟨⟨⟨⟨files, filesystems⟩, genfs⟩, ports⟩, nodes⟩, interfaces⟩, packets⟩, partitionKeys⟩,
    endPorts⟩, interrupts⟩, ioMemory⟩, ioPorts⟩, pciDevices⟩, deviceTrees⟩ := all
  refine ⟨?_, filesystems, genfs, ports, nodes, fun x hx => ⟨interfaces x hx, packets x hx⟩, partitionKeys,
    endPorts, interrupts, ioMemory, ioPorts, pciDevices, deviceTrees⟩
  intro x hx c hc
  exact files (x.location, c) (List.mem_filterMap.mpr ⟨x, hx, by rw [hc]; rfl⟩)

/-- The checks reach the contexts of all labels. -/
theorem Passed.labels_checked (passed : db.Passed) : db.labels.AllContexts db.Checked :=
  allContexts_of_labelContexts fun _ h => passed.checked_of_label h

end EvaluatedDatabase

end CilPolicy
