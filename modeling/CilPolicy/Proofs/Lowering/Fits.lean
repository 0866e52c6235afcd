import CilPolicy.Proofs.Database.Given
import CilPolicy.Proofs.Lowering.Values

/-!
# Rules that fit

In a verified policy the classes and results of all rules have values, and the sets and ranges that
they name are given. So each rule fits, as long as values fit into keys and the version has rules of
its kind.
-/

namespace CilPolicy

namespace EvaluatedDatabase

variable {db : EvaluatedDatabase}

/-- Every name of extended permissions stands for a set of them. -/
def ExtendedGiven (db : EvaluatedDatabase) : Prop :=
  ∀ id spec, db.extendedSets.value? id = some spec → spec.isSome = true

theorem Verified.extendedGiven (verified : db.Verified) : db.ExtendedGiven := by
  obtain ⟨_, _, _, ordered, _, _, resolve, order, _, evaluate, _⟩ := verified
  obtain ⟨_, hresolved, run⟩ := Report.yields_bind (Report.yields_of_outcome resolve)
  obtain ⟨_, _, run⟩ := Report.yields_bind run
  cases Report.yields_pure run
  obtain ⟨rfl, _⟩ := Database.order_spec (Report.yields_of_outcome order)
  obtain ⟨_, same⟩ := OrderedDatabase.evaluate_spec (Report.yields_of_outcome evaluate)
  intro id spec given
  rw [same] at given
  exact Database.extendedSets_given (Report.yields_lift hresolved) given

/-- The range of a transition has levels. -/
theorem Passed.evalRange_rule (passed : db.Passed) {r : PlacedRule} (hr : r ∈ db.rules)
    {source target cls : Id} {range : RangeArg Id} (hrule : r.rule = .rangeTransition source target cls range)
    (within : db.signature.RangeWithin range) : ∃ levels, db.evalRange range = .ok levels := by
  have ascends : db.Ascends range := by
    cases range with
    | named id =>
      obtain ⟨value, hvalue⟩ := Registry.exists_value? within
      exact passed.ascends_declared hvalue
    | given spec => exact passed.ascends_given hr hrule
  obtain ⟨low, high, levels, _⟩ := ascends
  exact ⟨(low, high), levels⟩

end EvaluatedDatabase

theorem Database.Closed.exists_extendedSpec {db : EvaluatedDatabase} (closed : db.Closed)
    (given : db.ExtendedGiven) {permissions : ExtendedArg Id BitSet}
    (within : db.signature.ExtendedWithin permissions) :
    ∃ spec, db.extendedSpec? permissions = some spec ∧ db.signature.IsKernelClass spec.cls := by
  cases permissions with
  | given spec => exact ⟨spec, rfl, within⟩
  | named id =>
    obtain ⟨value, hvalue⟩ := Registry.exists_value? within
    obtain ⟨spec, rfl⟩ := Option.isSome_iff_exists.mp (given id value hvalue)
    exact ⟨spec, Option.join_eq_some_iff.mpr hvalue, closed.within.extendedSets id _ hvalue spec rfl⟩

namespace Lowering

variable {l : Lowering} {location : Location}

/-- The values of types and of classes fit into keys. -/
structure Narrow (l : Lowering) : Prop where
  types : ∀ v, l.types.Holds v → v < 65536
  classes : ∀ v, l.classes.Holds v → v < 65536

/-- The version has the kinds of the rules outside conditionals. Extended permissions that are
forbidden are not written. -/
def RulesSupported (l : Lowering) : Prop :=
  ∀ r ∈ l.db.rules, match r.rule with
    | .namedTransition .. => l.options.version.supports .filenameTransitions = true
    | .extended kind .. => kind = .neverAllow ∨ l.options.version.supports .extendedPermissions = true
    | _ => True

theorem Narrow.exists_accessKey (fit : l.Narrow) {pair : Nat × Nat}
    (holds : l.types.Holds pair.1 ∧ l.types.Holds pair.2) {cls : Id} (valued : ∃ v, l.classes.value? cls = some v)
    (kinds : RuleKinds) : ∃ key, l.accessKey location pair cls kinds = .ok key := by
  obtain ⟨v, hcls⟩ := valued
  have fits : ∀ field n, n < 65536 → narrow location field n = .ok (UInt16.ofNat n) :=
    fun _ _ small => if_pos small
  rw [accessKey, hcls]
  dsimp only
  rw [fits .type _ (fit.types _ holds.1), fits .type _ (fit.types _ holds.2),
    fits .cls v (fit.classes v (Numbering.holds_of_value? hcls))]
  exact ⟨_, rfl⟩

/-- Every rule of a verified policy fits. -/
theorem fits_of_passed (numbered : l.Numbered) (passed : l.db.Passed) (closed : l.db.Closed)
    (given : l.db.ExtendedGiven) (fit : l.Narrow) (supported : l.RulesSupported) :
    ∀ r ∈ l.db.rules, l.Fits r := by
  intro r hr
  have within := closed.within.rules r hr
  have supports := supported r hr
  have valued : ∀ {cls}, l.db.signature.IsKernelClass cls → ∃ v, l.classes.value? cls = some v :=
    numbered.exists_kernelValue passed.placed
  rw [Fits]
  cases hrule : r.rule with
  | access kind source target permissions =>
    rw [hrule] at within
    intro kinds _ item hitem
    obtain ⟨pair, hpair, hitem⟩ := List.mem_flatMap.mp hitem
    obtain ⟨g, hg, rfl⟩ := List.mem_map.mp hitem
    obtain ⟨c, hc, plain, _⟩ := closed.grants_inside within.2.2 g (List.mem_filter.mp hg).1
    exact fit.exists_accessKey (holds_pairsWith (fun _ => holds_ruleTypes) pair hpair)
      (numbered.exists_classValue passed.placed hc plain) kinds
  | extended kind source target permissions =>
    rw [hrule] at within supports
    obtain ⟨spec, hspec, kernel⟩ := closed.exists_extendedSpec given within.2.2
    refine ⟨spec, hspec, fun kinds hkinds => ⟨supports.resolve_left ?_, fun pair hpair => ?_⟩⟩
    · rintro rfl
      cases hkinds
    · exact fit.exists_accessKey (holds_pairsWith (fun _ => holds_ruleTypes) pair hpair) (valued kernel) kinds
  | type kind source target cls result =>
    rw [hrule] at within
    obtain ⟨_, _, kernel, concrete⟩ := within
    obtain ⟨v, _, hv⟩ := numbered.exists_resultValue concrete
    refine ⟨⟨v, hv⟩, fun pair hpair => ?_⟩
    exact fit.exists_accessKey (holds_pairsWith (fun _ => holds_concreteTypes) pair hpair) (valued kernel) _
  | namedTransition source target cls name result =>
    rw [hrule] at within supports
    obtain ⟨_, _, _, concrete⟩ := within
    obtain ⟨v, _, hv⟩ := numbered.exists_resultValue concrete
    exact ⟨supports, v, hv⟩
  | roleTransition source target cls result =>
    rw [hrule] at within
    obtain ⟨_, _, _, plain⟩ := within
    exact numbered.exists_plainRoleValue plain
  | roleAllow source target => trivial
  | rangeTransition source target cls range =>
    rw [hrule] at within
    exact fun _ => passed.evalRange_rule hr hrule within.2.2.2

end Lowering

end CilPolicy
