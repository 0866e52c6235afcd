import CilPolicy.Proofs.Lowering.Fits
import CilPolicy.Proofs.Lowering.RuleEntries

/-!
# Tables of transitions as functions

The transition rules of a policy lead from triggers to outcomes. When some trigger leads to two
outcomes, lowering the rules fails. Otherwise the tables are the function from triggers to outcomes:
they have one entry for each trigger that leads somewhere, and nothing else.
-/

namespace CilPolicy

namespace EvaluatedDatabase

/-- Some rule outside conditionals leads from the trigger to the outcome. -/
def Led (db : EvaluatedDatabase) (mls : Bool) (trigger : Trigger) (outcome : Outcome) : Prop :=
  ∃ r ∈ db.rules, db.Leads mls r.rule trigger outcome

/-- Two rules lead from one trigger to different outcomes. -/
def TransitionsConflict (db : EvaluatedDatabase) (mls : Bool) : Prop :=
  ∃ trigger outcome outcome',
    db.Led mls trigger outcome ∧ db.Led mls trigger outcome' ∧ outcome ≠ outcome'

end EvaluatedDatabase

namespace Lowering

variable {l : Lowering}

/-! ### Values of triggers and outcomes -/

section Represented

variable {trigger trigger' : Trigger} {outcome outcome' : Outcome} {x y : Transition}

/-- A trigger comes under one key. -/
theorem Represents.key_eq (represents : l.Represents trigger outcome x)
    (represents' : l.Represents trigger outcome' y) : x.key = y.key := by
  cases represents with
  | type source target number kinds =>
    cases represents' with
    | type source' target' number' kinds' =>
      refine congrArg TransitionKey.type (AccessKey.ext_toNat ?_ ?_ ?_ (kinds.symm.trans kinds'))
      · exact Option.some.inj (source.symm.trans source')
      · exact Option.some.inj (target.symm.trans target')
      · exact Option.some.inj (number.symm.trans number')
  | named source target number =>
    cases represents' with
    | named source' target' number' =>
      cases source.symm.trans source'
      cases target.symm.trans target'
      cases number.symm.trans number'
      rfl
  | role moved met number =>
    cases represents' with
    | role moved' met' number' =>
      simp only [Transition.key, RoleTransition.key, TransitionKey.role.injEq]
      exact ⟨Option.some.inj (moved.symm.trans moved'), Option.some.inj (met.symm.trans met'),
        number.symm.trans number'⟩
  | range source target number =>
    cases represents' with
    | range source' target' number' =>
      simp only [Transition.key, RangeTransition.key, TransitionKey.range.injEq]
      exact ⟨Option.some.inj (source.symm.trans source'), Option.some.inj (target.symm.trans target'),
        number.symm.trans number'⟩

theorem classNumber_injective {cls cls' : Id} (valued : ∃ v, l.classes.value? cls = some v)
    (valued' : ∃ v, l.classes.value? cls' = some v) (same : l.classNumber cls = l.classNumber cls') :
    cls = cls' := by
  obtain ⟨v, hv⟩ := valued
  obtain ⟨w, hw⟩ := valued'
  rw [classNumber, classNumber, hv, hw] at same
  cases same
  exact Numbering.value?_injective hv hw

/-- Different triggers come under different keys. -/
theorem Represents.trigger_eq (represents : l.Represents trigger outcome x)
    (represents' : l.Represents trigger' outcome' y) (valued : ∃ v, l.classes.value? trigger.cls = some v)
    (valued' : ∃ v, l.classes.value? trigger'.cls = some v) (same : x.key = y.key) : trigger = trigger' := by
  cases represents with
  | type source target number kinds =>
    cases represents' with
    | type source' target' number' kinds' =>
      cases same
      cases Numbering.value?_injective source source'
      cases Numbering.value?_injective target target'
      cases Numbering.value?_injective number number'
      cases TypeRuleKind.kinds_injective (kinds.trans kinds'.symm)
      rfl
    | _ => cases same
  | named source target number =>
    cases represents' with
    | named source' target' number' =>
      cases same
      cases Numbering.value?_injective source source'
      cases Numbering.value?_injective target target'
      cases classNumber_injective valued valued' (number.trans number'.symm)
      rfl
    | _ => cases same
  | role moved met number =>
    cases represents' with
    | role moved' met' number' =>
      obtain ⟨role, type, cls⟩ := TransitionKey.role.inj same
      cases Numbering.value?_injective moved (role ▸ moved')
      cases Numbering.value?_injective met (type ▸ met')
      cases classNumber_injective valued valued' (number.trans (cls.trans number'.symm))
      rfl
    | _ => cases same
  | range source target number =>
    cases represents' with
    | range source' target' number' =>
      obtain ⟨source_eq, target_eq, cls⟩ := TransitionKey.range.inj same
      cases Numbering.value?_injective source (source_eq ▸ source')
      cases Numbering.value?_injective target (target_eq ▸ target')
      cases classNumber_injective valued valued' (number.trans (cls.trans number'.symm))
      rfl
    | _ => cases same

end Represented

theorem rangeFits_of_within {db : Database} {range : RangeArg Id} (within : db.signature.RangeWithin range) :
    db.RangeFits range := by
  have level : ∀ arg, db.signature.LevelWithin arg → db.LevelFits arg := by
    intro arg within
    cases arg with
    | named id => trivial
    | given spec =>
      obtain ⟨_, link⟩ := within.sensitivity
      obtain ⟨info, declared, plain⟩ := Option.map_eq_some_iff.mp link
      exact ⟨info, declared, congrArg Prod.fst plain⟩
  cases range with
  | named id => trivial
  | given spec => exact ⟨level _ within.low, level _ within.high⟩

/-- The sensitivities of levels have values of their own. -/
theorem level_injective (numbered : l.Numbered) (placed : l.db.Placed) {a b : LevelValue}
    (ha : l.db.IsSensitivity a.sensitivity) (hb : l.db.IsSensitivity b.sensitivity) (same : l.level a = l.level b) :
    a = b := by
  have valued : ∀ id, l.db.IsSensitivity id → ∃ v, l.sensitivities.value? id = some v := by
    intro id sensitivity
    rw [numbered.sensitivities]
    exact Numbering.exists_value? (placed.sensitivities id sensitivity)
  obtain ⟨v, hv⟩ := valued _ ha
  obtain ⟨w, hw⟩ := valued _ hb
  obtain ⟨sensitivity, categories⟩ := a
  obtain ⟨sensitivity', categories'⟩ := b
  simp only [level, Level.mk.injEq, hv, hw, Option.getD_some] at same
  obtain ⟨rfl, rfl⟩ := same
  cases Numbering.value?_injective hv hw
  rfl

section Led

variable (numbered : l.Numbered) (passed : l.db.Passed) (closed : l.db.Closed) (fit : l.Narrow)
  {mls : Bool} {trigger trigger' : Trigger} {outcome outcome' : Outcome} {rule rule' : Rule}
  {x y : Transition}

include numbered passed

/-- The class of a trigger has a value. -/
theorem exists_triggerClass (within : l.db.signature.RuleWithin rule)
    (leads : l.db.Leads mls rule trigger outcome) : ∃ v, l.classes.value? trigger.cls = some v := by
  have kernel : l.db.signature.IsKernelClass trigger.cls := by
    cases leads with
    | type => exact within.2.2.1
    | named => exact within.2.2.1
    | role => exact within.2.2.1
    | range => exact within.2.2.1
  exact numbered.exists_kernelValue passed.placed kernel

include fit in
/-- What is led to has values, which fit into an entry. -/
theorem exists_represents (within : l.db.signature.RuleWithin rule)
    (leads : l.db.Leads mls rule trigger outcome) : ∃ x, l.Represents trigger outcome x := by
  have evaluated := passed.evaluated
  have valued := exists_triggerClass numbered passed within leads
  have pairs : ∀ {source target s t}, l.db.Aims source target s t →
      ∃ v w, l.types.value? s = some v ∧ l.types.value? t = some w := by
    intro source target s t aims
    obtain ⟨concrete, concrete'⟩ := evaluated.concrete_of_aims aims
    obtain ⟨v, hv⟩ := numbered.exists_typeValue concrete
    obtain ⟨w, hw⟩ := numbered.exists_typeValue concrete'
    exact ⟨v, w, hv, hw⟩
  cases leads with
  | @type kind _ _ _ _ _ _ aims =>
    obtain ⟨v, w, hv, hw⟩ := pairs aims
    obtain ⟨n, _, hn⟩ := numbered.exists_resultValue within.2.2.2
    obtain ⟨key, hkey⟩ : ∃ key, l.accessKey default (v, w) _ kind.kinds = .ok key :=
      fit.exists_accessKey ⟨Numbering.holds_of_value? hv, Numbering.holds_of_value? hw⟩ valued _
    obtain ⟨source, target, cls, kinds⟩ := accessKey_ok hkey
    exact ⟨.type key (BitVec.ofNat 32 n), .type (source ▸ hv) (target ▸ hw) cls kinds.symm
      (congrArg (Option.map _) hn)⟩
  | @named _ _ cls _ _ _ name aims =>
    obtain ⟨v, w, hv, hw⟩ := pairs aims
    obtain ⟨n, _, hn⟩ := numbered.exists_resultValue within.2.2.2
    exact ⟨.named v ⟨w, l.classNumber cls, name⟩ n, .named hv hw rfl hn⟩
  | @role _ _ cls _ _ _ moved met =>
    obtain ⟨v, hv⟩ := numbered.exists_roleValue evaluated moved
    obtain ⟨w, hw⟩ := numbered.exists_typeValue (evaluated.concrete_of_mem met)
    obtain ⟨n, hn⟩ := numbered.exists_plainRoleValue within.2.2.2
    exact ⟨.role ⟨v, w, n, l.classNumber cls⟩, .role hv hw rfl hn⟩
  | @range _ _ cls _ _ _ levels _ aims =>
    obtain ⟨v, w, hv, hw⟩ := pairs aims
    exact ⟨.range ⟨v, w, l.classNumber cls, l.levelRange levels⟩, .range hv hw rfl rfl⟩

include fit in
/-- Different outcomes have different results. -/
theorem Represents.outcome_eq (within : l.db.signature.RuleWithin rule)
    (within' : l.db.signature.RuleWithin rule') (leads : l.db.Leads mls rule trigger outcome)
    (leads' : l.db.Leads mls rule' trigger outcome') (represents : l.Represents trigger outcome x)
    (represents' : l.Represents trigger outcome' x) : outcome = outcome' := by
  cases leads with
  | type _ =>
    cases leads' with
    | type _ =>
      obtain ⟨n, hn, value⟩ := numbered.exists_resultValue within.2.2.2
      obtain ⟨m, hm, value'⟩ := numbered.exists_resultValue within'.2.2.2
      cases represents with
      | type _ _ _ _ results =>
        cases represents' with
        | type _ _ _ _ results' =>
          rw [resultWord?, value, Option.map_some] at results
          rw [resultWord?, value', Option.map_some, ← results, Option.some.injEq] at results'
          have small := fit.types n (Numbering.holds_of_value? hn)
          have small' := fit.types m (Numbering.holds_of_value? hm)
          have words := congrArg BitVec.toNat results'
          rw [BitVec.toNat_ofNat, BitVec.toNat_ofNat] at words
          have same : m = n := by omega
          rw [Numbering.value?_injective hn (same ▸ hm)]
  | named _ =>
    cases leads' with
    | named _ =>
      obtain ⟨n, hn, value⟩ := numbered.exists_resultValue within.2.2.2
      obtain ⟨m, hm, value'⟩ := numbered.exists_resultValue within'.2.2.2
      cases represents with
      | named _ _ _ results =>
        cases represents' with
        | named _ _ _ results' =>
          cases value.symm.trans results
          cases value'.symm.trans results'
          rw [Numbering.value?_injective hn hm]
  | role _ _ =>
    cases leads' with
    | role _ _ =>
      cases represents with
      | role _ _ _ results =>
        cases represents' with
        | role _ _ _ results' => rw [Numbering.value?_injective results results']
  | range _ _ evaluates =>
    cases leads' with
    | range _ _ evaluates' =>
      cases represents with
      | range _ _ _ results =>
        cases represents' with
        | range _ _ _ results' =>
          obtain ⟨low, high⟩ := LevelRange.mk.inj (results.trans results'.symm)
          obtain ⟨lowPlain, highPlain⟩ := EvaluatedDatabase.isSensitivity_of_evalRange passed.resolved
            (rangeFits_of_within within.2.2.2) evaluates
          obtain ⟨lowPlain', highPlain'⟩ := EvaluatedDatabase.isSensitivity_of_evalRange passed.resolved
            (rangeFits_of_within within'.2.2.2) evaluates'
          rw [Outcome.levels.injEq]
          exact Prod.ext (level_injective numbered passed.placed lowPlain lowPlain' low)
            (level_injective numbered passed.placed highPlain highPlain' high)

end Led

/-! ### Rules that conflict -/

section Rules

variable (numbered : l.Numbered) (passed : l.db.Passed) (closed : l.db.Closed) (given : l.db.ExtendedGiven)
  (fit : l.Narrow) (supported : l.RulesSupported)

include numbered passed closed fit

/-- Transitions that rules bring clash when the rules lead from one trigger to different outcomes. -/
theorem exists_clash_iff :
    (∃ r ∈ l.db.rules, ∃ r' ∈ l.db.rules, ∃ x y, l.Brings r.rule x ∧ l.Brings r'.rule y ∧ x.Clashes y) ↔
      l.db.TransitionsConflict l.settings.mls := by
  have within := closed.within.rules
  constructor
  · rintro ⟨r, hr, r', hr', x, y, ⟨trigger, outcome, leads, represents⟩,
      ⟨trigger', outcome', leads', represents'⟩, same, differ⟩
    have valued := exists_triggerClass numbered passed (within r hr) leads
    have valued' := exists_triggerClass numbered passed (within r' hr') leads'
    cases represents.trigger_eq represents' valued valued' same
    refine ⟨trigger, outcome, outcome', ⟨r, hr, leads⟩, ⟨r', hr', leads'⟩, ?_⟩
    rintro rfl
    exact differ (represents.eq_of_key represents' same)
  · rintro ⟨trigger, outcome, outcome', ⟨r, hr, leads⟩, ⟨r', hr', leads'⟩, differ⟩
    obtain ⟨x, represents⟩ := exists_represents numbered passed fit (within r hr) leads
    obtain ⟨y, represents'⟩ := exists_represents numbered passed fit (within r' hr') leads'
    refine ⟨r, hr, r', hr', x, y, ⟨trigger, outcome, leads, represents⟩,
      ⟨trigger, outcome', leads', represents'⟩, represents.key_eq represents', ?_⟩
    rintro rfl
    exact differ (represents.outcome_eq numbered passed fit (within r hr) (within r' hr') leads leads'
      represents')

include given supported in
theorem rules_done_iff_consistent :
    l.rules.faults = [] ↔ ¬ l.db.TransitionsConflict l.settings.mls := by
  have fits := fits_of_passed numbered passed closed given fit supported
  rw [rules_done_iff passed.evaluated, and_iff_right fits, ← exists_clash_iff numbered passed closed fit]
  push Not
  rfl

end Rules

end Lowering

/-! ### Entries of the tables -/

/-- What the entries of the tables say of transitions. -/
def transitionEntries (rules : AccessTable) (named : FilenameTransitions) (roles : List RoleTransition)
    (ranges : List RangeTransition) : List Transition :=
  (rules.toList.filter (·.key.kinds ∈ RuleKinds.resultKinds)).map (fun e => .type e.key e.datum.data)
    ++ named.rules.map (fun (key, result, bit) => .named (bit + 1) key result)
    ++ roles.map .role ++ ranges.map .range

def KernelPolicy.transitions (k : KernelPolicy) : List Transition :=
  transitionEntries k.rules k.filenameTransitions k.roleTransitions k.rangeTransitions

namespace RuleTables

variable {t : RuleTables} {table : AccessTable}

theorem mem_transitionEntries (keyed : t.Keyed) (kinds : t.access.KindsFit)
    (results : AccessRules.ResultsFit {} t.access) (listed : table.toList.Perm t.access.toEntries)
    {x : Transition} :
    x ∈ transitionEntries table t.named t.roleTransitions t.rangeTransitions ↔ t.Holds x := by
  rw [transitionEntries]
  simp only [List.mem_append, List.mem_map, List.mem_filter, listed.mem_iff, decide_eq_true_eq]
  cases x with
  | type key word =>
    simp only [Holds, reduceCtorEq, and_false, exists_false, or_false, Transition.type.injEq]
    constructor
    · rintro ⟨e, ⟨he, result⟩, rfl, rfl⟩
      exact ⟨result, ((results.mem_toEntries_iff kinds result).mp he).1⟩
    · rintro ⟨result, found⟩
      exact ⟨⟨key, .ofWord word⟩, ⟨(results.mem_toEntries_iff kinds result).mpr ⟨found, rfl⟩, result⟩, rfl, rfl⟩
  | named source key result =>
    simp only [Holds, reduceCtorEq, and_false, exists_false, or_false, false_or, Transition.named.injEq]
    constructor
    · rintro ⟨⟨key', result', bit⟩, mem, rfl, rfl, rfl⟩
      exact ⟨Nat.succ_pos bit, keyed.named.mem_rules.mp mem⟩
    · rintro ⟨positive, found⟩
      obtain ⟨bit, rfl⟩ := Nat.exists_eq_add_of_lt positive
      rw [Nat.zero_add] at found ⊢
      exact ⟨(key, result, bit), keyed.named.mem_rules.mpr found, rfl, rfl, rfl⟩
  | role r => simp [Holds]
  | range r => simp [Holds]

theorem nodup_transitionEntries (keyed : t.Keyed) (kinds : t.access.KindsFit) (once : t.access.Once)
    (listed : table.toList.Perm t.access.toEntries) :
    ((transitionEntries table t.named t.roleTransitions t.rangeTransitions).map Transition.key).Nodup := by
  have apart : ((table.toList.filter (·.key.kinds ∈ RuleKinds.resultKinds)).map (·.key)).Nodup := by
    refine ((listed.filter _).map _).nodup_iff.mpr (List.pairwise_map.mpr ?_)
    refine ((once.pairwise_toEntries kinds).filter _).imp_of_mem fun {f e} _ he answers same => ?_
    have result := of_decide_eq_true (List.mem_filter.mp he).2
    have word := RuleKinds.resultKinds_subset result
    have single := RuleKinds.words_subset word
    refine answers (RuleKinds.not_extended _ word) ⟨congrArg _ same, congrArg _ same, congrArg _ same, ?_⟩
    rw [RuleKinds.plain_of_mem _ single, same]
    exact RuleKinds.overlap_self single
  have types := apart.map (f := TransitionKey.type) fun _ _ same => TransitionKey.type.inj same
  have names := keyed.named.nodup_rules.map (f := fun r => TransitionKey.named (r.2 + 1) r.1) (by
    rintro ⟨key, bit⟩ ⟨key', bit'⟩ same
    obtain ⟨sources, rfl⟩ := TransitionKey.named.inj same
    cases sources
    rfl)
  rw [List.map_map] at types names
  rw [transitionEntries, List.map_append, List.map_append, List.map_append, List.map_map, List.map_map,
    List.map_map, List.map_map]
  -- Keys of different tables differ in their kind.
  refine List.nodup_append.mpr ⟨List.nodup_append.mpr ⟨List.nodup_append.mpr ⟨types, names, ?_⟩,
    keyed.roles, ?_⟩, keyed.ranges, ?_⟩
  all_goals
    intro k hk k' hk' same
    simp only [List.mem_append, List.mem_map] at hk hk'
    obtain ⟨_, _, rfl⟩ := hk'
  · obtain ⟨_, _, rfl⟩ := hk
    cases same
  · obtain ⟨_, _, rfl⟩ | ⟨_, _, rfl⟩ := hk <;> cases same
  · obtain (⟨_, _, rfl⟩ | ⟨_, _, rfl⟩) | ⟨_, _, rfl⟩ := hk <;> cases same

end RuleTables

/-! ### Tables and rules -/

namespace Lowering

/-- Entries and what the rules lead to correspond to each other: one entry for each trigger, with the
result of its outcome, and no others. -/
structure Tabulates (l : Lowering) (entries : List Transition) : Prop where
  once : (entries.map Transition.key).Nodup
  results : ∀ trigger outcome, l.db.Led l.settings.mls trigger outcome → ∃ x ∈ entries,
    l.Represents trigger outcome x ∧ ∀ y ∈ entries, ∀ other, l.Represents trigger other y → y = x
  sources : ∀ x ∈ entries, ∃ trigger outcome, l.db.Led l.settings.mls trigger outcome ∧
    l.Represents trigger outcome x ∧ ∀ trigger' outcome', l.db.Led l.settings.mls trigger' outcome' →
      l.Represents trigger' outcome' x → trigger' = trigger ∧ outcome' = outcome

variable {l : Lowering} {k : KernelPolicy}

/-- When no rule has a fault, the tables of the rules are the function that the rules denote. -/
theorem tabulates_rules (numbered : l.Numbered) (passed : l.db.Passed) (closed : l.db.Closed) (fit : l.Narrow)
    (done : l.rules.faults = []) {table : AccessTable}
    (listed : table.toList.Perm l.rules.table.access.toEntries) :
    l.Tabulates (transitionEntries table l.rules.table.named l.rules.table.roleTransitions
      l.rules.table.rangeTransitions) := by
  have within := closed.within.rules
  have keyed := keyed_rules passed.evaluated
  have once := RuleTables.nodup_transitionEntries keyed rules_kindsFit rules_once listed
  have brought : ∀ x, x ∈ transitionEntries table l.rules.table.named l.rules.table.roleTransitions
      l.rules.table.rangeTransitions ↔ ∃ r ∈ l.db.rules, l.Brings r.rule x := fun x =>
    (RuleTables.mem_transitionEntries keyed rules_kindsFit (resultsFit_accessAt .top) listed).trans
      (holds_rules_iff passed.evaluated done x)
  refine ⟨once, ?_, ?_⟩
  · rintro trigger outcome ⟨r, hr, leads⟩
    obtain ⟨x, represents⟩ := exists_represents numbered passed fit (within r hr) leads
    have hx := (brought x).mpr ⟨r, hr, trigger, outcome, leads, represents⟩
    exact ⟨x, hx, represents, fun y hy other represents' =>
      List.inj_on_of_nodup_map once hy hx (represents'.key_eq represents)⟩
  · intro x hx
    obtain ⟨r, hr, trigger, outcome, leads, represents⟩ := (brought x).mp hx
    refine ⟨trigger, outcome, ⟨r, hr, leads⟩, represents, ?_⟩
    rintro trigger' outcome' ⟨r', hr', leads'⟩ represents'
    have valued := exists_triggerClass numbered passed (within r hr) leads
    have valued' := exists_triggerClass numbered passed (within r' hr') leads'
    obtain rfl := represents'.trigger_eq represents valued' valued rfl
    exact ⟨rfl, represents'.outcome_eq numbered passed fit (within r' hr') (within r hr) leads' leads
      represents⟩

end Lowering

namespace EvaluatedDatabase

variable {db : EvaluatedDatabase} {settings : Settings} {options : LoweringOptions}

/-- The rules of a verified policy are lowered with a fault exactly when two of them lead from one
trigger to different outcomes. Otherwise the tables of the rules are the function that the rules
denote, and so are the tables of every policy that is lowered. -/
theorem transitions_tabulated (verified : db.Verified) (fit : (Lowering.new db settings options).Narrow)
    (supported : (Lowering.new db settings options).RulesSupported) :
    ((∃ d, (Lowering.new db settings options).rules.report.outcome.1 = .error d) ↔
      db.TransitionsConflict settings.mls) ∧
    (∀ t, (Lowering.new db settings options).rules.report.outcome.1 = .ok t →
      ∃ table, Lowering.accessTable t.access = .ok table ∧ (Lowering.new db settings options).Tabulates
        (transitionEntries table t.named t.roleTransitions t.rangeTransitions)) ∧
    ∀ k, (db.lower settings options).outcome.1 = .ok k →
      (Lowering.new db settings options).Tabulates k.transitions := by
  have numbered := Lowering.numbered_new db settings options
  have passed : (Lowering.new db settings options).db.Passed := verified.passed
  have closed : (Lowering.new db settings options).db.Closed := verified.linked.1
  have done_iff : _ ↔ ¬ db.TransitionsConflict settings.mls :=
    Lowering.rules_done_iff_consistent numbered passed closed verified.extendedGiven fit supported
  obtain ⟨table, made, listed⟩ :=
    (Lowering.rules_once (l := Lowering.new db settings options)).exists_accessTable Lowering.rules_kindsFit
  refine ⟨?_, fun t run => ?_, fun k run => ?_⟩
  · rw [← not_not (a := db.TransitionsConflict settings.mls), ← done_iff]
    cases run : (Lowering.new db settings options).rules.report.outcome.1 with
    | ok t => exact iff_of_false (by simp) (not_not.mpr (Step.Gathered.report_ok_iff.mp run).1)
    | error d =>
      refine iff_of_true ⟨d, rfl⟩ fun none => ?_
      rw [Step.Gathered.report_ok_iff.mpr ⟨none, rfl⟩] at run
      cases run
  · obtain ⟨done, rfl⟩ := Step.Gathered.report_ok_iff.mp run
    exact ⟨table, made, Lowering.tabulates_rules numbered passed closed fit done listed⟩
  · have built := built_of_lower run
    have filled := Lowering.filled_of_policy (Report.yields_of_outcome run)
    cases made.symm.trans built.rules
    rw [KernelPolicy.transitions, filled.filenameTransitions, filled.roleTransitions, filled.rangeTransitions]
    exact Lowering.tabulates_rules numbered passed closed fit built.rulesDone listed

/-- A policy with two type transitions that overlap and agree, beside transitions of the other kinds. -/
def overlappingPolicy : List Statement :=
  linkedPolicy ++ [.typeRule .transition "both" "c" "file" "a", .typeRule .transition "a" "a" "file" "c"].map
    (Statement.plain {})

theorem overlappingPolicy_lowers : lowersTo overlappingPolicy {} (fun db settings k =>
    decide ((Lowering.new db settings {}).types.size < 65536) &&
    decide ((Lowering.new db settings {}).classes.size < 65536) &&
    decide (∀ kind ∈ [TransitionKind.type, .named, .role, .range], kind ∈ k.transitions.map Transition.kind)) =
      true := by
  decide +kernel

/-- The tables of the policy are a function with entries of all kinds. -/
theorem transitions_tabulated_overlapping : ∃ (db : EvaluatedDatabase) (settings : Settings)
    (k : KernelPolicy), db.Verified ∧ (Lowering.new db settings {}).Narrow ∧
      (Lowering.new db settings {}).RulesSupported ∧ ¬ db.TransitionsConflict settings.mls ∧
      (Lowering.new db settings {}).Tabulates k.transitions ∧
      ∀ kind ∈ [TransitionKind.type, .named, .role, .range], kind ∈ k.transitions.map Transition.kind := by
  obtain ⟨db, settings, k, verified, run, tested⟩ := exists_lowered overlappingPolicy_lowers
  simp only [Bool.and_eq_true, decide_eq_true_eq] at tested
  obtain ⟨⟨types, classes⟩, kinds⟩ := tested
  have fit : (Lowering.new db settings {}).Narrow :=
    ⟨fun v holds => Nat.lt_of_le_of_lt holds.2 types, fun v holds => Nat.lt_of_le_of_lt holds.2 classes⟩
  have supported : (Lowering.new db settings {}).RulesSupported := by
    intro r _
    cases r.rule with
    | namedTransition => exact rfl
    | extended => exact .inr rfl
    | _ => trivial
  obtain ⟨conflict, _, tabulates⟩ := transitions_tabulated verified fit supported
  have done := (Lowering.built_of_policy (Report.yields_of_outcome run)).rulesDone
  refine ⟨db, settings, k, verified, fit, supported, fun clash => ?_, tabulates k run, kinds⟩
  obtain ⟨d, failed⟩ := conflict.mpr clash
  rw [Step.Gathered.report_ok_iff.mpr ⟨done, rfl⟩] at failed
  cases failed

end EvaluatedDatabase

end CilPolicy
