import CilPolicy.Proofs.Lowering.NeverAllow
import CilPolicy.Proofs.Lowering.RuleContents
import CilPolicy.Proofs.Lowering.RuleFree
import CilPolicy.Proofs.Lowering.TransitionTables

/-!
# Rules in any order

A policy is lowered exactly when each of its parts is: the symbols have values, no rule has a fault,
the table holds the entries, nothing that is forbidden is allowed, and the labels have contexts. The
messages of one part have no influence on the others.

The rules outside conditionals may stand in any order. What they bring and tell is a matter of the
single rules, and so is what they forbid; conditionals only look up results of theirs. So the policy
is lowered in each order or in none, and always to the same rules.
-/

namespace CilPolicy

/-! ### When a policy is lowered -/

section Parts

open Report

theorem Step.Gathered.always_report {σ : Type} {g : Step.Gathered σ} (done : g.faults = []) :
    g.report.Always g.table := by
  intro before
  rw [report, done]
  exact ⟨before ++ g.messages, rfl⟩

namespace Lowering

variable {l : Lowering}

theorem steady_ignored (keyword : String) (count : Nat) : (l.ignored keyword count).Steady := by
  rw [ignored]
  split
  · exact steady_pure _
  · exact steady_say _ _

theorem steady_objects : l.objects.Steady := by
  refine (steady_lift _).bind fun sids => ?_
  cases l.options.target with
  | selinux =>
    refine (steady_lift _).bind fun _ => (steady_lift _).bind fun _ => (steady_lift _).bind fun _ =>
      (steady_lift _).bind fun _ => (steady_lift _).bind fun _ => (steady_lift _).bind fun _ => ?_
    exact (steady_ignored _ _).bind fun _ => (steady_ignored _ _).bind fun _ =>
      (steady_ignored _ _).bind fun _ => (steady_ignored _ _).bind fun _ =>
      (steady_ignored _ _).bind fun _ => steady_pure _
  | xen =>
    refine (steady_lift _).bind fun _ => (steady_lift _).bind fun _ => (steady_lift _).bind fun _ =>
      (steady_lift _).bind fun _ => (steady_lift _).bind fun _ => ?_
    exact (steady_ignored _ _).bind fun _ => (steady_ignored _ _).bind fun _ =>
      (steady_ignored _ _).bind fun _ => (steady_ignored _ _).bind fun _ =>
      (steady_ignored _ _).bind fun _ => (steady_ignored _ _).bind fun _ => steady_pure _

/-- The table of the conditionals. -/
def conditionalRules (l : Lowering) : AccessTable :=
  (l.conditionalTable l.loweredConditionals.table.conditionals).2

/-- All parts of the policy are lowered. -/
structure PartsLowered (l : Lowering) : Prop where
  symbols : ∃ base, l.symbols = .ok base
  rules : l.rules.faults = []
  conditionals : l.loweredConditionals.faults = []
  table : ∃ table, accessTable l.rules.table.access = .ok table ∧
    (l.options.checkNeverAllow = true →
      ∀ rule ∈ l.allNeverAllows, l.breaches [table, l.conditionalRules] rule = [])
  objects : ∃ objects, l.objects.Yields objects
  genfs : ∃ genfs, l.genfs = .ok genfs

/-- A policy is lowered exactly when all its parts are. -/
theorem exists_policy_iff : (∃ k, l.policy.outcome.1 = .ok k) ↔ l.PartsLowered := by
  constructor
  · rintro ⟨k, run⟩
    have built := built_of_policy (yields_of_outcome run)
    obtain ⟨base, symbols, _⟩ := yields_bind (yields_of_outcome run)
    refine ⟨⟨base, yields_lift symbols⟩, built.rulesDone, built.conditionalsDone, ⟨k.rules, built.rules, ?_⟩,
      ⟨_, built.objects⟩, _, built.genfs⟩
    rw [conditionalRules, built.conditionals]
    exact fun check => breaches_of_checkNeverAllows (built.checked check)
  · rintro ⟨⟨base, symbols⟩, rules, conditionals, ⟨table, made, unbroken⟩, ⟨objects, labels⟩, genfs, files⟩
    have labeled : ∀ next : ObjectContexts → List Genfs → KernelPolicy, ∃ k,
        (do return next (← l.objects) (← l.genfs) : Report KernelPolicy).Always k := fun next =>
      (steady_objects.always labels).bind ((always_lift files).bind (exists_always_pure _))
    suffices always : ∃ k, l.policy.Always k from always.imp fun _ always => always.outcome
    refine (always_lift symbols).bind ((Step.Gathered.always_report rules).bind
      ((Step.Gathered.always_report conditionals).bind
        ((always_lift (mapError_eq_ok.mpr made)).bind ?_)))
    dsimp only
    split
    · rename_i check
      have silent : (l.checkNeverAllows [table, l.conditionalRules] l.allNeverAllows).Always () := by
        rw [checkNeverAllows_eq (unbroken check)]
        exact fun before => ⟨before, rfl⟩
      exact silent.bind (labeled _)
    · exact labeled _

end Lowering

end Parts

namespace Lowering

variable {l : Lowering}

/-! ### Tables with the same entries -/

section Tables

variable {table table' : AccessTable} (perm : table.toList.Perm table'.toList)

include perm

theorem reaches_congr (key : AccessKey) : reaches table key = reaches table' key := by
  have records : (allowedRecords table key).Perm (allowedRecords table' key) := perm.filter _
  funext numbers
  rw [reaches, reaches, records.any_eq, records.isEmpty_eq]

/-- Tables with the same entries break the same rules. -/
theorem breaches_congr (others : List AccessTable) (rule : NeverAllow) :
    l.breaches (table :: others) rule = [] ↔ l.breaches (table' :: others) rule = [] := by
  have breach : ∀ e, l.breach? rule table e = l.breach? rule table' e := fun e => by
    rw [breach?, breach?, reaches_congr perm]
  simp only [breaches_eq_nil, List.forall_mem_cons, perm.mem_iff, breach]

end Tables

/-! ### Conditionals look results up -/

/-- Conditionals are lowered alike beside rules with the same words. -/
theorem conditionals_congr {base base' : AccessRules} (same : base.word? = base'.word?) :
    l.conditionals base = l.conditionals base' := by
  have result : l.addResult base = l.addResult base' := by
    unfold addResult
    rw [same]
  unfold conditionals addConditional armRules addArmRule addTypeRule
  rw [result]

/-! ### Roles that are allowed -/

/-- The rule allows the change from one role to the other. -/
def Allows (l : Lowering) (rule : Rule) (a : RoleAllow) : Prop :=
  match rule with
  | .roleAllow source target => a.role ∈ l.concreteRoles source ∧ a.newRole ∈ l.concreteRoles target
  | _ => False

theorem mem_foldl_addNew {α : Type} [DecidableEq α] {items table : List α} {a : α} :
    a ∈ items.foldl addNew table ↔ a ∈ table ∨ a ∈ items := by
  induction items generalizing table with
  | nil => simp
  | cons b rest ih =>
    have first : a ∈ addNew table b ↔ a ∈ table ∨ a = b := by
      rw [addNew]
      split
      · rename_i there
        exact (or_iff_left_of_imp fun same => same ▸ there).symm
      · simp
    rw [List.foldl_cons, ih, first, or_assoc, List.mem_cons]

theorem addRule_roleAllows {t : RuleTables} {r : PlacedRule} {a : RoleAllow} :
    a ∈ (l.addRule t r).table.roleAllows ↔ a ∈ t.roleAllows ∨ l.Allows r.rule a := by
  obtain ⟨location, rule⟩ := r
  cases rule with
  | roleAllow source target =>
    refine mem_foldl_addNew.trans (or_congr_right ?_)
    simp only [Allows, List.mem_flatMap, List.mem_map]
    constructor
    · rintro ⟨role, hrole, newRole, hnew, rfl⟩
      exact ⟨hrole, hnew⟩
    · rintro ⟨hrole, hnew⟩
      exact ⟨a.role, hrole, a.newRole, hnew, rfl⟩
  | access kind source target permissions =>
    obtain ⟨_, _, same⟩ := l.addAccess_only t location kind source target permissions
    exact (congrArg (a ∈ RuleTables.roleAllows ·) same).to_iff.trans (or_iff_left id).symm
  | extended kind source target permissions =>
    obtain ⟨_, _, same⟩ := l.addExtended_only t location kind source target permissions
    exact (congrArg (a ∈ RuleTables.roleAllows ·) same).to_iff.trans (or_iff_left id).symm
  | type kind source target cls result =>
    obtain ⟨_, same⟩ := l.addTypeRule_only t location {} kind source target cls result
    exact (congrArg (a ∈ RuleTables.roleAllows ·) same).to_iff.trans (or_iff_left id).symm
  | namedTransition source target cls name result =>
    obtain ⟨_, same⟩ := l.addNamedTransition_only t location source target cls name result
    exact (congrArg (a ∈ RuleTables.roleAllows ·) same).to_iff.trans (or_iff_left id).symm
  | roleTransition source target cls result =>
    obtain ⟨_, same⟩ := l.addRoleTransition_only t location source target cls result
    exact (congrArg (a ∈ RuleTables.roleAllows ·) same).to_iff.trans (or_iff_left id).symm
  | rangeTransition source target cls range =>
    obtain ⟨_, same⟩ := l.addRangeTransition_only t location source target cls range
    exact (congrArg (a ∈ RuleTables.roleAllows ·) same).to_iff.trans (or_iff_left id).symm

theorem gathered_roleAllows {items : List PlacedRule} (done : (Step.gather l.addRule {} items).faults = [])
    {a : RoleAllow} :
    a ∈ (Step.gather l.addRule {} items).table.roleAllows ↔ ∃ r ∈ items, l.Allows r.rule a := by
  refine (Step.gather_iff (fun t : RuleTables => a ∈ t.roleAllows) (fun t r _ _ => ?_) done).trans
    (or_iff_right List.not_mem_nil)
  exact addRule_roleAllows

/-! ### Other orders -/

variable {rules : List PlacedRule}

theorem rules_withRules : (l.withRules rules).rules = Step.gather l.addRule {} rules := by
  rw [Lowering.rules, addRule_withRules]
  rfl

theorem mem_neverAllows_withRules {rule : NeverAllow} :
    rule ∈ (l.withRules rules).rules.table.neverAllows ↔ ∃ r ∈ rules, l.forbidding? r = some rule := by
  have forbidding : (l.withRules rules).forbidding? = l.forbidding? := by
    funext r
    unfold forbidding?
    rw [withRules, EvaluatedDatabase.grants_withRules]
    rfl
  rw [mem_rules_neverAllows, forbidding]
  rfl

section Permuted

variable (passed : l.db.Passed) (perm : rules.Perm l.db.rules)

include passed perm

theorem rules_done_withRules : (l.withRules rules).rules.faults = [] ↔ l.rules.faults = [] := by
  rw [rules_withRules, gathered_done_iff passed.evaluated, rules_done_iff passed.evaluated]
  simp only [perm.mem_iff]

theorem holds_withRules (done : l.rules.faults = []) (x : Transition) :
    (l.withRules rules).rules.table.Holds x ↔ l.rules.table.Holds x := by
  have done' := (rules_done_withRules passed perm).mpr done
  rw [rules_withRules] at done' ⊢
  rw [gathered_holds_iff passed.evaluated done', holds_rules_iff passed.evaluated done]
  simp only [perm.mem_iff]

theorem agrees_withRules (done : l.rules.faults = []) :
    (l.withRules rules).rules.table.access.Agrees l.rules.table.access := by
  refine ⟨fun key kinds => Option.ext fun word => ?_, fun fact granted => ?_⟩
  · have holds := holds_withRules passed perm done (.type key word)
    exact (and_congr_right_iff.mp holds) kinds
  · have done' := (rules_done_withRules passed perm).mpr done
    rw [rules_withRules] at done' ⊢
    rw [gathered_tells_iff passed (fun r hr => passed.resolved.rules r (perm.mem_iff.mp hr)) done' granted]
    refine Iff.trans ?_ (gathered_tells_iff passed passed.resolved.rules done granted).symm
    simp only [perm.mem_iff]

theorem roleAllows_withRules (done : l.rules.faults = []) {a : RoleAllow} :
    a ∈ (l.withRules rules).rules.table.roleAllows ↔ a ∈ l.rules.table.roleAllows := by
  have done' := (rules_done_withRules passed perm).mpr done
  rw [rules_withRules] at done' ⊢
  refine (gathered_roleAllows done').trans (Iff.trans ?_ (gathered_roleAllows done).symm)
  simp only [perm.mem_iff]

theorem toEntries_withRules (done : l.rules.faults = []) :
    (l.withRules rules).rules.table.access.toEntries.Perm l.rules.table.access.toEntries := by
  refine (agrees_withRules passed perm done).toEntries_perm rules_once rules_once rules_kindsFit rules_kindsFit
    ?_ (gathered_numbersFit passed passed.resolved.rules)
  rw [rules_withRules]
  exact gathered_numbersFit passed fun r hr => passed.resolved.rules r (perm.mem_iff.mp hr)

/-- The tables of the rules are made in both orders, and hold the same entries. -/
theorem exists_accessTables (done : l.rules.faults = []) :
    ∃ table table', accessTable l.rules.table.access = .ok table ∧
      accessTable (l.withRules rules).rules.table.access = .ok table' ∧ table.toList.Perm table'.toList := by
  obtain ⟨table, made, listed⟩ := (rules_once (l := l)).exists_accessTable rules_kindsFit
  obtain ⟨table', made', listed'⟩ := (rules_once (l := l.withRules rules)).exists_accessTable rules_kindsFit
  exact ⟨table, table', made, made',
    listed.trans ((toEntries_withRules passed perm done).symm.trans listed'.symm)⟩

theorem loweredConditionals_withRules (done : l.rules.faults = []) :
    (l.withRules rules).loweredConditionals = l.loweredConditionals := by
  have words := (agrees_withRules passed perm done).word?_eq rules_once rules_once rules_kindsFit rules_kindsFit
  rw [loweredConditionals, conditionals_withRules, conditionals_congr words]
  rfl

/-- The same rules are checked. -/
theorem mem_allNeverAllows_withRules (done : l.rules.faults = []) {rule : NeverAllow} :
    rule ∈ (l.withRules rules).allNeverAllows ↔ rule ∈ l.allNeverAllows := by
  rw [allNeverAllows, allNeverAllows, loweredConditionals_withRules passed perm done, List.mem_append,
    List.mem_append, mem_neverAllows_withRules, mem_rules_neverAllows]
  simp only [perm.mem_iff]

/-- The parts of a policy are lowered in each order of the rules or in none. -/
theorem partsLowered_withRules : (l.withRules rules).PartsLowered ↔ l.PartsLowered := by
  by_cases done : l.rules.faults = []
  swap
  · exact iff_of_false (fun parts => done ((rules_done_withRules passed perm).mp parts.rules))
      fun parts => done parts.rules
  have done' := (rules_done_withRules passed perm).mpr done
  have conditionals := loweredConditionals_withRules passed perm done
  obtain ⟨table, table', made, made', same⟩ := exists_accessTables passed perm done
  have unbroken : (∀ rule ∈ (l.withRules rules).allNeverAllows,
      l.breaches [table', (l.withRules rules).conditionalRules] rule = []) ↔
        ∀ rule ∈ l.allNeverAllows, l.breaches [table, l.conditionalRules] rule = [] := by
    have shared : (l.withRules rules).conditionalRules = l.conditionalRules := by
      rw [conditionalRules, conditionals]
      rfl
    simp only [mem_allNeverAllows_withRules passed perm done, shared, breaches_congr same]
  constructor
  · intro parts
    refine ⟨symbols_withRules l rules ▸ parts.symbols, done, conditionals ▸ parts.conditionals,
      ⟨table, made, fun check => ?_⟩, objects_withRules l rules ▸ parts.objects,
      genfs_withRules l rules ▸ parts.genfs⟩
    obtain ⟨_, made'', checked⟩ := parts.table
    cases made'.symm.trans made''
    exact unbroken.mp (checked check)
  · intro parts
    refine ⟨(symbols_withRules l rules).symm ▸ parts.symbols, done', conditionals.symm ▸ parts.conditionals,
      ⟨table', made', fun check => ?_⟩, (objects_withRules l rules).symm ▸ parts.objects,
      (genfs_withRules l rules).symm ▸ parts.genfs⟩
    obtain ⟨_, made'', checked⟩ := parts.table
    cases made.symm.trans made''
    exact unbroken.mpr (checked check)

end Permuted

end Lowering

/-! ### Kernel policies -/

/-- The policies have the same rules outside conditionals: the same entries, one map from names of
objects to results, and the same transitions and changes of role. -/
structure KernelPolicy.SameRules (k k' : KernelPolicy) : Prop where
  entries : k.rules.toList.Perm k'.rules.toList
  named : k.filenameTransitions.result? = k'.filenameTransitions.result?
  roleTransitions : ∀ r, r ∈ k.roleTransitions ↔ r ∈ k'.roleTransitions
  roleAllows : ∀ r, r ∈ k.roleAllows ↔ r ∈ k'.roleAllows
  rangeTransitions : ∀ r, r ∈ k.rangeTransitions ↔ r ∈ k'.rangeTransitions

namespace EvaluatedDatabase

variable {db : EvaluatedDatabase} {rules : List PlacedRule}

/-- The order of the rules outside conditionals does not matter. A verified policy is lowered in each
order or in none, and all orders lead to the same rules. -/
theorem lower_rules_perm (verified : db.Verified) (perm : rules.Perm db.rules) (settings : Settings)
    (options : LoweringOptions) :
    ((∃ k, (db.lower settings options).outcome.1 = .ok k) ↔
      ∃ k, ((db.withRules rules).lower settings options).outcome.1 = .ok k) ∧
    ∀ k k', (db.lower settings options).outcome.1 = .ok k →
      ((db.withRules rules).lower settings options).outcome.1 = .ok k' → k.SameRules k' := by
  have passed : (Lowering.new db settings options).db.Passed := verified.passed
  refine ⟨?_, fun k k' run run' => ?_⟩
  · exact Lowering.exists_policy_iff.trans
      ((Lowering.partsLowered_withRules passed perm).symm.trans Lowering.exists_policy_iff.symm)
  · have built := built_of_lower run
    have built' := built_of_lower run'
    have filled := Lowering.filled_of_policy (Report.yields_of_outcome run)
    have filled' := Lowering.filled_of_policy (Report.yields_of_outcome run')
    have holds := Lowering.holds_withRules passed perm built.rulesDone
    obtain ⟨_, _, made, made', same⟩ := Lowering.exists_accessTables passed perm built.rulesDone
    cases made.symm.trans built.rules
    cases made'.symm.trans built'.rules
    refine ⟨same, ?_, fun r => ?_, fun r => ?_, fun r => ?_⟩
    · have positive : ∀ source key, k.filenameTransitions.result? (source + 1) key =
          k'.filenameTransitions.result? (source + 1) key := fun source key => Option.ext fun result => by
        have same := holds (.named (source + 1) key result)
        rw [filled.filenameTransitions, filled'.filenameTransitions]
        exact (and_congr_right_iff.mp same.symm) (Nat.succ_pos source)
      funext source key
      cases source with
      | zero => exact positive 0 key
      | succ source => exact positive source key
    · rw [filled.roleTransitions, filled'.roleTransitions]
      exact (holds (.role r)).symm
    · rw [filled.roleAllows, filled'.roleAllows]
      exact (Lowering.roleAllows_withRules passed perm built.rulesDone).symm
    · rw [filled.rangeTransitions, filled'.rangeTransitions]
      exact (holds (.range r)).symm

theorem overlappingPolicy_ruled :
    lowersTo overlappingPolicy {} (fun db _ _ => decide (1 < db.rules.length)) = true := by
  decide +kernel

/-- The reversed rules of a policy with transitions of all kinds are lowered to the same rules. -/
theorem lower_rules_perm_reverse : ∃ (db : EvaluatedDatabase) (settings : Settings) (k k' : KernelPolicy),
    db.Verified ∧ 1 < db.rules.length ∧ (db.lower settings {}).outcome.1 = .ok k ∧
      ((db.withRules db.rules.reverse).lower settings {}).outcome.1 = .ok k' ∧ k.SameRules k' := by
  obtain ⟨db, settings, k, verified, run, tested⟩ := exists_lowered overlappingPolicy_ruled
  obtain ⟨every, same⟩ := lower_rules_perm verified db.rules.reverse_perm settings {}
  obtain ⟨k', run'⟩ := every.mp ⟨k, run⟩
  exact ⟨db, settings, k, k', verified, of_decide_eq_true tested, run, run', same k k' run run'⟩

end EvaluatedDatabase

end CilPolicy
