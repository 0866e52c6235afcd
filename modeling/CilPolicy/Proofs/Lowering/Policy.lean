import CilPolicy.Lowering.Policy
import CilPolicy.Proofs.Lowering.Conditional

/-!
# The parts of a kernel policy

A policy that is lowered has the symbols of its declarations and the tables of its
rules, and no rule had a fault.
-/

namespace CilPolicy

theorem Step.Gathered.report_spec {σ : Type} {g : Step.Gathered σ} {t : σ} (run : g.report.Yields t) :
    g.faults = [] ∧ t = g.table := by
  obtain ⟨_, _, run⟩ := Report.yields_bind run
  obtain ⟨_, rejected, run⟩ := Report.yields_bind run
  exact ⟨Report.yields_reject rejected, Report.yields_pure run⟩

/-- Gathered steps are reported as their table when none has a fault. -/
theorem Step.Gathered.report_ok_iff {σ : Type} {g : Step.Gathered σ} {t : σ} :
    g.report.outcome.1 = .ok t ↔ g.faults = [] ∧ t = g.table := by
  constructor
  · exact fun run => report_spec (Report.yields_of_outcome run)
  · rintro ⟨none, rfl⟩
    rw [report, none]
    rfl

namespace Lowering

variable {l : Lowering} {k : KernelPolicy}

/-- The lowered conditionals and what they forbid. -/
def loweredConditionals (l : Lowering) : Step.Gathered LoweredConditionals :=
  l.conditionals l.rules.table.access

/-- All rules to be checked against the tables. -/
def allNeverAllows (l : Lowering) : List NeverAllow :=
  l.rules.table.neverAllows ++ l.loweredConditionals.table.neverAllows

/-- The parts of a kernel policy come from those of the lowering. -/
structure Built (l : Lowering) (k : KernelPolicy) : Prop where
  mls : k.mls = l.settings.mls
  types : l.typeSymbols = .ok k.types
  classes : l.classSymbols = .ok k.classes
  roles : l.roleSymbols = .ok k.roles
  users : l.userSymbols = .ok k.users
  typeAttributes : k.typeAttributes = l.typeAttributes
  rulesDone : l.rules.faults = []
  conditionalsDone : l.loweredConditionals.faults = []
  rules : accessTable l.rules.table.access = .ok k.rules
  conditionals : l.conditionalTable l.loweredConditionals.table.conditionals =
    (k.conditionals, k.conditionalRules)
  checked : l.options.checkNeverAllow = true →
    (l.checkNeverAllows [k.rules, k.conditionalRules] l.allNeverAllows).Yields ()
  objects : l.objects.Yields k.objects
  genfs : l.genfs = .ok k.genfs

/-- The symbols of a policy, which has nothing else yet. -/
structure Symbolic (l : Lowering) (base : KernelPolicy) : Prop where
  target : base.target = l.options.target
  version : base.version = l.options.version
  mls : base.mls = l.settings.mls
  commons : l.commonSymbols = .ok base.commons
  classes : l.classSymbols = .ok base.classes
  roles : l.roleSymbols = .ok base.roles
  types : l.typeSymbols = .ok base.types
  users : l.userSymbols = .ok base.users
  booleans : l.booleanSymbols = .ok base.booleans
  sensitivities : l.sensitivitySymbols = .ok base.sensitivities
  categories : l.categorySymbols = .ok base.categories
  typeAttributes : base.typeAttributes = l.typeAttributes

theorem symbolic_of_symbols {base : KernelPolicy} (run : l.symbols = .ok base) : l.Symbolic base := by
  obtain ⟨commons, hcommons, run⟩ := bind_eq_ok.mp run
  obtain ⟨classes, hclasses, run⟩ := bind_eq_ok.mp run
  obtain ⟨roles, hroles, run⟩ := bind_eq_ok.mp run
  obtain ⟨types, htypes, run⟩ := bind_eq_ok.mp run
  obtain ⟨users, husers, run⟩ := bind_eq_ok.mp run
  obtain ⟨booleans, hbooleans, run⟩ := bind_eq_ok.mp run
  obtain ⟨sensitivities, hsensitivities, run⟩ := bind_eq_ok.mp run
  obtain ⟨categories, hcategories, run⟩ := bind_eq_ok.mp run
  cases run
  exact {
    target := rfl
    version := rfl
    mls := rfl
    commons := mapError_eq_ok.mp hcommons
    classes := mapError_eq_ok.mp hclasses
    roles := mapError_eq_ok.mp hroles
    types := mapError_eq_ok.mp htypes
    users := husers
    booleans := mapError_eq_ok.mp hbooleans
    sensitivities := mapError_eq_ok.mp hsensitivities
    categories := mapError_eq_ok.mp hcategories
    typeAttributes := rfl }

/-- What a policy is put together from. -/
inductive Composed (l : Lowering) : KernelPolicy → Prop
  | intro {base : KernelPolicy} {table conditionalTable : AccessTable} {nodes : List ConditionalNode}
      {objects : ObjectContexts} {genfs : List Genfs} (symbols : l.Symbolic base) (rulesDone : l.rules.faults = [])
      (conditionalsDone : l.loweredConditionals.faults = [])
      (rules : accessTable l.rules.table.access = .ok table)
      (conditionals : l.conditionalTable l.loweredConditionals.table.conditionals = (nodes, conditionalTable))
      (checked : l.options.checkNeverAllow = true →
        (l.checkNeverAllows [table, conditionalTable] l.allNeverAllows).Yields ())
      (labels : l.objects.Yields objects) (files : l.genfs = .ok genfs) :
      Composed l { base with
        rules := table
        conditionalRules := conditionalTable
        conditionals := nodes
        roleTransitions := l.rules.table.roleTransitions
        roleAllows := l.rules.table.roleAllows
        filenameTransitions := l.rules.table.named
        rangeTransitions := l.rules.table.rangeTransitions
        objects
        genfs }

theorem composed_of_policy (run : l.policy.Yields k) : l.Composed k := by
  rw [policy] at run
  obtain ⟨base, hbase, run⟩ := Report.yields_bind run
  have symbols := symbolic_of_symbols (Report.yields_lift hbase)
  obtain ⟨rules, hrules, run⟩ := Report.yields_bind run
  obtain ⟨rulesDone, rfl⟩ := Step.Gathered.report_spec hrules
  obtain ⟨conditionals, hconditionals, run⟩ := Report.yields_bind run
  obtain ⟨conditionalsDone, rfl⟩ := Step.Gathered.report_spec hconditionals
  obtain ⟨table, htable, run⟩ := Report.yields_bind run
  have htable := mapError_eq_ok.mp (Report.yields_lift htable)
  cases hnodes : l.conditionalTable l.loweredConditionals.table.conditionals with
  | mk nodes conditionalTable =>
    have hnodes' : l.conditionalTable (l.conditionals l.rules.table.access).table.conditionals =
      (nodes, conditionalTable) := hnodes
    rw [hnodes'] at run
    dsimp only at run
    split at run
    · obtain ⟨_, checked, run⟩ := Report.yields_bind run
      obtain ⟨objects, labels, run⟩ := Report.yields_bind run
      obtain ⟨genfs, files, run⟩ := Report.yields_bind run
      cases Report.yields_pure run
      exact .intro symbols rulesDone conditionalsDone htable hnodes (fun _ => checked) labels
        (Report.yields_lift files)
    · rename_i unchecked
      obtain ⟨objects, labels, run⟩ := Report.yields_bind run
      obtain ⟨genfs, files, run⟩ := Report.yields_bind run
      cases Report.yields_pure run
      exact .intro symbols rulesDone conditionalsDone htable hnodes (fun check => absurd check unchecked) labels
        (Report.yields_lift files)

theorem built_of_policy (run : l.policy.Yields k) : l.Built k := by
  obtain ⟨symbols, rulesDone, conditionalsDone, rules, conditionals, checked, labels, files⟩ := composed_of_policy run
  exact ⟨symbols.mls, symbols.types, symbols.classes, symbols.roles, symbols.users, symbols.typeAttributes,
    rulesDone, conditionalsDone, rules, conditionals, checked, labels, files⟩

/-- A policy is lowered for the target and the version that the options name. -/
theorem form_of_policy (run : l.policy.Yields k) :
    k.target = l.options.target ∧ k.version = l.options.version := by
  obtain ⟨symbols⟩ := composed_of_policy run
  exact ⟨symbols.target, symbols.version⟩

end Lowering

/-! ### Small policies -/

/-- Takes statements through every stage up to a kernel policy, and tests what comes out. -/
def lowersTo (statements : List Statement) (options : LoweringOptions)
    (test : EvaluatedDatabase → Settings → KernelPolicy → Bool) : Bool :=
  let lowered : Except Diagnostic Bool := do
    let resolved ← (Database.resolve false statements).outcome.1
    let ordered ← resolved.order.outcome.1
    ordered.preVerify.outcome.1
    let db ← (ordered.evaluate false).outcome.1
    let settings ← (db.verify {}).outcome.1
    let k ← (db.lower settings options).outcome.1
    return test db settings k
  match lowered with
  | .ok passed => passed
  | .error _ => false

theorem stages_of_lowersTo {statements : List Statement} {options : LoweringOptions}
    {test : EvaluatedDatabase → Settings → KernelPolicy → Bool}
    (h : lowersTo statements options test = true) :
    ∃ resolved ordered db settings k, (Database.resolve false statements).outcome.1 = .ok resolved ∧
      resolved.order.outcome.1 = .ok ordered ∧ ordered.preVerify.outcome.1 = .ok () ∧
      (ordered.evaluate false).outcome.1 = .ok db ∧ (db.verify {}).outcome.1 = .ok settings ∧
      (db.lower settings options).outcome.1 = .ok k ∧ test db settings k = true := by
  unfold lowersTo at h
  dsimp only at h
  split at h
  · rename_i passed run
    obtain ⟨resolved, resolve, run⟩ := bind_eq_ok.mp run
    obtain ⟨ordered, order, run⟩ := bind_eq_ok.mp run
    obtain ⟨_, preVerify, run⟩ := bind_eq_ok.mp run
    obtain ⟨db, evaluate, run⟩ := bind_eq_ok.mp run
    obtain ⟨settings, verify, run⟩ := bind_eq_ok.mp run
    obtain ⟨k, lower, run⟩ := bind_eq_ok.mp run
    cases run
    exact ⟨resolved, ordered, db, settings, k, resolve, order, preVerify, evaluate, verify, lower, h⟩
  · cases h

theorem exists_lowered {statements : List Statement} {options : LoweringOptions}
    {test : EvaluatedDatabase → Settings → KernelPolicy → Bool}
    (h : lowersTo statements options test = true) :
    ∃ db settings k, db.Verified ∧ (db.lower settings options).outcome.1 = .ok k ∧
      test db settings k = true := by
  obtain ⟨resolved, ordered, db, settings, k, resolve, order, preVerify, evaluate, verify, lower, tested⟩ :=
    stages_of_lowersTo h
  exact ⟨db, settings, k, ⟨statements, false, resolved, ordered, {}, settings, resolve, order, preVerify,
    evaluate, verify⟩, lower, tested⟩

/-- A policy with one class, the types `a` and `b` and the attribute `both` of the two,
and with some statements more. -/
def smallPolicy (more : List Statement) : List Statement :=
  let low : LevelArg String := .given ⟨"s0", none⟩
  let range : RangeArg String := .given ⟨low, low⟩
  [.permissions .cls "file" ["read", "ioctl"], .order .cls ["file"], .declare .sid "kernel",
    .order .sid ["kernel"], .declare .sensitivity "s0", .order .sensitivity ["s0"],
    .declare (.entity .user) "u", .declare (.entity .role) "r", .declare (.entity .type) "a",
    .declare (.entity .type) "b", .declare (.attr .type) "both",
    .attributeSet .type "both" (.list [.item "a", .item "b"]), .userRole "u" "r", .roleType "r" "a",
    .userLevel "u" low, .userRange "u" range, .sidContext "kernel" (.given ⟨"u", "r", "a", range⟩)].map
      (Statement.plain {}) ++ more

end CilPolicy
