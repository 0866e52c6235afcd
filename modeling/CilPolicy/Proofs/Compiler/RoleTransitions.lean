import CilPolicy.Proofs.Compiler.Agreement
import CilPolicy.Proofs.Kernel.Layout
import CilPolicy.Proofs.Lowering.TransitionTables

/-!
# Transitions of roles under their written keys

A role transition is kept under its role, its type and its class, and a second result for one key
is refused. A version without classes writes the role and the type alone, so there two
transitions for different classes may come under one key with different results.
-/

namespace CilPolicy

namespace RoleTransition

/-- The key under which a version writes the transition: role and type, and the class if the
version has one. -/
def writtenKey (v : FormatVersion) (t : RoleTransition) : Nat × Nat × Option Nat :=
  (t.role, t.type, if v.supports .roleTransitionClass then some t.cls else none)

end RoleTransition

/-- Two transitions are written under one key with different results. -/
def KernelPolicy.RolesAmbiguous (k : KernelPolicy) : Prop :=
  ∃ x ∈ k.roleTransitions, ∃ y ∈ k.roleTransitions,
    x.writtenKey k.version = y.writtenKey k.version ∧ x.newRole ≠ y.newRole

namespace EvaluatedDatabase

/-- By the rule, the role changes to the result when it meets the type, for objects of the class. -/
def Moves (db : EvaluatedDatabase) (rule : Rule) (role type cls result : Id) : Prop :=
  ∃ source target, rule = .roleTransition source target cls result ∧
    role ∈ db.expandRole source ∧ type ∈ db.expandType target

/-- By two rules, one role changes to different results when it meets one type, for objects of
different classes. -/
def RolesDisagree (db : EvaluatedDatabase) : Prop :=
  ∃ r ∈ db.rules, ∃ r' ∈ db.rules, ∃ role type cls cls' result result',
    db.Moves r.rule role type cls result ∧ db.Moves r'.rule role type cls' result' ∧
      cls ≠ cls' ∧ result ≠ result'

end EvaluatedDatabase

namespace Lowering

variable {l : Lowering} {x : RoleTransition}

/-- No two transitions of the table have one key and different results. -/
def RolesKeyed (table : List RoleTransition) : Prop :=
  ∀ x ∈ table, ∀ y ∈ table, x.role = y.role → x.type = y.type → x.cls = y.cls → x = y

/-- The transition has the values of what the rule moves. -/
def BringsRole (l : Lowering) (rule : Rule) (x : RoleTransition) : Prop :=
  ∃ role type cls result, l.db.Moves rule role type cls result ∧
    l.roles.value? role = some x.role ∧ l.types.value? type = some x.type ∧
    l.roles.value? result = some x.newRole ∧ l.classNumber cls = x.cls

theorem brings_role_iff {rule : Rule} : l.Brings rule (.role x) ↔ l.BringsRole rule x := by
  constructor
  · rintro ⟨_, _, leads, represents⟩
    cases represents with
    | role value value' number value'' =>
      cases leads with
      | role moved met => exact ⟨_, _, _, _, ⟨_, _, rfl, moved, met⟩, value, value', value'', number⟩
  · rintro ⟨role, type, cls, result, ⟨source, target, rfl, moved, met⟩, value, value', value'', number⟩
    exact ⟨_, _, .role moved met, .role value value' number value''⟩

theorem mem_roleTransitions (evaluated : l.db.Evaluated) (done : l.rules.faults = []) :
    x ∈ l.rules.table.roleTransitions ↔ ∃ r ∈ l.db.rules, l.BringsRole r.rule x := by
  simp only [← brings_role_iff]
  exact holds_rules_iff evaluated done (.role x)

theorem rolesKeyed_rules (evaluated : l.db.Evaluated) : RolesKeyed l.rules.table.roleTransitions := by
  intro x hx y hy role type cls
  refine List.inj_on_of_nodup_map (keyed_rules evaluated).roles hx hy ?_
  rw [RoleTransition.key, RoleTransition.key, role, type, cls]

/-- What a rule moves has values, and the rule brings the transition of these values. -/
theorem exists_bringsRole (numbered : l.Numbered) (evaluated : l.db.Evaluated)
    (done : l.rules.faults = []) {r : PlacedRule} (hr : r ∈ l.db.rules) {role type cls result : Id}
    (moves : l.db.Moves r.rule role type cls result) : ∃ x ∈ l.rules.table.roleTransitions,
      l.roles.value? role = some x.role ∧ l.types.value? type = some x.type ∧
        l.roles.value? result = some x.newRole ∧ l.classNumber cls = x.cls := by
  obtain ⟨source, target, hrule, hrole, htype⟩ := id moves
  have fits := ((rules_done_iff evaluated).mp done).1 r hr
  rw [Fits, hrule] at fits
  obtain ⟨u, value''⟩ := fits
  obtain ⟨v, value⟩ := numbered.exists_roleValue evaluated hrole
  obtain ⟨w, value'⟩ := numbered.exists_typeValue (evaluated.concrete_of_mem htype)
  exact ⟨⟨v, w, u, l.classNumber cls⟩, (mem_roleTransitions evaluated done).mpr
    ⟨r, hr, role, type, cls, result, moves, value, value', value'', rfl⟩, value, value', value'', rfl⟩

/-- Transitions under one written key have different results just for rules that disagree, in a
version without classes. -/
theorem rolesAmbiguous_iff (numbered : l.Numbered) (evaluated : l.db.Evaluated)
    (done : l.rules.faults = []) {k : KernelPolicy}
    (transitions : k.roleTransitions = l.rules.table.roleTransitions) :
    k.RolesAmbiguous ↔ k.version.supports .roleTransitionClass = false ∧ l.db.RolesDisagree := by
  have members : ∀ x, x ∈ k.roleTransitions ↔ ∃ r ∈ l.db.rules, l.BringsRole r.rule x := by
    intro x
    rw [transitions]
    exact mem_roleTransitions evaluated done
  have keyed : RolesKeyed k.roleTransitions := transitions ▸ rolesKeyed_rules evaluated
  constructor
  · rintro ⟨x, hx, y, hy, same, differ⟩
    simp only [RoleTransition.writtenKey, Prod.mk.injEq] at same
    obtain ⟨role, type, cls⟩ := same
    have apart : x.cls ≠ y.cls := fun same => differ (congrArg _ (keyed x hx y hy role type same))
    refine ⟨?_, ?_⟩
    · cases supported : k.version.supports .roleTransitionClass with
      | false => rfl
      | true => exact absurd (by simpa [supported] using cls) apart
    · obtain ⟨r, hr, ρ, τ, c, n, moves, hρ, hτ, hn, hc⟩ := (members x).mp hx
      obtain ⟨r', hr', ρ', τ', c', n', moves', hρ', hτ', hn', hc'⟩ := (members y).mp hy
      cases Numbering.value?_injective hρ (role ▸ hρ')
      cases Numbering.value?_injective hτ (type ▸ hτ')
      refine ⟨r, hr, r', hr', ρ, τ, c, c', n, n', moves, moves', ?_, ?_⟩
      · rintro rfl
        exact apart (hc.symm.trans hc')
      · rintro rfl
        exact differ (Option.some.inj (hn.symm.trans hn'))
  · rintro ⟨unsupported, r, hr, r', hr', ρ, τ, c, c', n, n', moves, moves', _, differ⟩
    obtain ⟨x, hx, role, type, result, _⟩ := exists_bringsRole numbered evaluated done hr moves
    obtain ⟨y, hy, role', type', result', _⟩ := exists_bringsRole numbered evaluated done hr' moves'
    refine ⟨x, transitions ▸ hx, y, transitions ▸ hy, ?_, fun same => differ ?_⟩
    · rw [RoleTransition.writtenKey, RoleTransition.writtenKey, unsupported,
        Option.some.inj (role.symm.trans role'), Option.some.inj (type.symm.trans type')]
      rfl
    · exact Numbering.value?_injective result (same ▸ result')

end Lowering

namespace Compiler

variable {c : Compiler} {compiled : CompiledPolicy}

/-- Of the role transitions in a compiled policy, some two are written under one key with different
results exactly when two rules disagree for different classes and the version has no classes. -/
theorem compiled_roles_ambiguous_iff (run : c.compile.outcome.1 = .ok compiled) :
    ∃ lowered rules conditionals rest,
      c.lower.outcome.1 = .ok lowered ∧ lowered.kernel.version = c.options.version ∧
      compiled.policy = lowered.kernel.beforeRules ++ rules ++ conditionals
        ++ encodeList (KernelPolicy.encodeRoleTransition c.options.version)
          lowered.kernel.roleTransitions ++ rest ∧
      (lowered.kernel.RolesAmbiguous ↔
        c.options.version.supports .roleTransitionClass = false ∧ lowered.db.RolesDisagree) := by
  obtain ⟨lowered, lower, encoded⟩ := exists_encoded run
  obtain ⟨passed, policy⟩ := stages_of_lower (Report.yields_of_outcome lower)
  obtain ⟨_, version⟩ := Lowering.form_of_policy policy
  have numbered := Lowering.numbered_new lowered.db lowered.settings c.options.lowering
  have transitions := (Lowering.filled_of_policy policy).roleTransitions
  have exact := Lowering.rolesAmbiguous_iff numbered passed.evaluated
    (Lowering.built_of_policy policy).rulesDone transitions
  obtain ⟨rules, conditionals, rest, _, _, whole⟩ := KernelPolicy.exists_sections encoded
  rw [version] at whole exact
  exact ⟨lowered, rules, conditionals, rest, lower, version, whole, exact⟩

/-- Some two transitions are written under one key with different results. -/
def showsAmbiguity (k : KernelPolicy) : Bool :=
  k.roleTransitions.any fun x => k.roleTransitions.any fun y =>
    x.writtenKey k.version == y.writtenKey k.version && x.newRole != y.newRole

/-- A compiler that has read two role transitions which differ in their classes and results only, for
the last version without classes of role transitions. -/
def twoClassCompiler : Compiler :=
  small { version := ⟨25⟩ } [wordsNode ["role", "v"], wordsNode ["role", "w"],
    listNode ["class", "g"] [wordsNode ["p"]], listNode ["classorder"] [wordsNode ["f", "g"]], allowNode "a",
    wordsNode ["roletransition", "r", "a", "f", "v"], wordsNode ["roletransition", "r", "a", "g", "w"]]

set_option maxRecDepth 10000 in
theorem twoClassCompiler_compiles : twoClassCompiler.compile.outcome.1.toOption.isSome = true := by
  decide +kernel

set_option maxRecDepth 10000 in
theorem twoClassCompiler_ambiguous :
    twoClassCompiler.lower.outcome.1.toOption.any (showsAmbiguity ·.kernel) = true := by
  decide +kernel

/-- The policy compiles, and its two transitions are written under one key. -/
theorem two_classes_one_key : ∃ compiled lowered, twoClassCompiler.compile.outcome.1 = .ok compiled ∧
    twoClassCompiler.lower.outcome.1 = .ok lowered ∧ lowered.kernel.RolesAmbiguous ∧
    lowered.db.RolesDisagree := by
  obtain ⟨compiled, found⟩ := Option.isSome_iff_exists.mp twoClassCompiler_compiles
  have run := toOption_eq_some_iff.mp found
  obtain ⟨lowered, _, _, _, lower, _, _, exact⟩ := compiled_roles_ambiguous_iff run
  have shown := twoClassCompiler_ambiguous
  rw [lower] at shown
  have ambiguous : lowered.kernel.RolesAmbiguous := by
    simpa [showsAmbiguity, KernelPolicy.RolesAmbiguous, Except.toOption] using shown
  exact ⟨compiled, lowered, run, lower, ambiguous, (exact.mp ambiguous).2⟩

end Compiler

end CilPolicy
