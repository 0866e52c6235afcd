import CilPolicy.Lowering.NeverAllow
import CilPolicy.Lowering.Objects
import CilPolicy.Lowering.Symbols

/-!
The kernel policy of an evaluated policy.
-/

namespace CilPolicy

/-- Leaves the messages, then fails if there are faults. -/
def Step.Gathered.report (g : Step.Gathered σ) : Report σ := do
  modify (· ++ g.messages)
  Report.reject g.faults
  return g.table

namespace Lowering

/-- The kernel policy: symbols, then rules, then the check of what is forbidden, then the
object contexts. -/
def policy (l : Lowering) : Report KernelPolicy := do
  let base ← l.symbols
  let rules ← l.rules.report
  let conditionals ← (l.conditionals rules.access).report
  let table ← (accessTable rules.access).mapError Diagnostic.kernel
  let (nodes, conditionalTable) := l.conditionalTable conditionals.conditionals
  if l.options.checkNeverAllow then
    l.checkNeverAllows [table, conditionalTable] (rules.neverAllows ++ conditionals.neverAllows)
  let objects ← l.objects
  let genfs ← l.genfs
  return { base with
    rules := table
    conditionalRules := conditionalTable
    conditionals := nodes
    roleTransitions := rules.roleTransitions
    roleAllows := rules.roleAllows
    filenameTransitions := rules.named
    rangeTransitions := rules.rangeTransitions
    objects
    genfs }

end Lowering

/-- Lowers an evaluated policy to a kernel policy. -/
def EvaluatedDatabase.lower (db : EvaluatedDatabase) (settings : Settings)
    (options : LoweringOptions) : Report KernelPolicy :=
  (Lowering.new db settings options).policy

end CilPolicy
