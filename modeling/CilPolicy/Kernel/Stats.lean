import CilPolicy.Kernel.Policy

/-!
Counts that sum up a kernel policy.
-/

namespace CilPolicy

/-- A statistic is a number, a flag or a word. -/
inductive StatValue where
  | number (n : Nat)
  | flag (b : Bool)
  | word (s : String)
deriving DecidableEq, Repr

namespace KernelPolicy

/-- Number of names of the type table with that flavor. -/
def flavorCount (p : KernelPolicy) (flavor : TypeFlavor) : Nat :=
  p.types.toList.countP fun (_, t) => t.flavor == flavor

/-- Every statistic under its name, in the order of the summary. -/
def stats (p : KernelPolicy) : List (String × StatValue) :=
  let attributes := p.flavorCount .attr
  [("version", .number p.version.number),
    ("target", .word p.target.name),
    ("mls", .flag p.mls),
    ("handle_unknown", .word p.handleUnknown.name),
    ("classes", .number p.classes.primaries),
    ("commons", .number p.commons.primaries),
    ("types", .number (p.types.primaries - attributes)),
    ("attributes", .number attributes),
    ("type_aliases", .number (p.flavorCount .aliasName)),
    ("roles", .number p.roles.primaries),
    ("users", .number p.users.primaries),
    ("booleans", .number p.booleans.primaries),
    ("sensitivities", .number p.sensitivities.primaries),
    ("categories", .number p.categories.primaries),
    ("av_rules", .number p.rules.size),
    ("cond_rules", .number p.conditionalRules.size),
    ("role_transitions", .number p.roleTransitions.length),
    ("role_allows", .number p.roleAllows.length),
    ("filename_transitions", .number p.filenameTransitions.ruleCount),
    ("range_transitions", .number p.rangeTransitions.length),
    ("ocontexts", .number p.objects.size),
    ("genfs", .number (p.genfs.flatMap (·.entries)).length),
    ("permissive_types", .number p.permissive.card),
    ("policy_capabilities", .number p.capabilities.card)]

end KernelPolicy

end CilPolicy
