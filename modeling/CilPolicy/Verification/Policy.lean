import CilPolicy.Verification.Cycle
import CilPolicy.Verification.Level

/-!
The checks of an evaluated policy, and the settings that follow from it.
-/

namespace CilPolicy

/-- The settings of a compiled policy. -/
structure Settings where
  mls : Bool
  handleUnknown : HandleUnknown
deriving DecidableEq, Repr, Inhabited

/-- Settings given from outside, which override those of the policy. -/
structure SettingOverrides where
  mls : Option Bool := none
  handleUnknown : Option HandleUnknown := none
deriving DecidableEq, Repr, Inhabited

namespace EvaluatedDatabase

/-- The diagnostic of a failed check, if it failed. -/
def faultOf (wrap : ε → Violation) (location : Location) : Except ε Unit → List Diagnostic
  | .ok () => []
  | .error fault => [.violation (wrap fault) (some location)]

/-- A range that is written out, where only such are checked. -/
def givenRangeFault (db : EvaluatedDatabase) (location : Location) : RangeArg Id → List Diagnostic
  | .named _ => []
  | .given spec => faultOf .level location (db.checkRangeArg (.given spec))

def userLevelFaults (db : EvaluatedDatabase) : List Diagnostic :=
  db.users.toList.flatMap fun d =>
    (d.value.range.map (db.givenRangeFault d.location)).getD []
      ++ (d.value.level.map fun l => faultOf .level d.location (db.checkLevelArg l)).getD []

/-- Roles and types whose bounds run in a circle. -/
def boundsFaults (db : EvaluatedDatabase) : List Diagnostic :=
  (db.roles.indexed.filter fun (id, _) => db.roleBoundsLoop id).map (fun (_, d) =>
      .violation (.boundsCycle .role d.name) (some d.location))
    ++ (db.types.indexed.filter fun (id, _) => db.typeBoundsLoop id).map (fun (_, d) =>
      .violation (.boundsCycle .type d.name) (some d.location))

/-- Settings may be stated once. -/
def settingFaults (db : EvaluatedDatabase) : List Diagnostic :=
  ((db.handleUnknown[1]?).map fun (location, _) =>
      Diagnostic.violation .secondHandleUnknown (some location)).toList
    ++ ((db.mls[1]?).map fun (location, _) => Diagnostic.violation .secondMls (some location)).toList

def isNeverAllow : Rule → Bool
  | .access .neverAllow .. => true
  | _ => false

def blockFaults (b : Block) : List Diagnostic :=
  (match b.kind with
    | .other _ => [.violation .blockKind (some b.location)]
    | _ => [])
    ++ (b.rules.filter (isNeverAllow ·.rule)).map fun r =>
      .violation .neverAllowInBlock (some r.location)

/-- A conditional has at most one arm for each value, and no other arms. -/
def conditionalFaults (c : Conditional) : List Diagnostic :=
  let many (kind : BranchKind) : Bool := 1 < c.blocks.countP (·.kind == kind)
  c.blocks.flatMap blockFaults
    ++ (if many .whenTrue then [.violation (.secondBlock true) (some c.location)] else [])
    ++ (if many .whenFalse then [.violation (.secondBlock false) (some c.location)] else [])

/-- Named levels and ranges, and the ranges of transitions. -/
def namedLevelFaults (db : EvaluatedDatabase) : List Diagnostic :=
  (db.levels.toList.flatMap fun d =>
      match d.value with
      | none => []
      | some spec => faultOf .level d.location (db.checkLevelArg (.given spec)))
    ++ (db.ranges.indexed.flatMap fun (id, d) =>
      faultOf .namedRange d.location (db.checkRangeArg (.named id)))
    ++ db.rules.flatMap fun r =>
      match r.rule with
      | .rangeTransition _ _ _ range => db.givenRangeFault r.location range
      | _ => []

/-- Classes that repeat a permission of their common. -/
def repeatedPermissionFaults (db : EvaluatedDatabase) : List Diagnostic :=
  db.classes.toList.flatMap fun d =>
    match d.value.common with
    | none => []
    | some common =>
      let inherited := db.commonPermissions d.value
      if d.value.permissions.toList.any fun p => (inherited.find? p.name).isSome then
        [.violation (.repeatedPermissions (db.commons.nameOf common)) (some d.location)]
      else []

def capabilityFaults (db : EvaluatedDatabase) : List Diagnostic :=
  (db.capabilities.filter fun (_, name) => (Capability.ofName? name).isNone).map fun (location, name) =>
    .violation (.unknownCapability name) (some location)

/-- What is wrong with the declarations. -/
def declarationFaults (db : EvaluatedDatabase) : List Diagnostic :=
  db.userLevelFaults ++ db.boundsFaults ++ db.settingFaults
    ++ db.conditionals.flatMap conditionalFaults
    ++ db.namedLevelFaults ++ db.repeatedPermissionFaults ++ db.capabilityFaults

/-- The contexts of all labels, with their places. -/
def labelContexts (db : EvaluatedDatabase) : List (Location × ContextArg Id) :=
  let l := db.labels
  let plain {σ : Type} (ls : List (Label σ (ContextArg Id))) : List (Location × ContextArg Id) :=
    ls.map fun x => (x.location, x.context)
  (l.files.filterMap fun x => x.context.map fun c => (x.location, c))
    ++ plain l.filesystems ++ plain l.genfs ++ plain l.ports ++ plain l.nodes
    ++ (l.interfaces.map fun x => (x.location, x.context.1))
    ++ (l.interfaces.map fun x => (x.location, x.context.2))
    ++ plain l.partitionKeys ++ plain l.endPorts ++ plain l.interrupts ++ plain l.ioMemory
    ++ plain l.ioPorts ++ plain l.pciDevices ++ plain l.deviceTrees

/-- Named contexts, and the contexts that labels write out. -/
def contextFaults (db : EvaluatedDatabase) : List Diagnostic :=
  (db.contexts.toList.flatMap fun d =>
      match d.value with
      | none => []
      | some spec => faultOf .context d.location (db.checkContext spec))
    ++ db.labelContexts.flatMap fun (location, context) =>
      match context with
      | .named _ => []
      | .given spec => faultOf .context location (db.checkContextArg (.given spec))

/-- The class has the permission that extended permissions refine. -/
def hasIoctl (db : EvaluatedDatabase) (cls : Id) : Bool :=
  db.classes.test cls fun c => (db.findPermission? c "ioctl").isSome

def ioctlFault (db : EvaluatedDatabase) (location : Location) (spec : ExtendedSpec Id BitSet) :
    List Diagnostic :=
  if db.hasIoctl spec.cls then []
  else [.violation (.noIoctl (db.classes.nameOf spec.cls)) (some location)]

/-- Extended permissions of classes that have none. -/
def extendedFaults (db : EvaluatedDatabase) : List Diagnostic :=
  (db.extendedSets.toList.flatMap fun d => (d.value.map (db.ioctlFault d.location)).getD [])
    ++ db.rules.flatMap fun r =>
      match r.rule with
      | .extended _ _ _ (.given spec) => db.ioctlFault r.location spec
      | _ => []

/-- The settings of the policy: those given from outside, else those it states first. -/
def settings (db : EvaluatedDatabase) (overrides : SettingOverrides) : Settings where
  mls := (overrides.mls.or (db.mls.head?.map (·.2))).getD false
  handleUnknown := (overrides.handleUnknown.or (db.handleUnknown.head?.map (·.2))).getD .deny

/-- Checks the evaluated policy and settles its settings. -/
def verify (db : EvaluatedDatabase) (overrides : SettingOverrides) : Report Settings := do
  Report.reject db.declarationFaults
  Report.reject (db.contextFaults ++ db.extendedFaults)
  if db.accessRuleCount = 0 then throw (.violation .noAccessRules none)
  if db.sids.size = 0 then throw (.violation .noSids none)
  db.sids.toList.forM fun d =>
    if d.value.isNone then
      Report.info (s!"No context assigned to SID {d.name}, omitting from policy" ++ d.location.text)
    else pure ()
  return db.settings overrides

end EvaluatedDatabase

end CilPolicy
