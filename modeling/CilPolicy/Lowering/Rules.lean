import CilPolicy.Kernel.Policy
import CilPolicy.Lowering.AccessRules
import CilPolicy.Lowering.Numbering
import CilPolicy.Lowering.Step
import CilPolicy.Verification.Cycle

/-!
Rules in kernel values. A reference to class permissions is followed down, through named
sets and map classes, to the permissions of kernel classes. Access rules of one key are
merged. A transition has one result for each key: a second rule with the same result is
left out with a warning, one with another result is a fault.
-/

namespace CilPolicy

/-! ### Permissions of kernel classes -/

/-- A set of permissions as a word; a class has at most 32 of them. -/
def permissionWord (bits : BitSet) : BitVec 32 :=
  bits.toList.foldl (fun word bit => word ||| (1#32 <<< bit)) 0

/-- A class and some of its permissions. -/
structure ClassGrant where
  cls : Id
  word : BitVec 32
deriving DecidableEq, Repr

/-- Adds the permissions of a class to those it has already. -/
def addGrant (grant : ClassGrant) : List ClassGrant → List ClassGrant
  | [] => [grant]
  | g :: rest =>
    if g.cls = grant.cls then { g with word := g.word ||| grant.word } :: rest
    else g :: addGrant grant rest

namespace Database

/-- The permissions of kernel classes behind a reference, one item for each way that
leads to a class. -/
def leafGrants (db : Database) : (fuel : Nat) → ClassPerms Id → List ClassGrant
  | 0, _ => []
  | fuel + 1, ref =>
    match ref with
    | .given cls permissions =>
      if db.classes.test cls (·.isMap) then
        (db.permissionTargets ref).flatMap fun node =>
          (db.permissionRefs node).flatMap (db.leafGrants fuel)
      else [⟨cls, permissionWord (db.permissionBitsOf cls permissions)⟩]
    | .named id => (db.permissionRefs (.set id)).flatMap (db.leafGrants fuel)

/-- The permissions of each kernel class that a reference stands for. References that do
not run in a circle are no deeper than there are sets and mapped permissions. -/
def grants (db : Database) (ref : ClassPerms Id) : List ClassGrant :=
  (db.leafGrants (db.permissionNodes.length + 1) ref).foldl (fun all g => addGrant g all) []

end Database

/-! ### Tables -/

/-- A rule that forbids access, to be checked against all that is allowed. -/
structure NeverAllow where
  location : Location
  source : BitSet
  /-- The target types; without them the target is the source itself. -/
  target : Option BitSet
  grants : List ClassGrant
  /-- The numbers of extended permissions, if the rule forbids such only. -/
  numbers : Option BitSet
deriving DecidableEq, Repr

/-- The rules of a policy, or of an arm of a conditional. -/
structure RuleTables where
  access : AccessRules := {}
  named : FilenameTransitions := default
  roleTransitions : List RoleTransition := []
  roleAllows : List RoleAllow := []
  rangeTransitions : List RangeTransition := []
  neverAllows : List NeverAllow := []
deriving Inhabited

def AccessKind.kinds? : AccessKind → Option RuleKinds
  | allow => some RuleKinds.allowed
  | auditAllow => some RuleKinds.auditAllow
  | dontAudit => some RuleKinds.auditDeny
  | neverAllow => none

def AccessKind.extendedKinds? : AccessKind → Option RuleKinds
  | allow => some RuleKinds.extendedAllowed
  | auditAllow => some RuleKinds.extendedAuditAllow
  | dontAudit => some RuleKinds.extendedDontAudit
  | neverAllow => none

def TypeRuleKind.kinds : TypeRuleKind → RuleKinds
  | transition => RuleKinds.transition
  | change => RuleKinds.change
  | member => RuleKinds.member

namespace Lowering

/-- A value that has to fit into 16 bits. -/
def narrow (location : Location) (field : KeyField) (value : Nat) : Except Diagnostic UInt16 :=
  if value < 65536 then .ok (UInt16.ofNat value)
  else .error (.violation (.wideValue field value) (some location))

def accessKey (l : Lowering) (location : Location) (pair : Nat × Nat) (cls : Id)
    (kinds : RuleKinds) : Except Diagnostic AccessKey :=
  match l.classes.value? cls with
  | none => .error (.violation .noClassValue (some location))
  | some cls => do
    let source ← narrow location .type pair.1
    let target ← narrow location .type pair.2
    let cls ← narrow location .cls cls
    return ⟨source, target, cls, kinds⟩

/-! ### Access rules -/

def addGrant (l : Lowering) (location : Location) (kinds : RuleKinds) (rules : AccessRules)
    (item : (Nat × Nat) × ClassGrant) : Step AccessRules :=
  match l.accessKey location item.1 item.2.cls kinds with
  | .error d => .fail rules d
  | .ok key => .done (rules.grant key item.2.word)

/-- Every pair with every class of which some permission is granted. -/
def grantItems (pairs : List (Nat × Nat)) (grants : List ClassGrant) :
    List ((Nat × Nat) × ClassGrant) :=
  pairs.flatMap fun pair => (grants.filter (·.word != 0)).map fun g => (pair, g)

def addAccess (l : Lowering) (t : RuleTables) (location : Location) (kind : AccessKind) (source : Id)
    (target : RuleTarget) (permissions : ClassPerms Id) : Step RuleTables :=
  let grants := l.db.grants permissions
  match kind.kinds? with
  | none => .done { t with neverAllows := t.neverAllows ++
      [⟨location, l.db.expandType source, l.targetTypes target, grants, none⟩] }
  | some kinds =>
    (Step.each (l.addGrant location kinds) t.access
      (grantItems (l.rulePairs source target) grants)).map fun access => { t with access }

def addNumbers (l : Lowering) (location : Location) (kinds : RuleKinds)
    (spec : ExtendedSpec Id BitSet) (rules : AccessRules) (pair : Nat × Nat) : Step AccessRules :=
  match l.accessKey location pair spec.cls kinds with
  | .error d => .fail rules d
  | .ok key => .done (rules.extend key spec.numbers)

/-- The permission of a class that extended permissions refine. -/
def ioctlGrant (l : Lowering) (cls : Id) : ClassGrant :=
  ⟨cls, match (l.db.classes.value? cls).bind fun c => l.db.findPermission? c "ioctl" with
    | some bit => 1#32 <<< bit
    | none => 0⟩

def addExtended (l : Lowering) (t : RuleTables) (location : Location) (kind : AccessKind) (source : Id)
    (target : RuleTarget) (permissions : ExtendedArg Id BitSet) : Step RuleTables :=
  match l.db.extendedSpec? permissions, kind.extendedKinds? with
  | none, _ => .fail t (.violation .noExtendedSet (some location))
  | some spec, none => .done { t with neverAllows := t.neverAllows ++
      [⟨location, l.db.expandType source, l.targetTypes target, [l.ioctlGrant spec.cls],
        some spec.numbers⟩] }
  | some spec, some kinds =>
    if !l.options.version.supports .extendedPermissions then
      .fail t (.kernel (.version l.options.version.number .extendedRules))
    else
      (Step.each (l.addNumbers location kinds spec) t.access (l.rulePairs source target)).map
        fun access => { t with access }

/-! ### Transitions -/

/-- Adds the result of a type rule for a pair. `base` has the rules outside the
conditional, for a rule inside one. -/
def addResult (l : Lowering) (base : AccessRules) (location : Location) (kind : TypeRuleKind)
    (cls : Id) (result : Nat) (rules : AccessRules) (pair : Nat × Nat) : Step AccessRules :=
  match l.accessKey location pair cls kind.kinds with
  | .error d => .fail rules d
  | .ok key =>
    let source := l.typeName pair.1
    let target := l.typeName pair.2
    let clsName := l.db.classes.nameOf cls
    let resultName := l.typeName result
    match (base.word? key).or (rules.word? key) with
    | none => .done (rules.setResult key result)
    | some existing =>
      if existing = BitVec.ofNat 32 result then
        { table := rules, messages := [⟨.warn, s!"Duplicate {kind.keyword} rule (scontext={source} " ++
          s!"tcontext={target} tclass={clsName} result={resultName})" ++ location.text⟩] }
      else
        .fail rules (.violation
          (.conflictingTypeRules source target clsName resultName (l.typeName existing.toNat))
          (some location))

def addTypeRule (l : Lowering) (base : AccessRules) (t : RuleTables) (location : Location)
    (kind : TypeRuleKind) (source : Id) (target : RuleTarget) (cls result : Id) : Step RuleTables :=
  match l.typeValue? result with
  | none => .fail t (.violation .noRuleResult (some location))
  | some result =>
    (Step.each (l.addResult base location kind cls result) t.access
      (l.concretePairs source target)).map fun access => { t with access }

def addNamed (location : Location) (cls : Nat) (name : String) (result : Nat)
    (table : FilenameTransitions) (pair : Nat × Nat) : Step FilenameTransitions :=
  match table.add pair.1 ⟨pair.2, cls, name⟩ result with
  | .ok (true, table) => .done table
  | .ok (false, table) =>
    { table, messages := [⟨.warn, s!"Duplicate typetransition rule for object name \"{name}\""
        ++ location.text⟩] }
  | .error (.transitionConflict ..) =>
    .fail table (.violation .conflictingNamedTransitions (some location))
  | .error e => .fail table (.kernel e)

def addNamedTransition (l : Lowering) (t : RuleTables) (location : Location) (source : Id)
    (target : RuleTarget) (cls : Id) (name : String) (result : Id) : Step RuleTables :=
  if !l.options.version.supports .filenameTransitions then
    .fail t (.kernel (.version l.options.version.number .objectNames))
  else match l.typeValue? result with
    | none => .fail t (.violation .noTransitionResult (some location))
    | some result =>
      (Step.each (addNamed location (l.classNumber cls) name result) t.named
        (l.concretePairs source target)).map fun named => { t with named }

def addRole (location : Location) (table : List RoleTransition) (r : RoleTransition) :
    Step (List RoleTransition) :=
  match table.find? fun s => s.role == r.role && s.type == r.type && s.cls == r.cls with
  | none => .done (table ++ [r])
  | some existing =>
    if existing.newRole = r.newRole then
      { table, messages := [⟨.warn, "Duplicate roletransition rule" ++ location.text⟩] }
    else .fail table (.violation .conflictingRoleTransitions (some location))

/-- The values of the roles that a role stands for. -/
def concreteRoles (l : Lowering) (id : Id) : List Nat :=
  (l.db.expandRole id).toList.filterMap l.roles.value?

def addRoleTransition (l : Lowering) (t : RuleTables) (location : Location)
    (source target cls result : Id) : Step RuleTables :=
  match l.roles.value? result with
  | none => .fail t (.violation .noNewRole (some location))
  | some newRole =>
    let cls := l.classNumber cls
    let items := (l.concreteRoles source).flatMap fun role =>
      (l.concreteTypes target).map fun type => (⟨role, type, newRole, cls⟩ : RoleTransition)
    (Step.each (addRole location) t.roleTransitions items).map fun roleTransitions =>
      { t with roleTransitions }

/-- Adds what is not there already. -/
def addNew [DecidableEq α] (table : List α) (a : α) : List α :=
  if a ∈ table then table else table ++ [a]

def addRoleAllow (l : Lowering) (t : RuleTables) (source target : Id) : RuleTables :=
  let items := (l.concreteRoles source).flatMap fun role =>
    (l.concreteRoles target).map fun newRole => (⟨role, newRole⟩ : RoleAllow)
  { t with roleAllows := items.foldl addNew t.roleAllows }

def addRange (location : Location) (table : List RangeTransition) (r : RangeTransition) :
    Step (List RangeTransition) :=
  match table.find? fun s => s.source == r.source && s.target == r.target && s.cls == r.cls with
  | none => .done (table ++ [r])
  | some existing =>
    if existing.range = r.range then .done table
    else .fail table (.violation .conflictingRangeTransitions (some location))

def addRangeTransition (l : Lowering) (t : RuleTables) (location : Location)
    (source target cls : Id) (range : RangeArg Id) : Step RuleTables :=
  if !l.settings.mls then .done t
  else match l.evalRange range with
    | .error fault => .fail t (.violation (.level fault) (some location))
    | .ok range =>
      let cls := l.classNumber cls
      let items := (l.concretePairs source (.type target)).map fun pair =>
        (⟨pair.1, pair.2, cls, range⟩ : RangeTransition)
      (Step.each (addRange location) t.rangeTransitions items).map fun rangeTransitions =>
        { t with rangeTransitions }

/-! ### All rules -/

/-- Adds a rule that stands outside conditionals. -/
def addRule (l : Lowering) (t : RuleTables) (r : PlacedRule) : Step RuleTables :=
  match r.rule with
  | .access kind source target permissions =>
    l.addAccess t r.location kind source target permissions
  | .extended kind source target permissions =>
    l.addExtended t r.location kind source target permissions
  | .type kind source target cls result =>
    l.addTypeRule {} t r.location kind source target cls result
  | .namedTransition source target cls name result =>
    l.addNamedTransition t r.location source target cls name result
  | .roleTransition source target cls result =>
    l.addRoleTransition t r.location source target cls result
  | .roleAllow source target => .done (l.addRoleAllow t source target)
  | .rangeTransition source target cls range =>
    l.addRangeTransition t r.location source target cls range

/-- The rules outside conditionals. -/
def rules (l : Lowering) : Step.Gathered RuleTables :=
  Step.gather l.addRule {} l.db.rules

end Lowering

end CilPolicy
