import CilPolicy.Statement.Basic
import CilPolicy.Text.Quoted

/-!
Rules that a well-formed policy can break. Each way to break one is a constructor,
and the functions called `message` hold the wording.
-/

namespace CilPolicy

/-- What is wrong with an expression for extended permissions. -/
inductive ExtendedFault where
  | value (text : String)
  | range
  | emptyRange (low high : Nat)
  | expression
  | operator (op : Operator)
deriving DecidableEq, Repr

def ExtendedFault.message : ExtendedFault → String
  | value text => s!"Invalid permissionx value {text}"
  | range => "Invalid permissionx range"
  | emptyRange low high => "Invalid permissionx range " ++ Text.hex low ++ " " ++ Text.hex high
  | expression => "Invalid permissionx expression"
  | operator op => s!"Invalid operator ({op.keyword}) in permissionx expression"

/-- What is wrong with a category expression, a level or a range. -/
inductive LevelFault where
  | categoryRange
  | categoryUnordered (category : String)
  | noLevel
  | noRange
  | noCategories (sensitivity : String)
  | categoryRefused (category sensitivity : String)
  | notDominating (high low : String)
  | lowNotSubset
deriving DecidableEq, Repr

def LevelFault.message : LevelFault → String
  | categoryRange => "Invalid category range"
  | categoryUnordered category => s!"Category {category} has no order"
  | noLevel => "Invalid level"
  | noRange => "Invalid level range"
  | noCategories sensitivity => s!"No categories can be used with sensitivity {sensitivity}"
  | categoryRefused category sensitivity =>
    s!"Category {category} cannot be used with sensitivity {sensitivity}"
  | notDominating high low => s!"Sensitivity {high} does not dominate {low}"
  | lowNotSubset => "Low level category set must be a subset of the high level category set"

/-- What is wrong with a context. -/
inductive ContextFault where
  | missing
  | userWithoutRoles (user : String)
  | role (role user : String)
  | roleWithoutTypes (role : String)
  | type (type role : String)
  | range (range user : String)
  | level (fault : LevelFault)
deriving DecidableEq, Repr

def ContextFault.message : ContextFault → String
  | missing => "Invalid context"
  | userWithoutRoles user => s!"No roles given to the user {user}"
  | role name user => s!"Role {name} is invalid for user {user}"
  | roleWithoutTypes name => s!"No types associated with role {name}"
  | type name owner => s!"Type {name} is invalid for role {owner}"
  | range name user => s!"Range {name} is invalid for user {user}"
  | level fault => fault.message

def Entity.title : Entity → String
  | .type => "Type"
  | .role => "Role"
  | .user => "User"

def OrderKind.title : OrderKind → String
  | .cls => "Class"
  | .sid => "SID"
  | .category => "Category"
  | .sensitivity => "Sensitivity"

/-- The word for one thing of the kind, and for many. -/
def OrderKind.nouns : OrderKind → String × String
  | .cls => ("class", "classes")
  | .sid => ("sid", "sids")
  | .category => ("category", "categories")
  | .sensitivity => ("sensitivity", "sensitivities")

/-- What an access key cannot hold. -/
inductive KeyField where
  | type
  | cls
deriving DecidableEq, Repr

def KeyField.title : KeyField → String
  | type => "Type"
  | cls => "Class"

/-- A rule of the policy language that is broken. -/
inductive Violation where
  -- found while names are resolved
  | notInConditional (keyword : String)
  | tooManyPermissions (owner : PermissionOwner) (name : String)
  | tooManyWithCommon (cls : String)
  | notAlias (name : String)
  | aliasOfAttribute (aliasName : String)
  | aliasOfCategorySet (aliasName : String)
  | aliasBoundTwice (kind : Aliased) (aliasName : String)
  | commonOfMap (cls common : String)
  | commonTwice (cls : String)
  | aliasUnbound
  | aliasOfUnbound (aliasName unbound : String)
  | aliasCycle (names : List String)
  | mapClass (cls : String)
  | setInCategoryRange
  | contextUser (name : String)
  | contextRole (name : String)
  | contextType (name : String)
  | notAttribute (kind : Entity) (name : String)
  | boundsParent (name : String)
  | boundsChild (name : String)
  | boundTwice (kind : Entity) (child : String)
  | permissiveAttribute
  | roleTransitionResult (result : String)
  | levelOfAttribute
  | rangeOfAttribute (name : String)
  | notOrderable (kind : OrderKind) (name : String)
  | notMapClass (name : String)
  | conflictingDefault (keyword cls : String)
  | sidContextTwice (sid : String)
  | mixedFamilies
  | subnetPrefix
  | typeRuleResult
  | namedTransitionResult
  | extended (fault : ExtendedFault)
  -- found while orders are merged
  | alreadyMerged (kind : OrderKind) (name : String)
  | unmergeable
  | unordered (kind : OrderKind) (name : String)
  -- found before sets are evaluated
  | noLevel (user : String)
  | noRange (user : String)
  | boundsCycle (kind : Entity) (name : String)
  | unmapped (map permission : String)
  | emptyClassPermission (name : String)
  | circularSet (name : String)
  | circularMap (map permission : String)
  | selfReference (name : String)
  -- found while sets are evaluated and labels sorted
  | level (fault : LevelFault)
  | conflictingLabels (keyword : String)
  -- found in the evaluated policy
  | namedRange (fault : LevelFault)
  | secondHandleUnknown
  | secondMls
  | blockKind
  | neverAllowInBlock
  | secondBlock (value : Bool)
  | repeatedPermissions (common : String)
  | unknownCapability (name : String)
  | context (fault : ContextFault)
  | noIoctl (cls : String)
  | noAccessRules
  | noSids
  | noFiles
  -- found while kernel values are assigned
  | noClassValue
  | wideValue (field : KeyField) (value : Nat)
  | noExtendedSet
  | noRuleResult
  | conflictingTypeRules (source target cls result existing : String)
  | noTransitionResult
  | conflictingNamedTransitions
  | noNewRole
  | conflictingRoleTransitions
  | conflictingRangeTransitions
  | condition
  | namedTransitionInBlock
  | ruleInBlock
  | neverAllow
  | addressFamilies
deriving DecidableEq, Repr

def Violation.message : Violation → String
  | notInConditional keyword => s!"{keyword} is not allowed in booleanif"
  | tooManyPermissions owner name => s!"Too many permissions in {owner.keyword} '{name}'"
  | tooManyWithCommon cls => s!"Too many permissions in class '{cls}' when including common permissions"
  | notAlias name => s!"{name} is not an alias"
  | aliasOfAttribute aliasName => s!"{aliasName} is a typealias, but aliases a typeattribute"
  | aliasOfCategorySet aliasName => s!"{aliasName} is a categoryalias, but aliases a categoryset"
  | aliasBoundTwice kind aliasName => s!"{kind.keyword}alias {aliasName} cannot bind more than one value"
  | commonOfMap cls common =>
    s!"Class {cls} is not a kernel class and cannot be associated with common {common}"
  | commonTwice cls => s!"Class {cls} cannot be associated with more than one common"
  | aliasUnbound => "Alias declared but not used"
  | aliasOfUnbound aliasName unbound => s!"Alias {aliasName} references an unused alias {unbound}"
  | aliasCycle names => "Circular alias found: " ++ " ".intercalate names
  | mapClass cls => s!"{cls} is a map class, not a kernel class"
  | setInCategoryRange => "Category set not allowed in category range"
  | contextUser name => s!"Context user must be a user: {name}"
  | contextRole name => s!"Context role not a role: {name}"
  | contextType name => s!"Context type not a type or type alias: {name}"
  | notAttribute kind name => s!"Attribute {kind.keyword} {name} not an attribute"
  | boundsParent name => s!"Bounds parent {name} is an attribute"
  | boundsChild name => s!"Bounds child {name} is an attribute"
  | boundTwice kind child => s!"{kind.title} {child} already bound by parent"
  | permissiveAttribute => "Typepermissive must be a type or type alias"
  | roleTransitionResult result =>
    s!"roletransition must result in a role, but {result} is a roleattribute"
  | levelOfAttribute => "Userlevel must be a user"
  | rangeOfAttribute name => s!"Userrange must be a user: {name}"
  | notOrderable kind name =>
    s!"{name} is not a {kind.nouns.1}. Only {kind.nouns.2} are allowed in {kind.keyword} statements"
  | notMapClass name => s!"{name} is not a map class"
  | conflictingDefault keyword cls => s!"Conflicting {keyword} statements for class {cls}"
  | sidContextTwice sid => s!"SID {sid} cannot be associated with more than one context"
  | mixedFamilies => "Nodecon ip address not in the same family"
  | subnetPrefix => "ibpkeycon subnet prefix not in valid IPV6 format"
  | typeRuleResult => "Type rule result must be a type"
  | namedTransitionResult => "typetransition result is not a type or type alias"
  | extended fault => fault.message
  | alreadyMerged kind name => s!"{kind.title} {name} has already been merged into the ordered list"
  | unmergeable => "Unable to merge ordered list"
  | unordered kind name => s!"{kind.title} {name} not in {kind.keyword} statement"
  | noLevel user => s!"User {user} does not have a default level"
  | noRange user => s!"User {user} does not have a level range"
  | boundsCycle kind name => s!"Circular bounds found for {kind.keyword} {name}"
  | unmapped map permission => s!"Map class {map} does not have a classmapping for {permission}"
  | emptyClassPermission name => s!"Classpermission {name} does not have a classpermissionset"
  | circularSet name => s!"Found circular class permissions involving the set {name}"
  | circularMap map permission =>
    s!"Found circular class permissions involving the map class {map} and permission {permission}"
  | selfReference name => s!"Self-reference found for {name}"
  | level fault => fault.message
  | conflictingLabels keyword => s!"Found conflicting {keyword} rules"
  | namedRange fault => s!"Invalid named range: {fault.message}"
  | secondHandleUnknown => "Policy can not have more than one handleunknown"
  | secondMls => "Policy can not have more than one mls"
  | blockKind => "Expected true or false block in conditional"
  | neverAllowInBlock => "Neverallow found in booleanif block"
  | secondBlock value => s!"More than one {value} block in conditional"
  | repeatedPermissions common =>
    s!"Duplicate permissions between {common} common and class declarations"
  | unknownCapability name => s!"Invalid policycap ({name})"
  | context fault => fault.message
  | noIoctl cls => s!"Invalid permissionx: ioctl is not a permission of class {cls}"
  | noAccessRules => "Policy must include at least one avrule"
  | noSids => "At least one initial sid must be defined in the policy"
  | noFiles => "No input files given"
  | noClassValue => "Invalid class"
  | wideValue field value => s!"{field.title} value {value} does not fit in an access vector key"
  | noExtendedSet => "Invalid permissionx"
  | noRuleResult => "Invalid type rule result"
  | conflictingTypeRules source target cls result existing =>
    s!"Conflicting type rules (scontext={source} tcontext={target} tclass={cls} result={result}), " ++
      s!"existing={existing}"
  | noTransitionResult => "Invalid typetransition result"
  | conflictingNamedTransitions => "Conflicting name type transition rules"
  | noNewRole => "Invalid roletransition result"
  | conflictingRoleTransitions => "Conflicting role transition rules"
  | conflictingRangeTransitions => "Conflicting Range transition rules"
  | condition => "Invalid booleanif expression"
  | namedTransitionInBlock => "typetransition with file name not allowed within a booleanif block."
  | ruleInBlock => "Rule not allowed within a booleanif block"
  | neverAllow => "neverallow check failed"
  | addressFamilies => "nodecon address and mask must be the same IP version"

end CilPolicy
