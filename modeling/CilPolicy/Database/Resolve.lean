import CilPolicy.Database.Alias
import CilPolicy.Database.Basic
import CilPolicy.Database.Extended
import CilPolicy.Report

/-!
Names become numbers. Three passes over the statements: every declaration enters its
registry; aliases and commons are bound, since later lookups go through them; all
other statements are resolved. No number of an alias is left after that.
-/

namespace CilPolicy

/-- A kernel class has no more permissions than this, its common's included. -/
def maxPermissions : Nat := 32

/-- The keyword and place of the statement being resolved. -/
structure Citation where
  keyword : String
  location : Location

/-- Resolving a part of a statement. -/
abbrev Resolve := ReaderT Citation (Except Diagnostic)

def Statement.citation (s : Statement) : Citation :=
  ⟨s.keyword, s.location⟩

namespace Resolve

def violate (cause : Violation) : Resolve α := do
  throw (.violation cause (some (← read).location))

def redeclared (kind name : String) : Resolve α := do
  throw (.redeclared kind name (← read).location)

def unresolved (kind name : String) : Resolve α := do
  let site ← read
  throw (.unresolved kind name site.keyword site.location)

/-- The declaration with the name; `kind` says what was looked for. -/
def find (r : Registry α) (kind name : String) : Resolve (Id × α) :=
  match r.find? name with
  | none => unresolved kind name
  | some id =>
    match r.value? id with
    | none => unresolved kind name
    | some value => pure (id, value)

def findId (r : Registry α) (kind name : String) : Resolve Id :=
  Prod.fst <$> find r kind name

/-- The expression with every name resolved. -/
def expr (e : Expr String) (f : String → Resolve Id) : Resolve (Expr Id) :=
  fun site => e.traverse fun name => f name site

end Resolve

namespace Database

open Resolve

/-! ### First pass: declarations -/

/-- A statement that may stand inside a conditional. -/
def isConditionalRule : Statement → Bool
  | .plain _ (.access ..) | .plain _ (.typeRule ..) | .plain _ (.namedTransition ..) => true
  | _ => false

/-- Only rules may stand inside a conditional. -/
def checkPlacement : Statement → Except Diagnostic Unit
  | .plain .. => .ok ()
  | .conditional _ _ branches =>
    (branches.flatMap (·.body)).forM fun s =>
      if isConditionalRule s then .ok () else violate (.notInConditional s.keyword) s.citation

/-- Adds a declaration under a new name. -/
def enter (r : Registry α) (name : String) (value : α) (put : Registry α → Database) :
    Resolve Database := do
  let site ← read
  match r.declare? name site.location value with
  | some r => return put r
  | none => redeclared site.keyword name

/-- Adds a type; with `repeats` a type or attribute may be declared again. -/
def declareType (db : Database) (repeats : Bool) (name : String) (kind : TypeKind) :
    Resolve Database := do
  let site ← read
  match db.types.declare? name site.location { kind } with
  | some types => return { db with types }
  | none =>
    let same := (db.types.find? name).any fun id => db.types.test id (·.kind == kind)
    if repeats && kind != .aliasName && same then return db else redeclared site.keyword name

/-- A registry of permissions. -/
def permissionRegistry (owner : PermissionOwner) (name : String) (permissions : List String)
    (value : α) : Resolve (Registry α) := do
  if owner != .map && maxPermissions < permissions.length then
    violate (.tooManyPermissions owner name)
  else
    let site ← read
    permissions.foldlM (fun (r : Registry α) permission =>
      match r.declare? permission site.location value with
      | some r => pure r
      | none => redeclared "permission" permission) {}

def declareName (db : Database) (repeats : Bool) (name : String) : Declaration → Resolve Database
  | .entity .type => db.declareType repeats name .concrete
  | .aliasName .type => db.declareType repeats name .aliasName
  | .attr .type => db.declareType repeats name .attr
  | .entity .role => enter db.roles name { isAttribute := false } fun roles => { db with roles }
  | .attr .role => enter db.roles name { isAttribute := true } fun roles => { db with roles }
  | .entity .user => enter db.users name { isAttribute := false } fun users => { db with users }
  | .attr .user => enter db.users name { isAttribute := true } fun users => { db with users }
  | .classPermission =>
    enter db.classPermissions name [] fun classPermissions => { db with classPermissions }
  | .sensitivity =>
    enter db.sensitivities name { isAlias := false } fun sensitivities => { db with sensitivities }
  | .aliasName .sensitivity =>
    enter db.sensitivities name { isAlias := true } fun sensitivities => { db with sensitivities }
  | .category => enter db.categories name { kind := .category } fun categories => { db with categories }
  | .aliasName .category =>
    enter db.categories name { kind := .aliasName } fun categories => { db with categories }
  | .sid => enter db.sids name none fun sids => { db with sids }

/-- Enters what a clause declares. -/
def declareClause (db : Database) (repeats : Bool) : Clause → Resolve Database
  | .declare what name => db.declareName repeats name what
  | .permissions .common name permissions => do
    let own ← permissionRegistry .common name permissions ()
    enter db.commons name own fun commons => { db with commons }
  | .permissions owner name permissions => do
    let own ← permissionRegistry owner name permissions []
    enter db.classes name { isMap := owner == .map, permissions := own }
      fun classes => { db with classes }
  | .categorySet name _ =>
    enter db.categories name { kind := .set } fun categories => { db with categories }
  | .level name _ => enter db.levels name none fun levels => { db with levels }
  | .levelRange name _ => enter db.ranges name none fun ranges => { db with ranges }
  | .context name _ => enter db.contexts name none fun contexts => { db with contexts }
  | .extendedSet name _ => enter db.extendedSets name none fun extendedSets => { db with extendedSets }
  | .address name address => enter db.addresses name address fun addresses => { db with addresses }
  | .boolean name value => enter db.booleans name value fun booleans => { db with booleans }
  | _ => pure db

def declare (repeats : Bool) (db : Database) (s : Statement) : Except Diagnostic Database := do
  checkPlacement s
  match s with
  | .plain _ clause => db.declareClause repeats clause s.citation
  | .conditional .. => return db

/-! ### Second pass: aliases and commons -/

/-- Binds a type alias. -/
def bindType (db : Database) (aliasName actual : String) : Resolve Database := do
  let (id, info) ← find db.types "typealias" aliasName
  if !info.isAlias then violate (.notAlias aliasName)
  else
    let (target, actual) ← find db.types "type" actual
    if actual.isAttribute then violate (.aliasOfAttribute aliasName)
    else if info.actual.isSome then violate (.aliasBoundTwice .type aliasName)
    else return { db with types := db.types.modify id fun t => { t with actual := some target } }

def bindSensitivity (db : Database) (aliasName actual : String) : Resolve Database := do
  let (id, info) ← find db.sensitivities "sensitivityalias" aliasName
  if !info.isAlias then violate (.notAlias aliasName)
  else
    let target ← findId db.sensitivities "sensitivity" actual
    if info.actual.isSome then violate (.aliasBoundTwice .sensitivity aliasName)
    else return { db with
      sensitivities := db.sensitivities.modify id fun s => { s with actual := some target } }

def bindCategory (db : Database) (aliasName actual : String) : Resolve Database := do
  let (id, info) ← find db.categories "categoryalias" aliasName
  if info.kind != .aliasName then violate (.notAlias aliasName)
  else
    let (target, actual) ← find db.categories "category" actual
    if actual.kind == .set then violate (.aliasOfCategorySet aliasName)
    else if info.actual.isSome then violate (.aliasBoundTwice .category aliasName)
    else return { db with
      categories := db.categories.modify id fun c => { c with actual := some target } }

/-- Gives a class its common. -/
def bindCommon (db : Database) (cls common : String) : Resolve Database := do
  let (id, info) ← find db.classes "class" cls
  if info.isMap then violate (.commonOfMap cls common)
  else
    let target ← findId db.commons "common" common
    if info.common.isSome then violate (.commonTwice cls)
    else
      let info := { info with common := some target }
      if maxPermissions < db.permissionCount info then violate (.tooManyWithCommon cls)
      else return { db with classes := db.classes.modify id fun _ => info }

def bindClause (db : Database) : Clause → Resolve Database
  | .bindAlias .type aliasName actual => db.bindType aliasName actual
  | .bindAlias .sensitivity aliasName actual => db.bindSensitivity aliasName actual
  | .bindAlias .category aliasName actual => db.bindCategory aliasName actual
  | .classCommon cls common => db.bindCommon cls common
  | _ => pure db

def bind (db : Database) (s : Statement) : Except Diagnostic Database :=
  match s with
  | .plain _ clause => db.bindClause clause s.citation
  | .conditional .. => .ok db

/-- The chains of aliases of a registry, followed to their ends. -/
def aliasEnds (r : Registry α) (isAlias : α → Bool) (actual : α → Option Id) :
    Except Diagnostic (List (Id × Id)) :=
  let links := r.entries.map fun d =>
    (⟨d.name, d.location, isAlias d.value, actual d.value⟩ : AliasLink)
  match AliasLink.resolveAll links with
  | .ok ends => .ok ends
  | .error (cause, location) => .error (.violation cause (some location))

/-- Makes every alias point at what it stands for in the end. -/
def followAliases (db : Database) : Except Diagnostic Database := do
  let types ← aliasEnds db.types (·.isAlias) (·.actual)
  let sensitivities ← aliasEnds db.sensitivities (·.isAlias) (·.actual)
  let categories ← aliasEnds db.categories (·.kind == .aliasName) (·.actual)
  return { db with
    types := types.foldl (fun r (id, a) => r.modify id fun t => { t with actual := some a }) db.types
    sensitivities := sensitivities.foldl
      (fun r (id, a) => r.modify id fun s => { s with actual := some a }) db.sensitivities
    categories := categories.foldl
      (fun r (id, a) => r.modify id fun c => { c with actual := some a }) db.categories }

/-! ### Lookups -/

/-- A type or type attribute; an alias gives its type. -/
def findType (db : Database) (name : String) : Resolve Id := do
  let (id, info) ← find db.types "type" name
  return if info.isAlias then info.actual.getD id else id

def isTypeAttribute (db : Database) (id : Id) : Bool :=
  db.types.test id (·.isAttribute)

def findTarget (db : Database) (name : String) : Resolve RuleTarget := do
  if name == "self" then return .self else return .type (← db.findType name)

def findRole (db : Database) (name : String) : Resolve (Id × RoleInfo) :=
  find db.roles "role" name

def findUser (db : Database) (name : String) : Resolve (Id × UserInfo) :=
  find db.users "user" name

def findClass (db : Database) (name : String) : Resolve (Id × ClassInfo) :=
  find db.classes "class" name

/-- A class of the kernel, which a map is not. -/
def findKernelClass (db : Database) (name : String) : Resolve Id := do
  let (id, info) ← db.findClass name
  if info.isMap then violate (.mapClass name) else return id

/-- A sensitivity; an alias gives its sensitivity. -/
def findSensitivity (db : Database) (name : String) : Resolve Id := do
  let (id, info) ← find db.sensitivities "sensitivity" name
  return info.actual.getD id

/-- A category or category set; an alias gives its category. -/
def findCategory (db : Database) (name : String) : Resolve Id := do
  let (id, info) ← find db.categories "category" name
  return if info.kind == .aliasName then info.actual.getD id else id

/-- An operand of a range that is no category. -/
def isRangeSet (db : Database) : Expr Id → Bool
  | .item id => db.categories.test id (·.kind == .set)
  | _ => true

mutual

/-- Every range of the expression goes from a category to a category. -/
def rangesFit (db : Database) : Expr Id → Bool
  | .item _ => true
  | .list members => rangesFitAll db members
  | .apply .range operands => !operands.any db.isRangeSet
  | .apply _ operands => rangesFitAll db operands

def rangesFitAll (db : Database) : List (Expr Id) → Bool
  | [] => true
  | e :: es => rangesFit db e && rangesFitAll db es

end

def categoryExpr (db : Database) (e : Expr String) : Resolve (Expr Id) := do
  let e ← expr e db.findCategory
  if db.rangesFit e then return e else violate .setInCategoryRange

/-! ### Compound arguments -/

def classPerms (db : Database) : ClassPerms String → Resolve (ClassPerms Id)
  | .named set => do return .named (← findId db.classPermissions "classpermission" set)
  | .given cls permissions => do
    let (id, info) ← db.findClass cls
    let kind := if info.isMap then "map permission" else "permission"
    let permissions ← expr permissions fun name =>
      match db.findPermission? info name with
      | some p => pure p
      | none => unresolved kind name
    return .given id permissions

def levelSpec (db : Database) (l : LevelSpec String) : Resolve (LevelSpec Id) := do
  let sensitivity ← db.findSensitivity l.sensitivity
  match l.categories with
  | none => return ⟨sensitivity, none⟩
  | some e => return ⟨sensitivity, some (← db.categoryExpr e)⟩

def levelArg (db : Database) : LevelArg String → Resolve (LevelArg Id)
  | .named name => do return .named (← findId db.levels "level" name)
  | .given spec => do return .given (← db.levelSpec spec)

def rangeSpec (db : Database) (r : RangeSpec String) : Resolve (RangeSpec Id) := do
  return ⟨← db.levelArg r.low, ← db.levelArg r.high⟩

def rangeArg (db : Database) : RangeArg String → Resolve (RangeArg Id)
  | .named name => do return .named (← findId db.ranges "levelrange" name)
  | .given spec => do return .given (← db.rangeSpec spec)

def contextSpec (db : Database) (c : ContextSpec String) : Resolve (ContextSpec Id) := do
  let (user, userInfo) ← db.findUser c.user
  if userInfo.isAttribute then violate (.contextUser c.user)
  let (role, roleInfo) ← db.findRole c.role
  if roleInfo.isAttribute then violate (.contextRole c.role)
  let type ← db.findType c.type
  if db.isTypeAttribute type then violate (.contextType c.type)
  return ⟨user, role, type, ← db.rangeArg c.range⟩

def contextArg (db : Database) : ContextArg String → Resolve (ContextArg Id)
  | .named name => do return .named (← findId db.contexts "context" name)
  | .given spec => do return .given (← db.contextSpec spec)

def extendedSpec (db : Database) (x : ExtendedSpec String (Expr String)) :
    Resolve (ExtendedSpec Id BitSet) := do
  let cls ← db.findKernelClass x.cls
  match x.numbers.extendedNumbers with
  | .ok numbers => return ⟨cls, numbers⟩
  | .error fault => violate (.extended fault)

def extendedArg (db : Database) :
    ExtendedArg String (Expr String) → Resolve (ExtendedArg Id BitSet)
  | .named name => do return .named (← findId db.extendedSets "permissionx" name)
  | .given spec => do return .given (← db.extendedSpec spec)

def addressArg (db : Database) : AddressArg → Resolve IpAddress
  | .named name => do return (← find db.addresses "ipaddr" name).2
  | .given address => pure address

/-! ### Rules -/

/-- The rule that a clause states, if it states one. -/
def rule? (db : Database) : Clause → Resolve (Option Rule)
  | .access kind source target permissions => do
    let source ← db.findType source
    let target ← db.findTarget target
    return some (.access kind source target (← db.classPerms permissions))
  | .extended kind source target permissions => do
    let source ← db.findType source
    let target ← db.findTarget target
    return some (.extended kind source target (← db.extendedArg permissions))
  | .typeRule kind source target cls result => do
    let result ← db.findType result
    if db.isTypeAttribute result then violate .typeRuleResult
    let source ← db.findType source
    let target ← db.findTarget target
    return some (.type kind source target (← db.findKernelClass cls) result)
  | .namedTransition source target cls name result => do
    let result ← db.findType result
    if db.isTypeAttribute result then violate .namedTransitionResult
    let source ← db.findType source
    let target ← db.findTarget target
    return some (.namedTransition source target (← db.findKernelClass cls) name result)
  | .roleTransition source target cls result => do
    let (newRole, info) ← db.findRole result
    if info.isAttribute then violate (.roleTransitionResult result)
    let (source, _) ← db.findRole source
    let target ← db.findType target
    return some (.roleTransition source target (← db.findKernelClass cls) newRole)
  | .roleAllow source target => do
    let (source, _) ← db.findRole source
    let (target, _) ← db.findRole target
    return some (.roleAllow source target)
  | .rangeTransition source target cls range => do
    let source ← db.findType source
    let target ← db.findType target
    let cls ← db.findKernelClass cls
    return some (.rangeTransition source target cls (← db.rangeArg range))
  | _ => pure none

/-- Marks a type attribute as used by a rule of the kind. -/
def markType (kind : AccessKind) (types : Registry TypeInfo) (id : Id) : Registry TypeInfo :=
  types.modify id fun t =>
    if !t.isAttribute then t
    else if kind == .neverAllow then { t with usedByNeverAllow := true }
    else { t with usedByAccess := true }

/-- Marks the type attributes that an access rule uses. A rule aimed at each source
type itself leaves its source unmarked. -/
def markUsed (db : Database) : Rule → Database
  | .access kind source (.type target) _ | .extended kind source (.type target) _ =>
    { db with types := markType kind (markType kind db.types source) target }
  | _ => db

/-! ### Third pass: everything else -/

/-- Refuses bounds on attributes. -/
def checkBounds (parent child : String) (parentAttr childAttr : Bool) : Resolve Unit :=
  if parentAttr then violate (.boundsParent parent)
  else if childAttr then violate (.boundsChild child)
  else pure ()

def resolveBounds (db : Database) (parent child : String) : Entity → Resolve Database
  | .type => do
    let parentId ← db.findType parent
    let childId ← db.findType child
    checkBounds parent child (db.isTypeAttribute parentId) (db.isTypeAttribute childId)
    if db.types.test childId (·.bounds.isSome) then violate (.boundTwice .type child)
    return { db with types := db.types.modify childId fun t => { t with bounds := some parentId } }
  | .role => do
    let (parentId, parentInfo) ← db.findRole parent
    let (childId, childInfo) ← db.findRole child
    checkBounds parent child parentInfo.isAttribute childInfo.isAttribute
    if childInfo.bounds.isSome then violate (.boundTwice .role child)
    return { db with roles := db.roles.modify childId fun r => { r with bounds := some parentId } }
  | .user => do
    let (parentId, parentInfo) ← db.findUser parent
    let (childId, childInfo) ← db.findUser child
    checkBounds parent child parentInfo.isAttribute childInfo.isAttribute
    if childInfo.bounds.isSome then violate (.boundTwice .user child)
    return { db with users := db.users.modify childId fun u => { u with bounds := some parentId } }

def resolveAttributeSet (db : Database) (name : String) (members : Expr String) :
    Entity → Resolve Database
  | .type => do
    let id ← db.findType name
    if !db.isTypeAttribute id then violate (.notAttribute .type name)
    let e ← expr members db.findType
    return { db with types := db.types.modify id fun t => { t with sets := t.sets ++ [e] } }
  | .role => do
    let (id, info) ← db.findRole name
    if !info.isAttribute then violate (.notAttribute .role name)
    let e ← expr members fun n => Prod.fst <$> db.findRole n
    return { db with roles := db.roles.modify id fun r => { r with sets := r.sets ++ [e] } }
  | .user => do
    let (id, info) ← db.findUser name
    if !info.isAttribute then violate (.notAttribute .user name)
    let e ← expr members fun n => Prod.fst <$> db.findUser n
    return { db with users := db.users.modify id fun u => { u with sets := u.sets ++ [e] } }

/-- The items of an ordering statement. -/
def orderItems (db : Database) (names : List String) : OrderKind → Resolve (List Id)
  | .cls => names.mapM fun name => do
    let (id, info) ← db.findClass name
    if info.isMap then violate (.notOrderable .cls name) else return id
  | .sid => names.mapM (findId db.sids "sid")
  | .sensitivity => names.mapM fun name => do
    let (id, info) ← find db.sensitivities "sensitivity" name
    if info.isAlias then violate (.notOrderable .sensitivity name) else return id
  | .category => names.mapM fun name => do
    let (id, info) ← find db.categories "category" name
    if info.kind != .category then violate (.notOrderable .category name) else return id

/-- Keeps a fragment of an order. -/
def resolveOrder (db : Database) (kind : OrderKind) (items : List String) : Resolve Database := do
  let location := (← read).location
  let f := db.fragments
  match kind, items with
  | .cls, "unordered" :: names => do
    let ids ← db.orderItems names .cls
    return { db with fragments.unorderedClasses := f.unorderedClasses ++ [⟨location, ids⟩] }
  | _, names => do
    let fragment : Fragment := ⟨location, ← db.orderItems names kind⟩
    return match kind with
      | .cls => { db with fragments.classes := f.classes ++ [fragment] }
      | .sid => { db with fragments.sids := f.sids ++ [fragment] }
      | .sensitivity => { db with fragments.sensitivities := f.sensitivities ++ [fragment] }
      | .category => { db with fragments.categories := f.categories ++ [fragment] }

/-- The default that a class has for a part of the context. -/
def classDefault (kind : DefaultKind) (c : ClassInfo) : Option DefaultObject :=
  match kind with
  | .user => c.defaultUser
  | .role => c.defaultRole
  | .type => c.defaultType

/-- Sets the default object of a class. -/
def setDefault (kind : DefaultKind) (object : DefaultObject) (c : ClassInfo) : ClassInfo :=
  match kind with
  | .user => { c with defaultUser := some object }
  | .role => { c with defaultRole := some object }
  | .type => { c with defaultType := some object }

def resolveDefault (kind : DefaultKind) (object : DefaultObject) (db : Database) (cls : String) :
    Resolve Database := do
  let id ← db.findKernelClass cls
  let conflict := db.classes.test id fun c => (classDefault kind c).any (· != object)
  if conflict then violate (.conflictingDefault (← read).keyword cls)
  return { db with classes := db.classes.modify id (setDefault kind object) }

def resolveDefaultRange (range : DefaultRange) (db : Database) (cls : String) : Resolve Database := do
  let id ← db.findKernelClass cls
  let conflict := db.classes.test id fun c => c.defaultRange.any (· != range)
  if conflict then violate (.conflictingDefault (← read).keyword cls)
  return { db with classes := db.classes.modify id fun c => { c with defaultRange := some range } }

/-- A mapping of a permission of a map class. -/
def resolveMapping (db : Database) (map permission : String) (perms : ClassPerms String) :
    Resolve Database := do
  let (id, info) ← db.findClass map
  if !info.isMap then violate (.notMapClass map)
  let own ← findId info.permissions "map permission" permission
  let perms ← db.classPerms perms
  return { db with classes := db.classes.modify id fun c =>
    { c with permissions := c.permissions.modify own (· ++ [perms]) } }

/-- Adds a label whose context is found in the database. -/
def label (db : Database) (context : ContextArg String) (selector : σ)
    (put : Label σ (ContextArg Id) → Labels) : Resolve Database := do
  let location := (← read).location
  return { db with labels := put ⟨location, selector, ← db.contextArg context⟩ }

/-- Keeps the label that a clause gives. -/
def resolveLabel (db : Database) : Clause → Resolve Database
  | .fileContext selector context => do
    let location := (← read).location
    let context ← match context with
      | none => pure none
      | some c => some <$> db.contextArg c
    return { db with labels.files := db.labels.files ++ [⟨location, selector, context⟩] }
  | .filesystemUse selector context =>
    db.label context selector fun l => { db.labels with filesystems := db.labels.filesystems ++ [l] }
  | .genfs selector context =>
    db.label context selector fun l => { db.labels with genfs := db.labels.genfs ++ [l] }
  | .port selector context =>
    db.label context selector fun l => { db.labels with ports := db.labels.ports ++ [l] }
  | .node address mask context => do
    let address ← db.addressArg address
    let mask ← db.addressArg mask
    if address.isV4 != mask.isV4 then violate .mixedFamilies
    db.label context (⟨address, mask⟩ : NodeSelector) fun l =>
      { db.labels with nodes := db.labels.nodes ++ [l] }
  | .interface name interface packet => do
    let location := (← read).location
    let contexts := (← db.contextArg interface, ← db.contextArg packet)
    return { db with labels.interfaces := db.labels.interfaces ++ [⟨location, name, contexts⟩] }
  | .partitionKey text keys context => do
    match IpAddress.parseV6? text with
    | none => violate .subnetPrefix
    | some address =>
      db.label context (⟨text, address.octets.take 8, keys.low, keys.high⟩ : PartitionKeySelector)
        fun l => { db.labels with partitionKeys := db.labels.partitionKeys ++ [l] }
  | .endPort selector context =>
    db.label context selector fun l => { db.labels with endPorts := db.labels.endPorts ++ [l] }
  | .interrupt irq context =>
    db.label context irq fun l => { db.labels with interrupts := db.labels.interrupts ++ [l] }
  | .ioMemory addresses context =>
    db.label context addresses fun l => { db.labels with ioMemory := db.labels.ioMemory ++ [l] }
  | .ioPort ports context =>
    db.label context ports fun l => { db.labels with ioPorts := db.labels.ioPorts ++ [l] }
  | .pciDevice device context =>
    db.label context device fun l => { db.labels with pciDevices := db.labels.pciDevices ++ [l] }
  | .deviceTree path context =>
    db.label context path fun l => { db.labels with deviceTrees := db.labels.deviceTrees ++ [l] }
  | _ => pure db

/-- Keeps what a clause says, beyond what it declares or binds. -/
def resolveClause (db : Database) (clause : Clause) : Resolve Database := do
  let location := (← read).location
  match clause with
  | .attributeSet kind name members => db.resolveAttributeSet name members kind
  | .bounds kind parent child => db.resolveBounds parent child kind
  | .typePermissive type => do
    let id ← db.findType type
    if db.isTypeAttribute id then violate .permissiveAttribute
    return { db with types := db.types.modify id fun t => { t with permissive := true } }
  | .roleType role type => do
    let (id, _) ← db.findRole role
    let type ← db.findType type
    return { db with roles := db.roles.modify id fun r => { r with types := r.types ++ [type] } }
  | .userRole user role => do
    let (id, _) ← db.findUser user
    let (role, _) ← db.findRole role
    return { db with users := db.users.modify id fun u => { u with roles := u.roles ++ [role] } }
  | .userLevel user level => do
    let (id, info) ← db.findUser user
    if info.isAttribute then violate .levelOfAttribute
    let level ← db.levelArg level
    return { db with users := db.users.modify id fun u => { u with level := some level } }
  | .userRange user range => do
    let (id, info) ← db.findUser user
    if info.isAttribute then violate (.rangeOfAttribute user)
    let range ← db.rangeArg range
    return { db with users := db.users.modify id fun u => { u with range := some range } }
  | .order kind items => db.resolveOrder kind items
  | .classPermissionSet name permissions => do
    let id ← findId db.classPermissions "classpermission" name
    let permissions ← db.classPerms permissions
    return { db with classPermissions := db.classPermissions.modify id (· ++ [permissions]) }
  | .classMapping map permission permissions => db.resolveMapping map permission permissions
  | .defaults kind classes object => classes.foldlM (resolveDefault kind object) db
  | .defaultRange classes range => classes.foldlM (resolveDefaultRange range) db
  | .categorySet name categories => do
    let id ← db.findCategory name
    let e ← db.categoryExpr categories
    return { db with categories := db.categories.modify id fun c => { c with members := some e } }
  | .sensitivityCategory sensitivity categories => do
    let id ← db.findSensitivity sensitivity
    let e ← db.categoryExpr categories
    return { db with sensitivities :=
      db.sensitivities.modify id fun s => { s with categories := s.categories ++ [e] } }
  | .level name spec => do
    let spec ← db.levelSpec spec
    let id ← findId db.levels "level" name
    return { db with levels := db.levels.modify id fun _ => some spec }
  | .levelRange name spec => do
    let spec ← db.rangeSpec spec
    let id ← findId db.ranges "levelrange" name
    return { db with ranges := db.ranges.modify id fun _ => some spec }
  | .extendedSet name spec => do
    let spec ← db.extendedSpec spec
    let id ← findId db.extendedSets "permissionx" name
    return { db with extendedSets := db.extendedSets.modify id fun _ => some spec }
  | .context name spec => do
    let spec ← db.contextSpec spec
    let id ← findId db.contexts "context" name
    return { db with contexts := db.contexts.modify id fun _ => some spec }
  | .sidContext sid context => do
    let (id, existing) ← find db.sids "sid" sid
    let context ← db.contextArg context
    if existing.isSome then violate (.sidContextTwice sid)
    return { db with sids := db.sids.modify id fun _ => some context }
  | .handleUnknown value => return { db with handleUnknown := db.handleUnknown ++ [(location, value)] }
  | .mls value => return { db with mls := db.mls ++ [(location, value)] }
  | .capability name => return { db with capabilities := db.capabilities ++ [(location, name)] }
  | other =>
    match ← db.rule? other with
    | some rule => return { db.markUsed rule with rules := db.rules ++ [⟨location, rule⟩] }
    | none => db.resolveLabel other

/-- The rules of an arm of a conditional, with the attributes they use marked. -/
def resolveBody (db : Database) (body : List Statement) :
    Except Diagnostic (Database × List PlacedRule) :=
  body.foldlM (fun (db, rules) s =>
    match s with
    | .plain location clause => do
      match ← db.rule? clause s.citation with
      | some rule => return (db.markUsed rule, rules ++ [⟨location, rule⟩])
      | none => return (db, rules)
    | .conditional .. => return (db, rules)) (db, [])

def resolveStatement (db : Database) (s : Statement) : Except Diagnostic Database :=
  match s with
  | .plain _ clause => db.resolveClause clause s.citation
  | .conditional location condition branches => do
    let condition ← expr condition (findId db.booleans "boolean") s.citation
    let (db, blocks) ← branches.foldlM (fun (db, blocks) (b : Branch) => do
      let (db, rules) ← resolveBody db b.body
      return (db, blocks ++ [(⟨b.location, b.kind, rules⟩ : Block)])) (db, [])
    return { db with conditionals := db.conditionals ++ [⟨location, condition, blocks⟩] }

/-- The database of a list of statements. With `repeats` a type or type attribute may be
declared more than once. -/
def ofStatements (repeats : Bool) (statements : List Statement) : Except Diagnostic Database := do
  let db ← statements.foldlM (declare repeats) {}
  let db ← statements.foldlM bind db
  let db ← db.followAliases
  statements.foldlM resolveStatement db

/-- The database, with a note of how many rules it has. -/
def resolve (repeats : Bool) (statements : List Statement) : Report Database := do
  let db ← ofStatements repeats statements
  Report.info s!"Resolved {db.rules.length} rules"
  return db

end Database

end CilPolicy
