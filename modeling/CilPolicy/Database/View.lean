import CilPolicy.Document
import CilPolicy.FileContexts
import CilPolicy.Statement.View
import CilPolicy.Verification.Policy

/-!
Databases as structured values, for listings. Sets of declarations are shown as runs of
their numbers, other references by name.
-/

namespace CilPolicy

namespace Database

/-! ### Texts -/

def typeExprText (db : Database) (e : Expr Id) : String := e.text db.types.nameOf
def roleExprText (db : Database) (e : Expr Id) : String := e.text db.roles.nameOf
def userExprText (db : Database) (e : Expr Id) : String := e.text db.users.nameOf
def categoryExprText (db : Database) (e : Expr Id) : String := e.text db.categories.nameOf

def classPermsText (db : Database) : ClassPerms Id → String
  | .named id => db.classPermissions.nameOf id
  | .given cls permissions =>
    match db.classes.value? cls with
    | none => ""
    | some info =>
      "(" ++ db.classes.nameOf cls ++ " " ++ permissions.text (db.permissionName info) ++ " = "
        ++ (db.permissionBits info permissions).runText ++ ")"

def levelSpecText (db : Database) (l : LevelSpec Id) : String :=
  let categories := (l.categories.map db.categoryExprText).getD "-"
  "(" ++ db.sensitivities.nameOf l.sensitivity ++ " " ++ categories ++ ")"

def levelArgText (db : Database) : LevelArg Id → String
  | .named id => db.levels.nameOf id
  | .given spec => db.levelSpecText spec

def rangeArgText (db : Database) : RangeArg Id → String
  | .named id => db.ranges.nameOf id
  | .given r => "(" ++ db.levelArgText r.low ++ " " ++ db.levelArgText r.high ++ ")"

def contextArgText (db : Database) : ContextArg Id → String
  | .named id => db.contexts.nameOf id
  | .given c =>
    "(" ++ " ".intercalate [db.users.nameOf c.user, db.roles.nameOf c.role, db.types.nameOf c.type,
      db.rangeArgText c.range] ++ ")"

def extendedArgText (db : Database) : ExtendedArg Id BitSet → String
  | .named id => db.extendedSets.nameOf id
  | .given x => "(" ++ db.classes.nameOf x.cls ++ " " ++ x.numbers.runText ++ ")"

def targetText (db : Database) : RuleTarget → String
  | .self => "self"
  | .type id => db.types.nameOf id

/-- The words of a rule. -/
def ruleWords (db : Database) : Rule → List String
  | .access kind source target permissions =>
    [kind.keyword, db.types.nameOf source, db.targetText target, db.classPermsText permissions]
  | .extended kind source target permissions =>
    [kind.extendedKeyword, db.types.nameOf source, db.targetText target,
      db.extendedArgText permissions]
  | .type kind source target cls result =>
    [kind.keyword, db.types.nameOf source, db.targetText target, db.classes.nameOf cls,
      db.types.nameOf result]
  | .namedTransition source target cls name result =>
    ["typetransition", db.types.nameOf source, db.targetText target, db.classes.nameOf cls, name,
      db.types.nameOf result]
  | .roleTransition source target cls result =>
    ["roletransition", db.roles.nameOf source, db.types.nameOf target, db.classes.nameOf cls,
      db.roles.nameOf result]
  | .roleAllow source target => ["roleallow", db.roles.nameOf source, db.roles.nameOf target]
  | .rangeTransition source target cls range =>
    ["rangetransition", db.types.nameOf source, db.types.nameOf target, db.classes.nameOf cls,
      db.rangeArgText range]

/-! ### Records -/

def classRecord (db : Database) (order : List Id) (id : Id) (d : Declared ClassInfo) : Document :=
  let c := d.value
  .record [("name", d.name), ("map", c.isMap),
    ("perms", .list (c.permissions.toList.map fun p =>
      .list [p.name, .texts (p.value.map db.classPermsText)])),
    ("all", .texts ((List.range (db.permissionCount c)).map (db.permissionName c))),
    ("order", .ofOption .number (order.idxOf? id)),
    ("common", .ofOption (fun i => .text (db.commons.nameOf i)) c.common),
    ("defaults", .list [.ofOption (fun o => .number o.number) c.defaultUser,
      .ofOption (fun o => .number o.number) c.defaultRole,
      .ofOption (fun o => .number o.number) c.defaultType,
      .ofOption (fun o => .number o.number) c.defaultRange])]

def conditionalRecord (db : Database) (c : Conditional) : Document :=
  .record [("expr", c.condition.text db.booleans.nameOf),
    ("blocks", .list (c.blocks.map fun b =>
      .list [b.kind.document, .list (b.rules.map fun r => .texts (db.ruleWords r.rule))])),
    ("counts", .list [(c.rules true).length, (c.rules false).length])]

def labelRecords (db : Database) : Document :=
  let l := db.labels
  let rows {σ : Type} (ls : List (Label σ (ContextArg Id))) (f : σ → List Document) : Document :=
    .list (ls.map fun x => .list (f x.selector ++ [.text (db.contextArgText x.context)]))
  .record [
    ("filecon", .list (l.files.map fun x =>
      .list [x.selector.path, x.selector.kind.flag,
        .ofOption (fun c => .text (db.contextArgText c)) x.context])),
    ("fsuse", rows l.filesystems fun s => [s.behavior.number, s.filesystem]),
    ("genfscon", rows l.genfs fun s => [s.filesystem, s.path]),
    ("portcon", rows l.ports fun s => [s.protocol.number, s.low, s.high]),
    ("nodecon", rows l.nodes fun s => [s.address.hex, s.mask.hex]),
    ("netifcon", .list (l.interfaces.map fun x =>
      .texts [x.selector, db.contextArgText x.context.1, db.contextArgText x.context.2])),
    ("ibpkeycon", rows l.partitionKeys fun s => [s.text, Text.hexBytes s.subnet, s.low, s.high]),
    ("ibendportcon", rows l.endPorts fun s => [s.device, s.port]),
    ("pirqcon", rows l.interrupts fun irq => [irq]),
    ("iomemcon", rows l.ioMemory fun s => [toString s.low, toString s.high]),
    ("ioportcon", rows l.ioPorts fun s => [s.low, s.high]),
    ("pcidevicecon", rows l.pciDevices fun device => [device]),
    ("devicetreecon", rows l.deviceTrees fun path => [path])]

def typeFields (db : Database) (d : Declared TypeInfo) : Fields :=
  let t := d.value
  let kind := match t.kind with
    | .concrete => "type"
    | .aliasName => "alias"
    | .attr => "attribute"
  [("name", d.name), ("kind", kind),
    ("actual", .ofOption (fun i => .text (db.types.nameOf i)) t.actual),
    ("bounds", .ofOption (fun i => .text (db.types.nameOf i)) t.bounds),
    ("permissive", t.permissive), ("exprs", .texts (t.sets.map db.typeExprText)),
    ("used", .list [t.usedByAccess, t.usedByNeverAllow]), ("loc", d.location.text)]

def roleFields (db : Database) (d : Declared RoleInfo) : Fields :=
  let r := d.value
  [("name", d.name), ("attribute", r.isAttribute),
    ("bounds", .ofOption (fun i => .text (db.roles.nameOf i)) r.bounds),
    ("exprs", .texts (r.sets.map db.roleExprText)),
    ("type_refs", .texts (r.types.map db.types.nameOf))]

def userFields (db : Database) (d : Declared UserInfo) : Fields :=
  let u := d.value
  [("name", d.name), ("attribute", u.isAttribute),
    ("bounds", .ofOption (fun i => .text (db.users.nameOf i)) u.bounds),
    ("exprs", .texts (u.sets.map db.userExprText)),
    ("role_refs", .texts (u.roles.map db.roles.nameOf)),
    ("level", .ofOption (fun l => .text (db.levelArgText l)) u.level),
    ("range", .ofOption (fun r => .text (db.rangeArgText r)) u.range)]

/-- What a database says that neither orders nor sets change. -/
def fields (db : Database) : Fields :=
  [("classpermissions", .list (db.classPermissions.toList.map fun d =>
      .list [d.name, .texts (d.value.map db.classPermsText)])),
    ("permissionxs", .list (db.extendedSets.toList.map fun d =>
      .list [d.name, .ofOption (fun (x : ExtendedSpec Id BitSet) =>
        .texts [db.classes.nameOf x.cls, x.numbers.runText]) d.value])),
    ("bools", .list (db.booleans.toList.map fun d => .list [d.name, d.value])),
    ("ipaddrs", .list (db.addresses.toList.map fun d => .texts [d.name, d.value.hex])),
    ("policycaps", .texts (db.capabilities.map (·.2))),
    ("rules", .list (db.rules.map fun r => .list [.texts (db.ruleWords r.rule), r.location.text])),
    ("avrules", db.accessRuleCount),
    ("conditionals", .list (db.conditionals.map db.conditionalRecord)),
    ("labeling", db.labelRecords)]

end Database

/-- The sets of an evaluated declaration. -/
structure SetView where
  isAttribute : Bool
  expanded : BitSet
  granted : Option (String × BitSet) := none

def SetView.fields (v : SetView) : Fields :=
  ([("members", if v.isAttribute then .text v.expanded.runText else .null),
    ("expanded", v.expanded.runText)] : Fields)
    ++ (v.granted.map fun (name, s) => (name, Document.text s.runText)).toList

namespace OrderedDatabase

/-- The database with its orders and, once they are evaluated, the positions of
categories. -/
def orderFields (db : OrderedDatabase) (sets : Array (Option BitSet)) (allowed : Array BitSet) :
    Fields :=
  let ids (is : List Id) : Document := .list (is.map .number)
  let position (order : List Id) (id : Id) : Document := .ofOption .number (order.idxOf? id)
  [("sensitivities", .list (db.sensitivities.indexed.map fun (id, d) =>
      .record [("name", d.name), ("alias", d.value.isAlias),
        ("actual", .ofOption (fun i => .text (db.sensitivities.nameOf i)) d.value.actual),
        ("order", position db.orders.sensitivities id),
        ("exprs", .texts (d.value.categories.map db.categoryExprText)),
        ("cats", (allowed.getD id ∅).runText)])),
    ("categories", .list (db.categories.indexed.map fun (id, d) =>
      let kind := match d.value.kind with
        | .category => "category"
        | .aliasName => "alias"
        | .set => "set"
      .record [("name", d.name), ("kind", kind),
        ("actual", .ofOption (fun i => .text (db.categories.nameOf i)) d.value.actual),
        ("order", position db.orders.categories id),
        ("expr", .ofOption (fun e => .text (db.categoryExprText e)) d.value.members),
        ("members", .ofOption (fun s => .text s.runText) (sets[id]?).join)])),
    ("classes", .list (db.classes.indexed.map fun (id, d) => db.classRecord db.orders.classes id d)),
    ("sids", .list (db.sids.indexed.map fun (id, d) =>
      .list [d.name, position db.orders.sids id,
        .ofOption (fun c => .text (db.contextArgText c)) d.value])),
    ("orders", .record [("classes", ids db.orders.classes), ("sids", ids db.orders.sids),
      ("sensitivities", ids db.orders.sensitivities), ("categories", ids db.orders.categories)])]

/-- The database before its sets are evaluated. -/
def document (db : OrderedDatabase) : Document :=
  .record (db.fields ++ db.orderFields #[] #[]
    ++ [("types", .list (db.types.toList.map fun d => .record (db.typeFields d))),
      ("roles", .list (db.roles.toList.map fun d => .record (db.roleFields d))),
      ("users", .list (db.users.toList.map fun d => .record (db.userFields d)))])

end OrderedDatabase

namespace EvaluatedDatabase

/-- The fault of a failed check, or null. -/
def faultDocument (message : ε → String) : Except ε Unit → Document
  | .ok () => .null
  | .error fault => message fault

/-- Named levels, ranges and contexts with the results of their checks. -/
def levelFields (db : EvaluatedDatabase) : Fields :=
  let failed (fault : LevelFault) : Document := .record [("err", fault.message)]
  [("levels", .list (db.levels.indexed.map fun (id, d) =>
      .list [d.name, match db.evalLevel (.named id) with
        | .error fault => failed fault
        | .ok l => .list [db.levelText l, faultDocument LevelFault.message (db.checkLevel l)]])),
    ("levelranges", .list (db.ranges.indexed.map fun (id, d) =>
      .list [d.name, match db.evalRange (.named id) with
        | .error fault => failed fault
        | .ok (low, high) =>
          .list [db.levelText low, db.levelText high,
            faultDocument LevelFault.message (db.checkRange low high)]])),
    ("contexts", .list (db.contexts.toList.map fun d =>
      .list [d.name, match d.value with
        | none => .null
        | some c => faultDocument ContextFault.message (db.checkContext c)]))]

/-- The evaluated database; its settings are shown once they are known. -/
def document (db : EvaluatedDatabase) (settings : Option Settings) : Document :=
  .record (db.fields ++ db.orderFields db.categorySets db.sensitivityCategories
    ++ ([("types", .list (db.types.indexed.map fun (id, d) =>
        .record (db.typeFields d ++ SetView.fields ⟨d.value.isAttribute, db.expandType id, none⟩
          ++ ([("kept", .list [db.attributeKept false id, db.attributeKept true id])] : Fields)))),
      ("roles", .list (db.roles.indexed.map fun (id, d) =>
        .record (db.roleFields d ++ SetView.fields ⟨d.value.isAttribute, db.expandRole id,
          some ("types", db.roleTypes.getD id ∅)⟩))),
      ("users", .list (db.users.indexed.map fun (id, d) =>
        .record (db.userFields d ++ SetView.fields ⟨d.value.isAttribute, db.expandUser id,
          some ("roles", db.userRoles.getD id ∅)⟩))),
      ("type_universe", db.typeUniverse.runText)] : Fields)
    ++ db.levelFields
    ++ (settings.map fun s =>
      ("settings", Document.list [s.mls, s.handleUnknown.name])).toList)

end EvaluatedDatabase

end CilPolicy
