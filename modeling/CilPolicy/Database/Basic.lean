import CilPolicy.BitSet.Basic
import CilPolicy.Database.Registry
import CilPolicy.Statement.Basic

/-!
The resolved policy: a registry for every kind of declaration, and rules, labels and
orders in which each name has become the number of a declaration.
-/

namespace CilPolicy

/-! ### Declarations -/

inductive TypeKind where
  | concrete
  | aliasName
  | attr
deriving DecidableEq, Repr

structure TypeInfo where
  kind : TypeKind
  /-- What an alias stands for. -/
  actual : Option Id := none
  bounds : Option Id := none
  permissive : Bool := false
  /-- The sets whose union an attribute is. -/
  sets : List (Expr Id) := []
  /-- The attribute stands in a rule other than `neverallow`. -/
  usedByAccess : Bool := false
  usedByNeverAllow : Bool := false
deriving Repr

namespace TypeInfo

def isAttribute (t : TypeInfo) : Bool := t.kind == .attr

def isAlias (t : TypeInfo) : Bool := t.kind == .aliasName

end TypeInfo

structure RoleInfo where
  isAttribute : Bool
  bounds : Option Id := none
  /-- Types and type attributes the role may take. -/
  types : List Id := []
  sets : List (Expr Id) := []
deriving Repr

structure UserInfo where
  isAttribute : Bool
  bounds : Option Id := none
  /-- Roles and role attributes the user may take. -/
  roles : List Id := []
  level : Option (LevelArg Id) := none
  range : Option (RangeArg Id) := none
  sets : List (Expr Id) := []
deriving Repr

structure SensitivityInfo where
  isAlias : Bool
  actual : Option Id := none
  /-- The sets of categories the sensitivity may be used with. -/
  categories : List (Expr Id) := []
deriving Repr

inductive CategoryKind where
  | category
  | aliasName
  | set
deriving DecidableEq, Repr

structure CategoryInfo where
  kind : CategoryKind
  actual : Option Id := none
  members : Option (Expr Id) := none
deriving Repr

structure ClassInfo where
  isMap : Bool
  /-- The class's own permissions, each with the permissions it stands for if the
  class is a map. -/
  permissions : Registry (List (ClassPerms Id))
  common : Option Id := none
  defaultUser : Option DefaultObject := none
  defaultRole : Option DefaultObject := none
  defaultType : Option DefaultObject := none
  defaultRange : Option DefaultRange := none
deriving Repr

/-! ### Rules -/

/-- What a rule is aimed at: a type, or each source type itself. -/
inductive RuleTarget where
  | type (id : Id)
  | self
deriving DecidableEq, Repr

inductive Rule where
  | access (kind : AccessKind) (source : Id) (target : RuleTarget) (permissions : ClassPerms Id)
  | extended (kind : AccessKind) (source : Id) (target : RuleTarget)
      (permissions : ExtendedArg Id BitSet)
  | type (kind : TypeRuleKind) (source : Id) (target : RuleTarget) (cls result : Id)
  | namedTransition (source : Id) (target : RuleTarget) (cls : Id) (name : String) (result : Id)
  | roleTransition (source target cls result : Id)
  | roleAllow (source target : Id)
  | rangeTransition (source target cls : Id) (range : RangeArg Id)
deriving DecidableEq, Repr

def Rule.isAccess : Rule → Bool
  | access .. => true
  | _ => false

structure PlacedRule where
  location : Location
  rule : Rule
deriving DecidableEq, Repr

/-- An arm of a conditional. -/
structure Block where
  location : Location
  kind : BranchKind
  rules : List PlacedRule
deriving DecidableEq, Repr

structure Conditional where
  location : Location
  condition : Expr Id
  blocks : List Block
deriving DecidableEq, Repr

/-- The rules of all true arms, or of all false arms. -/
def Conditional.rules (c : Conditional) (value : Bool) : List PlacedRule :=
  let kind : BranchKind := if value then .whenTrue else .whenFalse
  (c.blocks.filter (·.kind == kind)).flatMap (·.rules)

/-! ### Labels -/

/-- What is labeled, and its context. -/
structure Label (σ κ : Type) where
  location : Location
  selector : σ
  context : κ
deriving DecidableEq, Repr

/-- Address and mask of one family. -/
structure NodeSelector where
  address : IpAddress
  mask : IpAddress
deriving DecidableEq, Repr

structure PartitionKeySelector where
  /-- The subnet prefix as written. -/
  text : String
  /-- The first eight octets of the prefix. -/
  subnet : List UInt8
  low : Nat
  high : Nat
deriving DecidableEq, Repr

/-- The labels by kind; those of an interface have a context for packets as well. -/
structure Labels where
  files : List (Label FileSelector (Option (ContextArg Id))) := []
  filesystems : List (Label FilesystemSelector (ContextArg Id)) := []
  genfs : List (Label GenfsSelector (ContextArg Id)) := []
  ports : List (Label PortSelector (ContextArg Id)) := []
  nodes : List (Label NodeSelector (ContextArg Id)) := []
  interfaces : List (Label String (ContextArg Id × ContextArg Id)) := []
  partitionKeys : List (Label PartitionKeySelector (ContextArg Id)) := []
  endPorts : List (Label EndPortSelector (ContextArg Id)) := []
  interrupts : List (Label Nat (ContextArg Id)) := []
  ioMemory : List (Label Interval (ContextArg Id)) := []
  ioPorts : List (Label Interval (ContextArg Id)) := []
  pciDevices : List (Label Nat (ContextArg Id)) := []
  deviceTrees : List (Label String (ContextArg Id)) := []
deriving Repr, Inhabited

/-! ### Orders -/

/-- One ordering statement: a part of the order to be. -/
structure Fragment where
  location : Location
  items : List Id
deriving DecidableEq, Repr

structure Fragments where
  classes : List Fragment := []
  unorderedClasses : List Fragment := []
  sids : List Fragment := []
  sensitivities : List Fragment := []
  categories : List Fragment := []
deriving Repr, Inhabited

/-! ### The database -/

/-- The role that is always there. -/
def objectRole : String := "object_r"

/-- Everything a policy declares and says. -/
structure Database where
  types : Registry TypeInfo := {}
  roles : Registry RoleInfo := ⟨#[⟨objectRole, ({} : Position).location, { isAttribute := false }⟩]⟩
  users : Registry UserInfo := {}
  sensitivities : Registry SensitivityInfo := {}
  categories : Registry CategoryInfo := {}
  commons : Registry (Registry Unit) := {}
  classes : Registry ClassInfo := {}
  classPermissions : Registry (List (ClassPerms Id)) := {}
  booleans : Registry Bool := {}
  sids : Registry (Option (ContextArg Id)) := {}
  levels : Registry (Option (LevelSpec Id)) := {}
  ranges : Registry (Option (RangeSpec Id)) := {}
  contexts : Registry (Option (ContextSpec Id)) := {}
  addresses : Registry IpAddress := {}
  extendedSets : Registry (Option (ExtendedSpec Id BitSet)) := {}
  rules : List PlacedRule := []
  conditionals : List Conditional := []
  labels : Labels := {}
  fragments : Fragments := {}
  handleUnknown : List (Location × HandleUnknown) := []
  mls : List (Location × Bool) := []
  capabilities : List (Location × String) := []
deriving Repr, Inhabited

namespace Database

/-- The permissions a class has from its common. -/
def commonPermissions (db : Database) (cls : ClassInfo) : Registry Unit :=
  (cls.common.bind db.commons.value?).getD {}

/-- Number of permissions of a class, those of its common included. -/
def permissionCount (db : Database) (cls : ClassInfo) : Nat :=
  (db.commonPermissions cls).size + cls.permissions.size

/-- Number of a permission in a class: those of the common come first. -/
def findPermission? (db : Database) (cls : ClassInfo) (name : String) : Option Nat :=
  let common := db.commonPermissions cls
  match cls.permissions.find? name with
  | some own => some (common.size + own)
  | none => common.find? name

/-- Name of a permission by its number in the class. -/
def permissionName (db : Database) (cls : ClassInfo) (permission : Nat) : String :=
  let common := db.commonPermissions cls
  if permission < common.size then common.nameOf permission
  else cls.permissions.nameOf (permission - common.size)

/-- The level that is named or given. -/
def levelSpec? (db : Database) : LevelArg Id → Option (LevelSpec Id)
  | .named id => (db.levels.value? id).join
  | .given spec => some spec

def rangeSpec? (db : Database) : RangeArg Id → Option (RangeSpec Id)
  | .named id => (db.ranges.value? id).join
  | .given spec => some spec

def contextSpec? (db : Database) : ContextArg Id → Option (ContextSpec Id)
  | .named id => (db.contexts.value? id).join
  | .given spec => some spec

def extendedSpec? (db : Database) : ExtendedArg Id BitSet → Option (ExtendedSpec Id BitSet)
  | .named id => (db.extendedSets.value? id).join
  | .given spec => some spec

/-- Number of access rules outside conditionals. -/
def accessRuleCount (db : Database) : Nat :=
  db.rules.countP (·.rule.isAccess)

/-- The concrete types. -/
def typeUniverse (db : Database) : BitSet :=
  .ofList ((db.types.indexed.filter fun (_, t) => t.value.kind == .concrete).map (·.1))

end Database

end CilPolicy
