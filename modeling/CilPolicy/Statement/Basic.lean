import CilPolicy.IpAddress
import CilPolicy.Keyword
import CilPolicy.Setting
import CilPolicy.Source.Location
import CilPolicy.Statement.Expr

/-!
Statements of a policy. Arguments that refer to declarations are generic in what a
reference is: a name as written, or the number of a declaration once it is found.
-/

namespace CilPolicy

/-! ### Arguments -/

/-- Permissions of one class, or a named set of class permissions. -/
inductive ClassPerms (α : Type) where
  | named (set : α)
  | given (cls : α) (permissions : Expr α)
deriving DecidableEq, Repr

/-- A sensitivity with an optional set of categories. -/
structure LevelSpec (α : Type) where
  sensitivity : α
  categories : Option (Expr α)
deriving DecidableEq, Repr

inductive LevelArg (α : Type) where
  | named (level : α)
  | given (spec : LevelSpec α)
deriving DecidableEq, Repr

structure RangeSpec (α : Type) where
  low : LevelArg α
  high : LevelArg α
deriving DecidableEq, Repr

inductive RangeArg (α : Type) where
  | named (range : α)
  | given (spec : RangeSpec α)
deriving DecidableEq, Repr

structure ContextSpec (α : Type) where
  user : α
  role : α
  type : α
  range : RangeArg α
deriving DecidableEq, Repr

inductive ContextArg (α : Type) where
  | named (context : α)
  | given (spec : ContextSpec α)
deriving DecidableEq, Repr

/-- Extended permissions of a class: a set of numbers, written as an expression or
already evaluated. -/
structure ExtendedSpec (α β : Type) where
  cls : α
  numbers : β
deriving DecidableEq, Repr

inductive ExtendedArg (α β : Type) where
  | named (permissions : α)
  | given (spec : ExtendedSpec α β)
deriving DecidableEq, Repr

/-- An address as written in a statement. -/
inductive AddressArg where
  | named (name : String)
  | given (address : IpAddress)
deriving DecidableEq, Repr

/-! ### Kinds -/

inductive AccessKind where
  | allow
  | auditAllow
  | dontAudit
  | neverAllow
deriving DecidableEq, Repr

def AccessKind.keyword : AccessKind → String
  | allow => "allow"
  | auditAllow => "auditallow"
  | dontAudit => "dontaudit"
  | neverAllow => "neverallow"

/-- The keyword of the rule on extended permissions. -/
def AccessKind.extendedKeyword (k : AccessKind) : String :=
  k.keyword ++ "x"

inductive TypeRuleKind where
  | transition
  | change
  | member
deriving DecidableEq, Repr

def TypeRuleKind.keyword : TypeRuleKind → String
  | transition => "typetransition"
  | change => "typechange"
  | member => "typemember"

/-- The three kinds of entity that attributes gather. -/
inductive Entity where
  | type
  | role
  | user
deriving DecidableEq, Repr

def Entity.keyword : Entity → String
  | type => "type"
  | role => "role"
  | user => "user"

/-- The kinds of declaration that may have an alias. -/
inductive Aliased where
  | type
  | sensitivity
  | category
deriving DecidableEq, Repr

def Aliased.keyword : Aliased → String
  | type => "type"
  | sensitivity => "sensitivity"
  | category => "category"

/-- Declarations that consist of a name. -/
inductive Declaration where
  | entity (kind : Entity)
  | attr (kind : Entity)
  | aliasName (kind : Aliased)
  | classPermission
  | sensitivity
  | category
  | sid
deriving DecidableEq, Repr

def Declaration.keyword : Declaration → String
  | entity kind => kind.keyword
  | attr kind => kind.keyword ++ "attribute"
  | aliasName kind => kind.keyword ++ "alias"
  | classPermission => "classpermission"
  | sensitivity => "sensitivity"
  | category => "category"
  | sid => "sid"

/-- Declarations with permissions. -/
inductive PermissionOwner where
  | common
  | cls
  | map
deriving DecidableEq, Repr

def PermissionOwner.keyword : PermissionOwner → String
  | common => "common"
  | cls => "class"
  | map => "classmap"

/-- What ordering statements put in order. -/
inductive OrderKind where
  | cls
  | sid
  | category
  | sensitivity
deriving DecidableEq, Repr

def OrderKind.keyword : OrderKind → String
  | cls => "classorder"
  | sid => "sidorder"
  | category => "categoryorder"
  | sensitivity => "sensitivityorder"

/-- The part of a new object's context that a default decides. -/
inductive DefaultKind where
  | user
  | role
  | type
deriving DecidableEq, Repr

def DefaultKind.keyword : DefaultKind → String
  | user => "defaultuser"
  | role => "defaultrole"
  | type => "defaulttype"

inductive BranchKind where
  | whenTrue
  | whenFalse
  | other (keyword : String)
deriving DecidableEq, Repr

/-! ### What labels select -/

structure FileSelector where
  path : String
  kind : FileKind
deriving DecidableEq, Repr

structure FilesystemSelector where
  behavior : FilesystemUse
  filesystem : String
deriving DecidableEq, Repr

structure GenfsSelector where
  filesystem : String
  path : String
deriving DecidableEq, Repr

structure PortSelector where
  protocol : PortProtocol
  low : Nat
  high : Nat
deriving DecidableEq, Repr

structure EndPortSelector where
  device : String
  port : Nat
deriving DecidableEq, Repr

/-- Numbers from `low` to `high`. -/
structure Interval where
  low : Nat
  high : Nat
deriving DecidableEq, Repr

/-! ### Statements -/

/-- What a statement that is no conditional says. -/
inductive Clause where
  | declare (what : Declaration) (name : String)
  | bindAlias (kind : Aliased) (aliasName actual : String)
  | attributeSet (kind : Entity) (name : String) (members : Expr String)
  | bounds (kind : Entity) (parent child : String)
  | typePermissive (type : String)
  | roleType (role type : String)
  | roleAllow (source target : String)
  | roleTransition (source target cls result : String)
  | userRole (user role : String)
  | userLevel (user : String) (level : LevelArg String)
  | userRange (user : String) (range : RangeArg String)
  | permissions (owner : PermissionOwner) (name : String) (permissions : List String)
  | classCommon (cls common : String)
  | order (kind : OrderKind) (items : List String)
  | classPermissionSet (name : String) (permissions : ClassPerms String)
  | classMapping (map permission : String) (permissions : ClassPerms String)
  | defaults (kind : DefaultKind) (classes : List String) (object : DefaultObject)
  | defaultRange (classes : List String) (range : DefaultRange)
  | categorySet (name : String) (categories : Expr String)
  | sensitivityCategory (sensitivity : String) (categories : Expr String)
  | level (name : String) (spec : LevelSpec String)
  | levelRange (name : String) (spec : RangeSpec String)
  | boolean (name : String) (value : Bool)
  | access (kind : AccessKind) (source target : String) (permissions : ClassPerms String)
  | extended (kind : AccessKind) (source target : String)
      (permissions : ExtendedArg String (Expr String))
  | extendedSet (name : String) (spec : ExtendedSpec String (Expr String))
  | typeRule (kind : TypeRuleKind) (source target cls result : String)
  | namedTransition (source target cls objectName result : String)
  | rangeTransition (source target cls : String) (range : RangeArg String)
  | sidContext (sid : String) (context : ContextArg String)
  | context (name : String) (spec : ContextSpec String)
  | fileContext (selector : FileSelector) (context : Option (ContextArg String))
  | filesystemUse (selector : FilesystemSelector) (context : ContextArg String)
  | genfs (selector : GenfsSelector) (context : ContextArg String)
  | port (selector : PortSelector) (context : ContextArg String)
  | node (address mask : AddressArg) (context : ContextArg String)
  | interface (name : String) (interface packet : ContextArg String)
  | address (name : String) (address : IpAddress)
  | partitionKey (subnet : String) (keys : Interval) (context : ContextArg String)
  | endPort (selector : EndPortSelector) (context : ContextArg String)
  | interrupt (irq : Nat) (context : ContextArg String)
  | ioMemory (addresses : Interval) (context : ContextArg String)
  | ioPort (ports : Interval) (context : ContextArg String)
  | pciDevice (device : Nat) (context : ContextArg String)
  | deviceTree (path : String) (context : ContextArg String)
  | handleUnknown (value : HandleUnknown)
  | mls (value : Bool)
  | capability (name : String)
deriving DecidableEq, Repr

/-- The word a statement starts with. -/
def Clause.keyword : Clause → String
  | declare what _ => what.keyword
  | bindAlias kind .. => kind.keyword ++ "aliasactual"
  | attributeSet kind .. => kind.keyword ++ "attributeset"
  | bounds kind .. => kind.keyword ++ "bounds"
  | typePermissive _ => "typepermissive"
  | roleType .. => "roletype"
  | roleAllow .. => "roleallow"
  | roleTransition .. => "roletransition"
  | userRole .. => "userrole"
  | userLevel .. => "userlevel"
  | userRange .. => "userrange"
  | permissions owner .. => owner.keyword
  | classCommon .. => "classcommon"
  | order kind _ => kind.keyword
  | classPermissionSet .. => "classpermissionset"
  | classMapping .. => "classmapping"
  | defaults kind .. => kind.keyword
  | defaultRange .. => "defaultrange"
  | categorySet .. => "categoryset"
  | sensitivityCategory .. => "sensitivitycategory"
  | level .. => "level"
  | levelRange .. => "levelrange"
  | boolean .. => "boolean"
  | access kind .. => kind.keyword
  | extended kind .. => kind.extendedKeyword
  | extendedSet .. => "permissionx"
  | typeRule kind .. => kind.keyword
  | namedTransition .. => "typetransition"
  | rangeTransition .. => "rangetransition"
  | sidContext .. => "sidcontext"
  | context .. => "context"
  | fileContext .. => "filecon"
  | filesystemUse .. => "fsuse"
  | genfs .. => "genfscon"
  | port .. => "portcon"
  | node .. => "nodecon"
  | interface .. => "netifcon"
  | address .. => "ipaddr"
  | partitionKey .. => "ibpkeycon"
  | endPort .. => "ibendportcon"
  | interrupt .. => "pirqcon"
  | ioMemory .. => "iomemcon"
  | ioPort .. => "ioportcon"
  | pciDevice .. => "pcidevicecon"
  | deviceTree .. => "devicetreecon"
  | handleUnknown _ => "handleunknown"
  | mls _ => "mls"
  | capability _ => "policycap"

mutual

/-- A statement and where it stands. -/
inductive Statement where
  | plain (location : Location) (clause : Clause)
  | conditional (location : Location) (condition : Expr String) (branches : List Branch)

/-- An arm of a conditional. -/
inductive Branch where
  | mk (location : Location) (kind : BranchKind) (body : List Statement)

end

namespace Branch

def location : Branch → Location
  | mk l .. => l

def kind : Branch → BranchKind
  | mk _ k _ => k

def body : Branch → List Statement
  | mk _ _ b => b

end Branch

namespace Statement

def location : Statement → Location
  | plain l _ => l
  | conditional l .. => l

def keyword : Statement → String
  | plain _ c => c.keyword
  | conditional .. => "booleanif"

end Statement

end CilPolicy
