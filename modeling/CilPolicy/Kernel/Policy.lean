import CilPolicy.Access.Table
import CilPolicy.Kernel.Condition
import CilPolicy.Kernel.Context
import CilPolicy.Kernel.FilenameTransition
import CilPolicy.Keyword
import CilPolicy.Setting
import CilPolicy.Table.Symbol

/-!
A kernel policy: symbol tables, rules, transitions and object contexts, all in
kernel values. Values of symbols begin at one; a bit set holds a value less one.
-/

namespace CilPolicy

/-- A common: its permissions with their values. -/
structure CommonDatum where
  value : Nat
  permissions : SymbolTable Nat

/-- A class: its own permissions, whose values follow those of its common. -/
structure ClassDatum where
  value : Nat
  common : Option String
  permissions : SymbolTable Nat
  permissionCount : Nat
  defaultUser : Option DefaultObject
  defaultRole : Option DefaultObject
  defaultType : Option DefaultObject
  defaultRange : Option DefaultRange

structure RoleDatum where
  value : Nat
  bounds : Nat
  dominates : BitSet
  types : BitSet
deriving DecidableEq, Repr

/-- What a name of the type table stands for. -/
inductive TypeFlavor where
  | concrete
  | attr
  | aliasName
deriving DecidableEq, Repr

/-- The property word of the flavor: bit 0 for a value of its own, bit 1 for an attribute. -/
def TypeFlavor.properties : TypeFlavor → Nat
  | concrete => 1
  | attr => 3
  | aliasName => 0

structure TypeDatum where
  value : Nat
  flavor : TypeFlavor
  bounds : Nat
deriving DecidableEq, Repr

structure UserDatum where
  value : Nat
  bounds : Nat
  roles : BitSet
  range : LevelRange
  defaultLevel : Level
deriving DecidableEq, Repr

structure BooleanDatum where
  value : Nat
  state : Bool
deriving DecidableEq, Repr

/-- A sensitivity with the categories it may be used with. -/
structure SensitivityDatum where
  isAlias : Bool
  level : Level
deriving DecidableEq, Repr

structure CategoryDatum where
  value : Nat
  isAlias : Bool
deriving DecidableEq, Repr

/-- A conditional block; its rules are handles into the conditional table. -/
structure ConditionalNode where
  state : Bool
  condition : List CondItem
  whenTrue : List Nat
  whenFalse : List Nat
deriving DecidableEq, Repr

structure RoleTransition where
  role : Nat
  type : Nat
  newRole : Nat
  cls : Nat
deriving DecidableEq, Repr

structure RoleAllow where
  role : Nat
  newRole : Nat
deriving DecidableEq, Repr

structure RangeTransition where
  source : Nat
  target : Nat
  cls : Nat
  range : LevelRange
deriving DecidableEq, Repr

structure InitialSid where
  sid : Nat
  name : String
  context : Context
deriving DecidableEq, Repr

structure FilesystemContext where
  name : String
  filesystem : Context
  file : Context
deriving DecidableEq, Repr

structure PortContext where
  protocol : PortProtocol
  low : Nat
  high : Nat
  context : Context
deriving DecidableEq, Repr

structure InterfaceContext where
  name : String
  interface : Context
  packet : Context
deriving DecidableEq, Repr

/-- Address and mask in network order, four octets each or sixteen. -/
structure NodeContext where
  address : List UInt8
  mask : List UInt8
  context : Context
deriving DecidableEq, Repr

structure FilesystemUseContext where
  behavior : FilesystemUse
  filesystem : String
  context : Context
deriving DecidableEq, Repr

/-- Subnet prefix in network order. -/
structure PartitionKeyContext where
  subnet : List UInt8
  low : Nat
  high : Nat
  context : Context
deriving DecidableEq, Repr

structure EndPortContext where
  device : String
  port : Nat
  context : Context
deriving DecidableEq, Repr

structure InterruptContext where
  irq : Nat
  context : Context
deriving DecidableEq, Repr

/-- A range of ports or of memory addresses. -/
structure RegionContext where
  low : Nat
  high : Nat
  context : Context
deriving DecidableEq, Repr

structure DeviceContext where
  device : Nat
  context : Context
deriving DecidableEq, Repr

structure PathContext where
  path : String
  context : Context
deriving DecidableEq, Repr

/-- The lists of object contexts. -/
structure ObjectContexts where
  sids : List InitialSid := []
  filesystems : List FilesystemContext := []
  ports : List PortContext := []
  interfaces : List InterfaceContext := []
  nodes : List NodeContext := []
  filesystemUses : List FilesystemUseContext := []
  nodes6 : List NodeContext := []
  partitionKeys : List PartitionKeyContext := []
  endPorts : List EndPortContext := []
  interrupts : List InterruptContext := []
  ioPorts : List RegionContext := []
  ioMemory : List RegionContext := []
  pciDevices : List DeviceContext := []
  deviceTrees : List PathContext := []
deriving DecidableEq, Repr, Inhabited

/-- Number of contexts in all lists. -/
def ObjectContexts.size (o : ObjectContexts) : Nat :=
  o.sids.length + o.filesystems.length + o.ports.length + o.interfaces.length + o.nodes.length
    + o.filesystemUses.length + o.nodes6.length + o.partitionKeys.length + o.endPorts.length
    + o.interrupts.length + o.ioPorts.length + o.ioMemory.length + o.pciDevices.length
    + o.deviceTrees.length

structure GenfsEntry where
  path : String
  cls : Nat
  context : Context
deriving DecidableEq, Repr

/-- The labels of a filesystem that cannot store any. -/
structure Genfs where
  filesystem : String
  entries : List GenfsEntry
deriving DecidableEq, Repr

/-- A kernel policy. -/
structure KernelPolicy where
  target : Target
  version : FormatVersion
  mls : Bool
  handleUnknown : HandleUnknown
  capabilities : BitSet
  permissive : BitSet
  commons : SymbolTable CommonDatum
  classes : SymbolTable ClassDatum
  roles : SymbolTable RoleDatum
  types : SymbolTable TypeDatum
  users : SymbolTable UserDatum
  booleans : SymbolTable BooleanDatum
  sensitivities : SymbolTable SensitivityDatum
  categories : SymbolTable CategoryDatum
  rules : AccessTable
  conditionalRules : AccessTable
  conditionals : List ConditionalNode
  roleTransitions : List RoleTransition
  roleAllows : List RoleAllow
  filenameTransitions : FilenameTransitions
  objects : ObjectContexts
  genfs : List Genfs
  rangeTransitions : List RangeTransition
  /-- The type itself and its attributes, for each type value less one. -/
  typeAttributes : List BitSet

namespace KernelPolicy

/-- A policy that holds nothing yet. -/
def new (target : Target) (version : FormatVersion) : KernelPolicy where
  target := target
  version := version
  mls := false
  handleUnknown := .deny
  capabilities := ∅
  permissive := ∅
  commons := .new SymbolKind.commons.bucketCount
  classes := .new SymbolKind.classes.bucketCount
  roles := .new SymbolKind.roles.bucketCount
  types := .new SymbolKind.types.bucketCount
  users := .new SymbolKind.users.bucketCount
  booleans := .new SymbolKind.booleans.bucketCount
  sensitivities := .new SymbolKind.sensitivities.bucketCount
  categories := .new SymbolKind.categories.bucketCount
  rules := ∅
  conditionalRules := ∅
  conditionals := []
  roleTransitions := []
  roleAllows := []
  filenameTransitions := default
  objects := {}
  genfs := []
  rangeTransitions := []
  typeAttributes := []

/-- Number of values and number of names of a symbol table. -/
def symbolCounts (p : KernelPolicy) : SymbolKind → Nat × Nat
  | .commons => (p.commons.primaries, p.commons.size)
  | .classes => (p.classes.primaries, p.classes.size)
  | .roles => (p.roles.primaries, p.roles.size)
  | .types => (p.types.primaries, p.types.size)
  | .users => (p.users.primaries, p.users.size)
  | .booleans => (p.booleans.primaries, p.booleans.size)
  | .sensitivities => (p.sensitivities.primaries, p.sensitivities.size)
  | .categories => (p.categories.primaries, p.categories.size)

end KernelPolicy

end CilPolicy
