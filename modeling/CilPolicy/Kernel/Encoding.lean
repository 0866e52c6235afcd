import CilPolicy.Access.Codec
import CilPolicy.BitSet.Codec
import CilPolicy.Kernel.Policy
import CilPolicy.Word

/-!
The binary form of a kernel policy: header, capabilities, permissive types, eight
symbol tables, access rules, conditionals, transitions, object contexts, and the
attributes of every type. Numbers are little-endian; addresses and subnet prefixes
are in network order.
-/

namespace CilPolicy

open Bytes (u32 u64 ofString textLength)

/-- The number of items, then every item. -/
def encodeList (item : α → Bytes) (items : List α) : Bytes :=
  u32 items.length ++ items.flatMap item

/-- The length of a text, then the text. -/
def encodeText (s : String) : Bytes :=
  textLength s ++ ofString s

def Level.encode (level : Level) : Bytes :=
  u32 level.sens ++ level.cats.encode

/-- One level when both are equal, else two; all sensitivities stand before the sets. -/
def LevelRange.encode (r : LevelRange) : Bytes :=
  if r.low = r.high then u32 1 ++ u32 r.low.sens ++ r.low.cats.encode
  else u32 2 ++ u32 r.low.sens ++ u32 r.high.sens ++ r.low.cats.encode ++ r.high.cats.encode

def Context.encode (c : Context) : Bytes :=
  u32 c.user ++ u32 c.role ++ u32 c.type ++ c.range.encode

namespace KernelPolicy

def encodeHeader (p : KernelPolicy) : Bytes :=
  let mls := if p.mls then mlsConfigBit else 0
  u32 policyMagic ++ encodeText p.target.signature ++ u32 p.version.number
    ++ u32 (p.handleUnknown.configBits ||| mls) ++ u32 SymbolKind.all.length
    ++ u32 (p.version.objectListCount p.target)

/-- The counts of a symbol table, then every symbol in table order. -/
def encodeSymbols (t : SymbolTable α) (symbol : String → α → Bytes) : Bytes :=
  u32 t.primaries ++ u32 t.size ++ t.toList.flatMap fun (name, datum) => symbol name datum

def encodePermissions (t : SymbolTable Nat) : Bytes :=
  t.toList.flatMap fun (name, value) => textLength name ++ u32 value ++ ofString name

def encodeCommon (name : String) (c : CommonDatum) : Bytes :=
  textLength name ++ u32 c.value ++ u32 c.permissions.primaries ++ u32 c.permissions.size
    ++ ofString name ++ encodePermissions c.permissions

/-- The number of an optional choice, zero when there is none. -/
def optional (number : α → Nat) (choice : Option α) : Nat :=
  (choice.map number).getD 0

/-- The default range of a class; `glblub` is left out below the version that has it. -/
def defaultRangeNumber (v : FormatVersion) (choice : Option DefaultRange) : Nat :=
  if choice = some .glblub && !v.supports .glblub then 0
  else optional DefaultRange.number choice

/-- Constraint lists are always empty. -/
def encodeClass (v : FormatVersion) (name : String) (c : ClassDatum) : Bytes :=
  let common := c.common.getD ""
  textLength name ++ textLength common ++ u32 c.value ++ u32 c.permissionCount
    ++ u32 c.permissions.size ++ u32 0 ++ ofString name ++ ofString common
    ++ encodePermissions c.permissions ++ u32 0
    ++ (if v.supports .objectDefaults then
          u32 (optional DefaultObject.number c.defaultUser)
            ++ u32 (optional DefaultObject.number c.defaultRole)
            ++ u32 (defaultRangeNumber v c.defaultRange)
        else [])
    ++ (if v.supports .defaultType then u32 (optional DefaultObject.number c.defaultType)
        else [])

/-- Value of the role that every object has; its types are not written. -/
def objectRoleValue : Nat := 1

def encodeRole (name : String) (r : RoleDatum) : Bytes :=
  textLength name ++ u32 r.value ++ u32 r.bounds ++ ofString name ++ r.dominates.encode
    ++ (if r.value = objectRoleValue then (∅ : BitSet) else r.types).encode

def encodeType (name : String) (t : TypeDatum) : Bytes :=
  textLength name ++ u32 t.value ++ u32 t.flavor.properties ++ u32 t.bounds ++ ofString name

def encodeUser (name : String) (u : UserDatum) : Bytes :=
  textLength name ++ u32 u.value ++ u32 u.bounds ++ ofString name ++ u.roles.encode
    ++ u.range.encode ++ u.defaultLevel.encode

def encodeBoolean (name : String) (b : BooleanDatum) : Bytes :=
  u32 b.value ++ u32 b.state.toNat ++ encodeText name

def encodeSensitivity (name : String) (s : SensitivityDatum) : Bytes :=
  textLength name ++ u32 s.isAlias.toNat ++ ofString name ++ s.level.encode

def encodeCategory (name : String) (c : CategoryDatum) : Bytes :=
  textLength name ++ u32 c.value ++ u32 c.isAlias.toNat ++ ofString name

def encodeSymbolTable (p : KernelPolicy) : SymbolKind → Bytes
  | .commons => encodeSymbols p.commons encodeCommon
  | .classes => encodeSymbols p.classes (encodeClass p.version)
  | .roles => encodeSymbols p.roles encodeRole
  | .types => encodeSymbols p.types encodeType
  | .users => encodeSymbols p.users encodeUser
  | .booleans => encodeSymbols p.booleans encodeBoolean
  | .sensitivities => encodeSymbols p.sensitivities encodeSensitivity
  | .categories => encodeSymbols p.categories encodeCategory

/-- The rules of one branch of a conditional. -/
def encodeBranch (p : KernelPolicy) (handles : List Nat) : Except KernelError Bytes := do
  let records ← (handles.filterMap p.conditionalRules.entry?).mapM (AccessEntry.encode p.version)
  return u32 handles.length ++ records.flatten

def encodeConditional (p : KernelPolicy) (c : ConditionalNode) : Except KernelError Bytes := do
  let whenTrue ← p.encodeBranch c.whenTrue
  let whenFalse ← p.encodeBranch c.whenFalse
  let condition := encodeList (fun item => u32 item.code.1 ++ u32 item.code.2) c.condition
  return u32 c.state.toNat ++ condition ++ whenTrue ++ whenFalse

def encodeConditionals (p : KernelPolicy) : Except KernelError Bytes := do
  let nodes ← p.conditionals.mapM p.encodeConditional
  return u32 p.conditionals.length ++ nodes.flatten

def encodeRoleTransition (v : FormatVersion) (t : RoleTransition) : Bytes :=
  u32 t.role ++ u32 t.type ++ u32 t.newRole
    ++ (if v.supports .roleTransitionClass then u32 t.cls else [])

def encodeRoleAllow (a : RoleAllow) : Bytes :=
  u32 a.role ++ u32 a.newRole

/-- Each key once, with its groups. -/
def encodeCompactNames (t : FilenameTransitions) : Bytes :=
  u32 t.keyCount ++ t.entries.flatMap fun (key, groups) =>
    encodeText key.name ++ u32 key.target ++ u32 key.cls
      ++ encodeList (fun g => g.sources.encode ++ u32 g.result) groups

/-- Each pair of a source and a key once. -/
def encodeExpandedNames (t : FilenameTransitions) : Bytes :=
  u32 t.ruleCount ++ t.entries.flatMap fun (key, groups) =>
    groups.flatMap fun g => g.sources.toList.flatMap fun bit =>
      encodeText key.name ++ u32 (bit + 1) ++ u32 key.target ++ u32 key.cls ++ u32 g.result

def encodeFilenameTransitions (v : FormatVersion) (t : FilenameTransitions) : Bytes :=
  if !v.supports .filenameTransitions then []
  else if v.supports .compactFilenameTransitions then encodeCompactNames t
  else encodeExpandedNames t

def encodeRangeTransition (v : FormatVersion) (t : RangeTransition) : Bytes :=
  u32 t.source ++ u32 t.target
    ++ (if v.supports .rangeTransitionClass then u32 t.cls else []) ++ t.range.encode

def encodeSids (o : ObjectContexts) : Bytes :=
  encodeList (fun s : InitialSid => u32 s.sid ++ s.context.encode) o.sids

def encodeNode (n : NodeContext) : Bytes :=
  n.address ++ n.mask ++ n.context.encode

def encodeRegion (r : RegionContext) : Bytes :=
  u32 r.low ++ u32 r.high ++ r.context.encode

/-- The object contexts of an ordinary kernel; the infiniband lists need a later version. -/
def encodeSelinuxObjects (v : FormatVersion) (o : ObjectContexts) : Bytes :=
  encodeSids o
    ++ encodeList (fun f : FilesystemContext =>
        encodeText f.name ++ f.filesystem.encode ++ f.file.encode) o.filesystems
    ++ encodeList (fun c : PortContext =>
        u32 c.protocol.number ++ u32 c.low ++ u32 c.high ++ c.context.encode) o.ports
    ++ encodeList (fun c : InterfaceContext =>
        encodeText c.name ++ c.interface.encode ++ c.packet.encode) o.interfaces
    ++ encodeList encodeNode o.nodes
    ++ encodeList (fun c : FilesystemUseContext =>
        u32 c.behavior.number ++ encodeText c.filesystem ++ c.context.encode) o.filesystemUses
    ++ encodeList encodeNode o.nodes6
    ++ (if v.supports .infiniband then
          encodeList (fun c : PartitionKeyContext =>
              c.subnet ++ u32 c.low ++ u32 c.high ++ c.context.encode) o.partitionKeys
            ++ encodeList (fun c : EndPortContext =>
              textLength c.device ++ u32 c.port ++ ofString c.device ++ c.context.encode) o.endPorts
        else [])

/-- A memory range; before 64-bit addresses its bounds have to fit in 32 bits. -/
def encodeMemory (v : FormatVersion) (r : RegionContext) : Except KernelError Bytes := do
  if v.supports .wideMemory then
    return u64 r.low ++ u64 r.high ++ r.context.encode
  else
    if wordBound ≤ r.low then throw (.version v.number (.wideAddress r.low))
    if wordBound ≤ r.high then throw (.version v.number (.wideAddress r.high))
    return encodeRegion r

/-- The object contexts of a Xen hypervisor. -/
def encodeXenObjects (v : FormatVersion) (o : ObjectContexts) : Except KernelError Bytes := do
  let memory ← o.ioMemory.mapM (encodeMemory v)
  return encodeSids o
    ++ encodeList (fun c : InterruptContext => u32 c.irq ++ c.context.encode) o.interrupts
    ++ encodeList encodeRegion o.ioPorts
    ++ u32 o.ioMemory.length ++ memory.flatten
    ++ encodeList (fun c : DeviceContext => u32 c.device ++ c.context.encode) o.pciDevices
    ++ (if v.supports .wideMemory then
          encodeList (fun c : PathContext => encodeText c.path ++ c.context.encode) o.deviceTrees
        else [])

def encodeObjects (p : KernelPolicy) : Except KernelError Bytes :=
  match p.target with
  | .selinux => .ok (encodeSelinuxObjects p.version p.objects)
  | .xen => encodeXenObjects p.version p.objects

def encodeGenfsEntry (e : GenfsEntry) : Bytes :=
  encodeText e.path ++ u32 e.cls ++ e.context.encode

def encodeGenfs (g : Genfs) : Bytes :=
  encodeText g.filesystem ++ encodeList encodeGenfsEntry g.entries

/-- The policy file. -/
def encode (p : KernelPolicy) : Except KernelError Bytes := do
  let v := p.version
  if !v.writable then throw (.version v.number .notWritable)
  let rules ← p.rules.encode v
  let conditionals ← p.encodeConditionals
  let objects ← p.encodeObjects
  return p.encodeHeader
    ++ p.capabilities.encode
    ++ (if v.supports .permissive then p.permissive.encode else [])
    ++ SymbolKind.all.flatMap p.encodeSymbolTable
    ++ rules
    ++ conditionals
    ++ encodeList (encodeRoleTransition v) p.roleTransitions
    ++ encodeList encodeRoleAllow p.roleAllows
    ++ encodeFilenameTransitions v p.filenameTransitions
    ++ objects
    ++ encodeList encodeGenfs p.genfs
    ++ encodeList (encodeRangeTransition v) p.rangeTransitions
    ++ p.typeAttributes.flatMap BitSet.encode

end KernelPolicy

end CilPolicy
