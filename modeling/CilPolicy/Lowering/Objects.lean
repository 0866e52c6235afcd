import CilPolicy.Kernel.Policy
import CilPolicy.Lowering.Numbering

/-!
Labels as object contexts of the kernel policy. Each target has kinds of label of its
own and leaves out the others with a warning.
-/

namespace CilPolicy

namespace Lowering

/-- A context in kernel values. -/
def context (l : Lowering) (location : Location) (context : ContextArg Id) :
    Except Diagnostic Context := do
  let fail {α : Type} (fault : ContextFault) : Except Diagnostic α :=
    .error (.violation (.context fault) (some location))
  let known {α : Type} : Option α → Except Diagnostic α
    | some a => .ok a
    | none => fail .missing
  let spec ← known (l.db.contextSpec? context)
  let user ← known (l.users.value? spec.user)
  let role ← known (l.roles.value? spec.role)
  let type ← known (l.typeValue? spec.type)
  match l.evalRange spec.range with
  | .ok range => return { user, role, type, range }
  | .error fault => fail (.level fault)

/-- Labels with their contexts in kernel values. -/
def labeled (l : Lowering) (make : σ → Context → β) (labels : List (Label σ (ContextArg Id))) :
    Except Diagnostic (List β) :=
  labels.mapM fun x => do return make x.selector (← l.context x.location x.context)

/-- The initial contexts, numbered by their place in the order. -/
def initialSids (l : Lowering) : Except Diagnostic (List InitialSid) :=
  (l.db.orders.sids.zipIdx.filterMap fun (id, i) => do
    let d ← l.db.sids.get? id
    let context ← d.value
    return (i + 1, d, context)).mapM fun (sid, d, context) => do
      return { sid, name := d.name, context := ← l.context d.location context }

def interfaces (l : Lowering) : Except Diagnostic (List InterfaceContext) :=
  l.db.labels.interfaces.mapM fun x => do
    return {
      name := x.selector
      interface := ← l.context x.location x.context.1
      packet := ← l.context x.location x.context.2 }

/-- The contexts of nodes; address and mask have to be of one family. -/
def nodes (l : Lowering) : Except Diagnostic (List NodeContext) :=
  l.db.labels.nodes.mapM fun x => do
    let context ← l.context x.location x.context
    if x.selector.address.isV4 != x.selector.mask.isV4 then
      throw (.violation .addressFamilies (some x.location))
    return { address := x.selector.address.octets, mask := x.selector.mask.octets, context }

/-- Warns of labels that the target does not use. -/
def ignored (l : Lowering) (keyword : String) (count : Nat) : Report Unit :=
  if count = 0 then pure ()
  else Report.warn
    s!"Ignoring {count} {keyword} statements, not used by the {l.options.target.name} target"

/-- The object contexts of a policy for the first target. -/
def selinuxObjects (l : Lowering) (sids : List InitialSid) : Report ObjectContexts := do
  let x := l.db.labels
  let ports ← l.labeled (fun p c => (⟨p.protocol, p.low, p.high, c⟩ : PortContext)) x.ports
  let interfaces ← l.interfaces
  let nodes ← l.nodes
  let uses ← l.labeled
    (fun f c => (⟨f.behavior, f.filesystem, c⟩ : FilesystemUseContext)) x.filesystems
  let keys ← l.labeled (fun k c => (⟨k.subnet, k.low, k.high, c⟩ : PartitionKeyContext)) x.partitionKeys
  let endPorts ← l.labeled (fun p c => (⟨p.device, p.port, c⟩ : EndPortContext)) x.endPorts
  l.ignored "pirqcon" x.interrupts.length
  l.ignored "iomemcon" x.ioMemory.length
  l.ignored "ioportcon" x.ioPorts.length
  l.ignored "pcidevicecon" x.pciDevices.length
  l.ignored "devicetreecon" x.deviceTrees.length
  return {
    sids
    ports
    interfaces
    nodes := nodes.filter (·.address.length == 4)
    filesystemUses := uses
    nodes6 := nodes.filter (·.address.length != 4)
    partitionKeys := keys
    endPorts }

/-- The object contexts of a policy for the second target. -/
def xenObjects (l : Lowering) (sids : List InitialSid) : Report ObjectContexts := do
  let x := l.db.labels
  let interrupts ← l.labeled (fun i c => (⟨i, c⟩ : InterruptContext)) x.interrupts
  let ioPorts ← l.labeled (fun r c => (⟨r.low, r.high, c⟩ : RegionContext)) x.ioPorts
  let ioMemory ← l.labeled (fun r c => (⟨r.low, r.high, c⟩ : RegionContext)) x.ioMemory
  let pciDevices ← l.labeled (fun d c => (⟨d, c⟩ : DeviceContext)) x.pciDevices
  let deviceTrees ← l.labeled (fun p c => (⟨p, c⟩ : PathContext)) x.deviceTrees
  l.ignored "portcon" x.ports.length
  l.ignored "netifcon" x.interfaces.length
  l.ignored "nodecon" x.nodes.length
  l.ignored "fsuse" x.filesystems.length
  l.ignored "ibpkeycon" x.partitionKeys.length
  l.ignored "ibendportcon" x.endPorts.length
  return { sids, interrupts, ioPorts, ioMemory, pciDevices, deviceTrees }

def objects (l : Lowering) : Report ObjectContexts := do
  let sids ← l.initialSids
  match l.options.target with
  | .selinux => l.selinuxObjects sids
  | .xen => l.xenObjects sids

/-- Adds a label to the last filesystem, or starts the next filesystem. -/
def addGenfs : List Genfs → String → GenfsEntry → List Genfs
  | [], filesystem, entry => [⟨filesystem, [entry]⟩]
  | [last], filesystem, entry =>
    if last.filesystem = filesystem then [{ last with entries := last.entries ++ [entry] }]
    else [last, ⟨filesystem, [entry]⟩]
  | first :: rest, filesystem, entry => first :: addGenfs rest filesystem entry

/-- The labels of filesystems that cannot store any, filesystem by filesystem. -/
def genfs (l : Lowering) : Except Diagnostic (List Genfs) := do
  let entries ← l.labeled (fun s c => (s.filesystem, (⟨s.path, 0, c⟩ : GenfsEntry))) l.db.labels.genfs
  return entries.foldl (fun all (filesystem, entry) => addGenfs all filesystem entry) []

end Lowering

end CilPolicy
