import CilPolicy.Proofs.Kernel.Rule

/-!
# Policies that a file tells apart

A policy file is its sections after one another. Numbers, lengths and counts that fit in
their words, and a set of attributes for every type value, make each section readable after
those before it; so two policies of one version with one file agree in everything that the
version carries. Nothing is said of what it does not carry: the names of initial SIDs,
conditional rules that no branch refers to, and the lists of other targets.
-/

namespace CilPolicy

open Bytes

/-! ### Object contexts -/

structure InitialSid.Fits (s : InitialSid) : Prop where
  sid : s.sid < wordBound
  context : s.context.Fits

/-- A SID as the file holds it, without its name. -/
def InitialSid.record (s : InitialSid) : InitialSid :=
  { s with name := "" }

structure FilesystemContext.Fits (f : FilesystemContext) : Prop where
  name : TextFits f.name
  filesystem : f.filesystem.Fits
  file : f.file.Fits

structure PortContext.Fits (c : PortContext) : Prop where
  low : c.low < wordBound
  high : c.high < wordBound
  context : c.context.Fits

structure InterfaceContext.Fits (c : InterfaceContext) : Prop where
  name : TextFits c.name
  interface : c.interface.Fits
  packet : c.packet.Fits

/-- Address and mask have as many octets as the kind of address. -/
structure NodeContext.Fits (octets : Nat) (n : NodeContext) : Prop where
  address : n.address.length = octets
  mask : n.mask.length = octets
  context : n.context.Fits

structure FilesystemUseContext.Fits (c : FilesystemUseContext) : Prop where
  filesystem : TextFits c.filesystem
  context : c.context.Fits

structure PartitionKeyContext.Fits (c : PartitionKeyContext) : Prop where
  subnet : c.subnet.length = 8
  low : c.low < wordBound
  high : c.high < wordBound
  context : c.context.Fits

structure EndPortContext.Fits (c : EndPortContext) : Prop where
  device : TextFits c.device
  port : c.port < wordBound
  context : c.context.Fits

structure InterruptContext.Fits (c : InterruptContext) : Prop where
  irq : c.irq < wordBound
  context : c.context.Fits

/-- The ends of the region lie below the bound. -/
structure RegionContext.Fits (bound : Nat) (r : RegionContext) : Prop where
  low : r.low < bound
  high : r.high < bound
  context : r.context.Fits

structure DeviceContext.Fits (c : DeviceContext) : Prop where
  device : c.device < wordBound
  context : c.context.Fits

structure PathContext.Fits (c : PathContext) : Prop where
  path : TextFits c.path
  context : c.context.Fits

structure ObjectContexts.Fits (o : ObjectContexts) : Prop where
  sids : ListFits InitialSid.Fits o.sids
  filesystems : ListFits FilesystemContext.Fits o.filesystems
  ports : ListFits PortContext.Fits o.ports
  interfaces : ListFits InterfaceContext.Fits o.interfaces
  nodes : ListFits (NodeContext.Fits 4) o.nodes
  filesystemUses : ListFits FilesystemUseContext.Fits o.filesystemUses
  nodes6 : ListFits (NodeContext.Fits 16) o.nodes6
  partitionKeys : ListFits PartitionKeyContext.Fits o.partitionKeys
  endPorts : ListFits EndPortContext.Fits o.endPorts
  interrupts : ListFits InterruptContext.Fits o.interrupts
  ioPorts : ListFits (RegionContext.Fits wordBound) o.ioPorts
  ioMemory : ListFits (RegionContext.Fits longBound) o.ioMemory
  pciDevices : ListFits DeviceContext.Fits o.pciDevices
  deviceTrees : ListFits PathContext.Fits o.deviceTrees

/-- The lists that a file of the version holds for the target; the others are empty. -/
def ObjectContexts.record (v : FormatVersion) (o : ObjectContexts) : Target → ObjectContexts
  | .selinux =>
    { sids := o.sids.map InitialSid.record
      filesystems := o.filesystems
      ports := o.ports
      interfaces := o.interfaces
      nodes := o.nodes
      filesystemUses := o.filesystemUses
      nodes6 := o.nodes6
      partitionKeys := if v.supports .infiniband then o.partitionKeys else []
      endPorts := if v.supports .infiniband then o.endPorts else [] }
  | .xen =>
    { sids := o.sids.map InitialSid.record
      interrupts := o.interrupts
      ioPorts := o.ioPorts
      ioMemory := o.ioMemory
      pciDevices := o.pciDevices
      deviceTrees := if v.supports .wideMemory then o.deviceTrees else [] }

namespace KernelPolicy

theorem reveals_encodeSids {o w : ObjectContexts} (left : ListFits InitialSid.Fits o.sids)
    (right : ListFits InitialSid.Fits w.sids) :
    Reveals (encodeSids o) (encodeSids w)
      (o.sids.map InitialSid.record = w.sids.map InitialSid.record) := by
  refine reveals_encodeList InitialSid.record InitialSid.record left right ?_
  intro a b left right
  have context := Context.reveals_encode left.context right.context
  refine ((reveals_u32 left.sid right.sid).append fun _ => context).imp ?_
  rintro ⟨sid, context⟩
  cases a
  cases b
  simp_all [InitialSid.record]

theorem reveals_encodeNode {octets : Nat} (a b : NodeContext) (left : a.Fits octets)
    (right : b.Fits octets) : Reveals (encodeNode a) (encodeNode b) (a = b) := by
  have address := Reveals.of_length (left.address.trans right.address.symm)
  have mask := Reveals.of_length (left.mask.trans right.mask.symm)
  have context := Context.reveals_encode left.context right.context
  refine ((address.append fun _ => mask).append fun _ => context).imp ?_
  rintro ⟨⟨address, mask⟩, context⟩
  cases a
  cases b
  simp_all

theorem reveals_encodeRegion (a b : RegionContext) (left : a.Fits wordBound)
    (right : b.Fits wordBound) : Reveals (encodeRegion a) (encodeRegion b) (a = b) := by
  have low := reveals_u32 left.low right.low
  have high := reveals_u32 left.high right.high
  have context := Context.reveals_encode left.context right.context
  refine ((low.append fun _ => high).append fun _ => context).imp ?_
  rintro ⟨⟨low, high⟩, context⟩
  cases a
  cases b
  simp_all

theorem reveals_filesystem (a b : FilesystemContext) (left : a.Fits) (right : b.Fits) :
    Reveals (encodeText a.name ++ a.filesystem.encode ++ a.file.encode)
      (encodeText b.name ++ b.filesystem.encode ++ b.file.encode) (a = b) := by
  have name := reveals_encodeText left.name right.name
  have filesystem := Context.reveals_encode left.filesystem right.filesystem
  have file := Context.reveals_encode left.file right.file
  refine ((name.append fun _ => filesystem).append fun _ => file).imp ?_
  rintro ⟨⟨name, filesystem⟩, file⟩
  cases a
  cases b
  simp_all

theorem reveals_protocol (a b : PortProtocol) : Reveals (u32 a.number) (u32 b.number) (a = b) := by
  have fits : ∀ p : PortProtocol, p.number < wordBound := by
    intro p
    cases p <;> decide
  refine (reveals_u32 (fits a) (fits b)).imp fun same => ?_
  cases a <;> cases b <;> simp_all [PortProtocol.number]

theorem reveals_port (a b : PortContext) (left : a.Fits) (right : b.Fits) :
    Reveals (u32 a.protocol.number ++ u32 a.low ++ u32 a.high ++ a.context.encode)
      (u32 b.protocol.number ++ u32 b.low ++ u32 b.high ++ b.context.encode) (a = b) := by
  have protocol := reveals_protocol a.protocol b.protocol
  have low := reveals_u32 left.low right.low
  have high := reveals_u32 left.high right.high
  have context := Context.reveals_encode left.context right.context
  refine (((protocol.append fun _ => low).append fun _ => high).append fun _ => context).imp ?_
  rintro ⟨⟨⟨protocol, low⟩, high⟩, context⟩
  cases a
  cases b
  simp_all

theorem reveals_interface (a b : InterfaceContext) (left : a.Fits) (right : b.Fits) :
    Reveals (encodeText a.name ++ a.interface.encode ++ a.packet.encode)
      (encodeText b.name ++ b.interface.encode ++ b.packet.encode) (a = b) := by
  have name := reveals_encodeText left.name right.name
  have interface := Context.reveals_encode left.interface right.interface
  have packet := Context.reveals_encode left.packet right.packet
  refine ((name.append fun _ => interface).append fun _ => packet).imp ?_
  rintro ⟨⟨name, interface⟩, packet⟩
  cases a
  cases b
  simp_all

theorem reveals_behavior (a b : FilesystemUse) : Reveals (u32 a.number) (u32 b.number) (a = b) := by
  have fits : ∀ u : FilesystemUse, u.number < wordBound := by
    intro u
    cases u <;> decide
  refine (reveals_u32 (fits a) (fits b)).imp fun same => ?_
  cases a <;> cases b <;> simp_all [FilesystemUse.number]

theorem reveals_filesystemUse (a b : FilesystemUseContext) (left : a.Fits) (right : b.Fits) :
    Reveals (u32 a.behavior.number ++ encodeText a.filesystem ++ a.context.encode)
      (u32 b.behavior.number ++ encodeText b.filesystem ++ b.context.encode) (a = b) := by
  have behavior := reveals_behavior a.behavior b.behavior
  have filesystem := reveals_encodeText left.filesystem right.filesystem
  have context := Context.reveals_encode left.context right.context
  refine ((behavior.append fun _ => filesystem).append fun _ => context).imp ?_
  rintro ⟨⟨behavior, filesystem⟩, context⟩
  cases a
  cases b
  simp_all

theorem reveals_partitionKey (a b : PartitionKeyContext) (left : a.Fits) (right : b.Fits) :
    Reveals (a.subnet ++ u32 a.low ++ u32 a.high ++ a.context.encode)
      (b.subnet ++ u32 b.low ++ u32 b.high ++ b.context.encode) (a = b) := by
  have subnet := Reveals.of_length (left.subnet.trans right.subnet.symm)
  have low := reveals_u32 left.low right.low
  have high := reveals_u32 left.high right.high
  have context := Context.reveals_encode left.context right.context
  refine (((subnet.append fun _ => low).append fun _ => high).append fun _ => context).imp ?_
  rintro ⟨⟨⟨subnet, low⟩, high⟩, context⟩
  cases a
  cases b
  simp_all

theorem reveals_endPort (a b : EndPortContext) (left : a.Fits) (right : b.Fits) :
    Reveals (textLength a.device ++ u32 a.port ++ ofString a.device ++ a.context.encode)
      (textLength b.device ++ u32 b.port ++ ofString b.device ++ b.context.encode) (a = b) := by
  have length := reveals_textLength left.device right.device
  have port := reveals_u32 left.port right.port
  have context := Context.reveals_encode left.context right.context
  refine (((length.append fun _ => port).append fun told =>
    reveals_ofString told.1).append fun _ => context).imp ?_
  rintro ⟨⟨⟨_, port⟩, device⟩, context⟩
  cases a
  cases b
  simp_all

theorem reveals_selinuxObjects (v : FormatVersion) {o w : ObjectContexts} (left : o.Fits)
    (right : w.Fits) :
    Reveals (encodeSelinuxObjects v o) (encodeSelinuxObjects v w)
      (o.record v .selinux = w.record v .selinux) := by
  have sids := reveals_encodeSids left.sids right.sids
  have filesystems := reveals_list left.filesystems right.filesystems reveals_filesystem
  have ports := reveals_list left.ports right.ports reveals_port
  have interfaces := reveals_list left.interfaces right.interfaces reveals_interface
  have nodes := reveals_list left.nodes right.nodes reveals_encodeNode
  have uses := reveals_list left.filesystemUses right.filesystemUses reveals_filesystemUse
  have nodes6 := reveals_list left.nodes6 right.nodes6 reveals_encodeNode
  have keys := reveals_list left.partitionKeys right.partitionKeys reveals_partitionKey
  have endPorts := reveals_list left.endPorts right.endPorts reveals_endPort
  have infiniband := Reveals.gated (v.supports .infiniband) fun _ => keys.append fun _ => endPorts
  refine (((((((sids.append fun _ => filesystems).append fun _ => ports).append fun _ =>
    interfaces).append fun _ => nodes).append fun _ => uses).append fun _ => nodes6).append
      fun _ => infiniband).imp ?_
  rintro ⟨⟨⟨⟨⟨⟨⟨sids, filesystems⟩, ports⟩, interfaces⟩, nodes⟩, uses⟩, nodes6⟩, infiniband⟩
  cases supported : v.supports .infiniband <;> simp_all [ObjectContexts.record]

theorem reveals_interrupt (a b : InterruptContext) (left : a.Fits) (right : b.Fits) :
    Reveals (u32 a.irq ++ a.context.encode) (u32 b.irq ++ b.context.encode) (a = b) := by
  have irq := reveals_u32 left.irq right.irq
  refine (irq.append fun _ => Context.reveals_encode left.context right.context).imp ?_
  rintro ⟨irq, context⟩
  cases a
  cases b
  simp_all

theorem reveals_device (a b : DeviceContext) (left : a.Fits) (right : b.Fits) :
    Reveals (u32 a.device ++ a.context.encode) (u32 b.device ++ b.context.encode) (a = b) := by
  have device := reveals_u32 left.device right.device
  refine (device.append fun _ => Context.reveals_encode left.context right.context).imp ?_
  rintro ⟨device, context⟩
  cases a
  cases b
  simp_all

theorem reveals_path (a b : PathContext) (left : a.Fits) (right : b.Fits) :
    Reveals (encodeText a.path ++ a.context.encode) (encodeText b.path ++ b.context.encode)
      (a = b) := by
  have path := reveals_encodeText left.path right.path
  refine (path.append fun _ => Context.reveals_encode left.context right.context).imp ?_
  rintro ⟨path, context⟩
  cases a
  cases b
  simp_all

/-- Before 64-bit addresses, a memory range is written only when its ends are words. -/
theorem encodeMemory_eq {v : FormatVersion} {r : RegionContext} {x : Bytes}
    (run : encodeMemory v r = .ok x) :
    (v.supports .wideMemory = true ∧ x = u64 r.low ++ u64 r.high ++ r.context.encode) ∨
      (v.supports .wideMemory = false ∧ r.low < wordBound ∧ r.high < wordBound ∧
        x = encodeRegion r) := by
  rw [encodeMemory] at run
  cases supported : v.supports .wideMemory with
  | true =>
    rw [supported] at run
    cases run
    exact Or.inl ⟨rfl, rfl⟩
  | false =>
    rw [supported] at run
    by_cases low : wordBound ≤ r.low
    · simp [low, bind, Except.bind, throw, throwThe, MonadExceptOf.throw] at run
    · by_cases high : wordBound ≤ r.high
      · simp [low, high, bind, Except.bind, throw, throwThe, MonadExceptOf.throw] at run
      · simp only [low, high, if_false] at run
        cases run
        exact Or.inr ⟨rfl, Nat.lt_of_not_le low, Nat.lt_of_not_le high, rfl⟩

theorem reveals_encodeMemory {v : FormatVersion} {a b : RegionContext} {x y : Bytes}
    (left : a.Fits longBound) (right : b.Fits longBound) (run : encodeMemory v a = .ok x)
    (run' : encodeMemory v b = .ok y) : Reveals x y (a = b) := by
  rcases encodeMemory_eq run with ⟨wide, rfl⟩ | ⟨narrow, low, high, rfl⟩
  · rcases encodeMemory_eq run' with ⟨_, rfl⟩ | ⟨narrow', _⟩
    · have low := reveals_u64 left.low right.low
      have high := reveals_u64 left.high right.high
      have context := Context.reveals_encode left.context right.context
      refine ((low.append fun _ => high).append fun _ => context).imp ?_
      rintro ⟨⟨low, high⟩, context⟩
      cases a
      cases b
      simp_all
    · rw [wide] at narrow'
      cases narrow'
  · rcases encodeMemory_eq run' with ⟨wide', _⟩ | ⟨_, low', high', rfl⟩
    · rw [narrow] at wide'
      cases wide'
    · exact reveals_encodeRegion a b ⟨low, high, left.context⟩ ⟨low', high', right.context⟩

theorem reveals_xenObjects {v : FormatVersion} {o w : ObjectContexts} {x y : Bytes} (left : o.Fits)
    (right : w.Fits) (run : encodeXenObjects v o = .ok x) (run' : encodeXenObjects v w = .ok y) :
    Reveals x y (o.record v .xen = w.record v .xen) := by
  obtain ⟨memory, written, done⟩ := bind_eq_ok.mp run
  obtain ⟨memory', written', done'⟩ := bind_eq_ok.mp run'
  cases done
  cases done'
  have sids := reveals_encodeSids left.sids right.sids
  have interrupts := reveals_list left.interrupts right.interrupts reveals_interrupt
  have ioPorts := reveals_list left.ioPorts right.ioPorts reveals_encodeRegion
  have count := reveals_u32 left.ioMemory.count right.ioMemory.count
  have ranges : o.ioMemory.length = w.ioMemory.length →
      Reveals memory.flatten memory'.flatten (o.ioMemory.map id = w.ioMemory.map id) := by
    intro lengths
    refine reveals_mapM id id written written' lengths ?_
    intro a ha b hb x y
    exact reveals_encodeMemory (left.ioMemory.items a ha) (right.ioMemory.items b hb)
  have devices := reveals_list left.pciDevices right.pciDevices reveals_device
  have trees := Reveals.gated (v.supports .wideMemory) fun _ =>
    reveals_list left.deviceTrees right.deviceTrees reveals_path
  refine ((((((sids.append fun _ => interrupts).append fun _ => ioPorts).append fun _ =>
    count).append fun told => ranges told.2).append fun _ => devices).append fun _ => trees).imp ?_
  rintro ⟨⟨⟨⟨⟨⟨sids, interrupts⟩, ioPorts⟩, _⟩, ranges⟩, devices⟩, trees⟩
  cases supported : v.supports .wideMemory <;> simp_all [ObjectContexts.record]

theorem reveals_encodeObjects {p q : KernelPolicy} {x y : Bytes} (version : p.version = q.version)
    (target : p.target = q.target) (left : p.objects.Fits) (right : q.objects.Fits)
    (run : p.encodeObjects = .ok x) (run' : q.encodeObjects = .ok y) :
    Reveals x y (p.objects.record p.version p.target = q.objects.record q.version q.target) := by
  rw [encodeObjects, version, target] at run
  rw [encodeObjects] at run'
  rw [version, target]
  cases htarget : q.target with
  | selinux =>
    rw [htarget] at run run'
    cases run
    cases run'
    exact reveals_selinuxObjects q.version left right
  | xen =>
    rw [htarget] at run run'
    exact reveals_xenObjects left right run run'

end KernelPolicy

/-! ### Labels without storage -/

structure GenfsEntry.Fits (e : GenfsEntry) : Prop where
  path : TextFits e.path
  cls : e.cls < wordBound
  context : e.context.Fits

structure Genfs.Fits (g : Genfs) : Prop where
  filesystem : TextFits g.filesystem
  entries : ListFits GenfsEntry.Fits g.entries

namespace KernelPolicy

theorem reveals_encodeGenfsEntry (a b : GenfsEntry) (left : a.Fits) (right : b.Fits) :
    Reveals (encodeGenfsEntry a) (encodeGenfsEntry b) (a = b) := by
  have path := reveals_encodeText left.path right.path
  have cls := reveals_u32 left.cls right.cls
  have context := Context.reveals_encode left.context right.context
  refine ((path.append fun _ => cls).append fun _ => context).imp ?_
  rintro ⟨⟨path, cls⟩, context⟩
  cases a
  cases b
  simp_all

theorem reveals_encodeGenfs (a b : Genfs) (left : a.Fits) (right : b.Fits) :
    Reveals (encodeGenfs a) (encodeGenfs b) (a = b) := by
  have filesystem := reveals_encodeText left.filesystem right.filesystem
  have entries := reveals_list left.entries right.entries reveals_encodeGenfsEntry
  refine (filesystem.append fun _ => entries).imp ?_
  rintro ⟨filesystem, entries⟩
  cases a
  cases b
  simp_all

/-! ### The whole file -/

/-- What the types and the operations of a policy ensure, and what its file needs besides:
texts and lists whose length is a word, data of access rules that match their keys, and a
set of attributes for every type value. A longer list would be counted from zero again. -/
structure Fits (p : KernelPolicy) : Prop where
  capabilities : p.capabilities.Fits
  permissive : p.permissive.Fits
  commons : p.commons.Fits CommonDatum.Fits
  classes : p.classes.Fits ClassDatum.Fits
  roles : p.roles.Fits RoleDatum.Fits
  types : p.types.Fits TypeDatum.Fits
  users : p.users.Fits UserDatum.Fits
  booleans : p.booleans.Fits BooleanDatum.Fits
  sensitivities : p.sensitivities.Fits SensitivityDatum.Fits
  categories : p.categories.Fits CategoryDatum.Fits
  rules : p.rules.Fits
  conditionals : ListFits (ConditionalFits p.conditionalRules) p.conditionals
  roleTransitions : ListFits RoleTransition.Fits p.roleTransitions
  roleAllows : ListFits RoleAllow.Fits p.roleAllows
  filenameTransitions : p.filenameTransitions.Fits
  objects : p.objects.Fits
  genfs : ListFits Genfs.Fits p.genfs
  rangeTransitions : ListFits RangeTransition.Fits p.rangeTransitions
  typeAttributes : ∀ s ∈ p.typeAttributes, s.Fits
  attributesOfTypes : p.typeAttributes.length = p.types.primaries

/-- The eight symbol tables hold the same records in the same order. -/
structure SameSymbols (p q : KernelPolicy) : Prop where
  commons : p.commons.records CommonDatum.record = q.commons.records CommonDatum.record
  classes : p.classes.records (ClassDatum.record p.version) =
    q.classes.records (ClassDatum.record q.version)
  roles : p.roles.records RoleDatum.record = q.roles.records RoleDatum.record
  types : p.types.records id = q.types.records id
  users : p.users.records id = q.users.records id
  booleans : p.booleans.records id = q.booleans.records id
  sensitivities : p.sensitivities.records id = q.sensitivities.records id
  categories : p.categories.records id = q.categories.records id

/-- The policies agree in everything that a file of their version carries. -/
structure SameLayout (p q : KernelPolicy) : Prop extends SameSymbols p q where
  target : p.target = q.target
  mls : p.mls = q.mls
  handleUnknown : p.handleUnknown = q.handleUnknown
  capabilities : p.capabilities = q.capabilities
  permissive : p.permissive = q.permissive
  rules : p.rules.toList.map AccessEntry.record = q.rules.toList.map AccessEntry.record
  conditionals : p.conditionals.map (conditionalRecord p.conditionalRules) =
    q.conditionals.map (conditionalRecord q.conditionalRules)
  roleTransitions : p.roleTransitions.map (RoleTransition.record p.version) =
    q.roleTransitions.map (RoleTransition.record q.version)
  roleAllows : p.roleAllows = q.roleAllows
  filenameTransitions : p.version.supports .filenameTransitions = true →
    p.filenameTransitions = q.filenameTransitions
  objects : p.objects.record p.version p.target = q.objects.record q.version q.target
  genfs : p.genfs = q.genfs
  rangeTransitions : p.rangeTransitions = q.rangeTransitions
  typeAttributes : p.typeAttributes = q.typeAttributes

section Pair

variable {p q : KernelPolicy}

theorem reveals_config (a b : HandleUnknown) (m n : Bool) :
    Reveals (u32 (a.configBits ||| if m then mlsConfigBit else 0))
      (u32 (b.configBits ||| if n then mlsConfigBit else 0)) (a = b ∧ m = n) := by
  have fits : ∀ (c : HandleUnknown) (l : Bool),
      (c.configBits ||| if l then mlsConfigBit else 0) < wordBound := by
    intro c l
    cases c <;> cases l <;> decide
  refine (reveals_u32 (fits a m) (fits b n)).imp fun same => ?_
  revert same
  cases a <;> cases b <;> cases m <;> cases n <;> decide

theorem reveals_signature (a b : Target) :
    Reveals (encodeText a.signature) (encodeText b.signature) (a = b) := by
  have fits : ∀ t : Target, TextFits t.signature := by
    intro t
    cases t <;> decide
  refine (reveals_encodeText (fits a) (fits b)).imp fun same => ?_
  revert same
  cases a <;> cases b <;> decide

theorem number_lt_of_writable {v : FormatVersion} (writable : v.writable = true) :
    v.number < wordBound := by
  have range : v.number ≤ FormatVersion.newest := by
    simp only [FormatVersion.writable, Bool.and_eq_true, decide_eq_true_eq] at writable
    exact writable.2
  exact Nat.lt_of_le_of_lt range (by decide)

theorem reveals_encodeHeader (version : p.version = q.version) (writable : q.version.writable = true) :
    Reveals p.encodeHeader q.encodeHeader
      (p.target = q.target ∧ p.handleUnknown = q.handleUnknown ∧ p.mls = q.mls) := by
  have constant : ∀ x : Bytes, Reveals x x (x = x) := fun x => Reveals.of_length rfl
  have signature := reveals_signature p.target q.target
  have config := reveals_config p.handleUnknown q.handleUnknown p.mls q.mls
  have number := reveals_u32 (number_lt_of_writable writable) (number_lt_of_writable writable)
  have lists : p.target = q.target → Reveals (u32 (q.version.objectListCount p.target))
      (u32 (q.version.objectListCount q.target)) True := by
    intro target
    rw [target]
    exact (constant _).imp fun _ => trivial
  rw [encodeHeader, encodeHeader, version]
  refine (((((constant _).append fun _ => signature).append fun _ => number).append fun _ =>
    config).append fun _ => constant _).append (fun told => lists told.1.1.1.2) |>.imp ?_
  rintro ⟨⟨⟨⟨⟨_, target⟩, _⟩, unknown, mls⟩, _⟩, _⟩
  exact ⟨target, unknown, mls⟩

theorem reveals_symbolTables (version : p.version = q.version) (left : p.Fits) (right : q.Fits) :
    Reveals (SymbolKind.all.flatMap p.encodeSymbolTable) (SymbolKind.all.flatMap q.encodeSymbolTable)
      (SameSymbols p q) := by
  open SymbolTable in
  have commons := reveals_encodeSymbols left.commons right.commons reveals_encodeCommon
  have classes := reveals_encodeSymbols left.classes right.classes (reveals_encodeClass q.version)
  have roles := reveals_encodeSymbols left.roles right.roles reveals_encodeRole
  have types := reveals_encodeSymbols left.types right.types reveals_encodeType
  have users := reveals_encodeSymbols left.users right.users reveals_encodeUser
  have booleans := reveals_encodeSymbols left.booleans right.booleans reveals_encodeBoolean
  have sensitivities := reveals_encodeSymbols left.sensitivities right.sensitivities
    reveals_encodeSensitivity
  have categories := reveals_encodeSymbols left.categories right.categories reveals_encodeCategory
  simp only [SymbolKind.all, List.flatMap_cons, List.flatMap_nil, encodeSymbolTable, version]
  refine (commons.append fun _ => classes.append fun _ => roles.append fun _ => types.append fun _ =>
    users.append fun _ => booleans.append fun _ => sensitivities.append fun _ =>
      categories.append fun _ => Reveals.nil).imp ?_
  rintro ⟨commons, classes, roles, types, users, booleans, sensitivities, categories, _⟩
  exact ⟨commons, version ▸ classes, roles, types, users, booleans, sensitivities, categories⟩

/-- The sections of a file that was written. -/
theorem encode_eq_ok {bytes : Bytes} (run : p.encode = .ok bytes) :
    p.version.writable = true ∧ ∃ rules conditionals objects,
      p.rules.encode p.version = .ok rules ∧ p.encodeConditionals = .ok conditionals ∧
      p.encodeObjects = .ok objects ∧
      bytes = p.encodeHeader ++ p.capabilities.encode
        ++ (if p.version.supports .permissive then p.permissive.encode else [])
        ++ SymbolKind.all.flatMap p.encodeSymbolTable ++ rules ++ conditionals
        ++ encodeList (encodeRoleTransition p.version) p.roleTransitions
        ++ encodeList encodeRoleAllow p.roleAllows
        ++ encodeFilenameTransitions p.version p.filenameTransitions ++ objects
        ++ encodeList encodeGenfs p.genfs
        ++ encodeList (encodeRangeTransition p.version) p.rangeTransitions
        ++ p.typeAttributes.flatMap BitSet.encode := by
  rw [encode] at run
  cases writable : p.version.writable with
  | false => simp [writable, bind, Except.bind, throw, throwThe, MonadExceptOf.throw] at run
  | true =>
    simp only [writable, Bool.not_true] at run
    obtain ⟨rules, hrules, run⟩ := bind_eq_ok.mp run
    obtain ⟨conditionals, hconditionals, run⟩ := bind_eq_ok.mp run
    obtain ⟨objects, hobjects, done⟩ := bind_eq_ok.mp run
    exact ⟨rfl, rules, conditionals, objects, hrules, hconditionals, hobjects,
      (Except.ok.inj done).symm⟩

/-- What a file holds before its rules. -/
def beforeRules (p : KernelPolicy) : Bytes :=
  p.encodeHeader ++ p.capabilities.encode
    ++ (if p.version.supports .permissive then p.permissive.encode else [])
    ++ SymbolKind.all.flatMap p.encodeSymbolTable

/-- The rules and the role transitions of a file that was written, in their places. -/
theorem exists_sections {bytes : Bytes} (run : p.encode = .ok bytes) : ∃ rules conditionals rest,
    p.rules.encode p.version = .ok rules ∧ p.encodeConditionals = .ok conditionals ∧
      bytes = p.beforeRules ++ rules ++ conditionals
        ++ encodeList (encodeRoleTransition p.version) p.roleTransitions ++ rest := by
  obtain ⟨_, rules, conditionals, objects, hrules, hconditionals, _, whole⟩ := encode_eq_ok run
  refine ⟨rules, conditionals, encodeList encodeRoleAllow p.roleAllows
    ++ encodeFilenameTransitions p.version p.filenameTransitions ++ objects ++ encodeList encodeGenfs p.genfs
    ++ encodeList (encodeRangeTransition p.version) p.rangeTransitions
    ++ p.typeAttributes.flatMap BitSet.encode, hrules, hconditionals, ?_⟩
  rw [whole]
  simp only [beforeRules, List.append_assoc]

/-- Policies of one version with one file agree in everything that the version carries. Their numbers are
words of their fields, no set has a bit from 2^32 - 64 on, and no text, table or list has 2^32 bytes or items
or more: its length would be counted from zero again, so that two files could be the same by chance. -/
theorem sameLayout_of_encode_eq {bytes : Bytes} (left : p.Fits) (right : q.Fits)
    (version : p.version = q.version) (run : p.encode = .ok bytes) (run' : q.encode = .ok bytes) :
    SameLayout p q := by
  obtain ⟨_, rules, conditionals, objects, hrules, hconditionals, hobjects, whole⟩ := encode_eq_ok run
  obtain ⟨writable, rules', conditionals', objects', hrules', hconditionals', hobjects', whole'⟩ :=
    encode_eq_ok run'
  have same := whole.symm.trans whole'
  rw [version] at same hrules
  have supported : ∀ f : Feature, f.since ≤ FormatVersion.oldest → q.version.supports f = true := by
    intro f old
    simp only [FormatVersion.writable, Bool.and_eq_true, decide_eq_true_eq] at writable
    exact decide_eq_true (Nat.le_trans old writable.1)
  have header := reveals_encodeHeader version writable
  have capabilities := BitSet.reveals_encode left.capabilities right.capabilities
  have permissive := Reveals.gated (q.version.supports .permissive) fun _ =>
    BitSet.reveals_encode left.permissive right.permissive
  have symbols := reveals_symbolTables version left right
  have rulesTold := AccessTable.reveals_encode left.rules right.rules hrules hrules'
  have conditionalsTold := reveals_encodeConditionals version left.conditionals right.conditionals
    hconditionals hconditionals'
  have roleTransitions := reveals_encodeList (RoleTransition.record q.version)
    (RoleTransition.record q.version) left.roleTransitions right.roleTransitions
    fun _ _ => reveals_encodeRoleTransition q.version
  have roleAllows := reveals_list left.roleAllows right.roleAllows fun _ _ => reveals_encodeRoleAllow
  have names := reveals_encodeFilenameTransitions q.version left.filenameTransitions
    right.filenameTransitions
  have objectsTold := fun target =>
    reveals_encodeObjects version target left.objects right.objects hobjects hobjects'
  have genfs := reveals_list left.genfs right.genfs reveals_encodeGenfs
  have ranges := reveals_list left.rangeTransitions right.rangeTransitions fun _ _ =>
    reveals_encodeRangeTransition (supported .rangeTransitionClass (by decide))
  -- The number of attribute sets is not written: the type table tells it.
  have attributes : SameSymbols p q → Reveals (p.typeAttributes.flatMap BitSet.encode)
      (q.typeAttributes.flatMap BitSet.encode) (p.typeAttributes = q.typeAttributes) := by
    intro symbols
    have primaries : p.types.primaries = q.types.primaries := (Prod.mk.inj symbols.types).1
    have lengths : p.typeAttributes.length = q.typeAttributes.length := by
      rw [left.attributesOfTypes, right.attributesOfTypes, primaries]
    exact reveals_items lengths fun s hs t ht =>
      BitSet.reveals_encode (left.typeAttributes s hs) (right.typeAttributes t ht)
  have front := ((header.append fun _ => capabilities).append fun _ => permissive).append
    fun _ => symbols
  have rulesPart := (((front.append fun _ => rulesTold).append fun _ => conditionalsTold).append
    fun _ => roleTransitions).append fun _ => roleAllows
  have told := ((((rulesPart.append fun _ => names).append
    fun told => objectsTold told.1.1.1.1.1.1.1.1.1).append fun _ => genfs).append
      fun _ => ranges).append fun told => attributes told.1.1.1.1.1.1.1.1.2
  obtain ⟨⟨⟨⟨⟨⟨⟨⟨⟨⟨⟨⟨header, capabilities⟩, permissive⟩, symbols⟩, rules⟩, conditionals⟩,
    roleTransitions⟩, roleAllows⟩, names⟩, objects⟩, genfs⟩, ranges⟩, attributes⟩ := told.of_eq same
  exact {
    toSameSymbols := symbols
    target := header.1
    mls := header.2.2
    handleUnknown := header.2.1
    capabilities := capabilities
    permissive := permissive (supported .permissive (by decide))
    rules := rules
    conditionals := conditionals
    roleTransitions := version ▸ roleTransitions
    roleAllows := roleAllows
    filenameTransitions := version ▸ names
    objects := objects
    genfs := genfs
    rangeTransitions := ranges
    typeAttributes := attributes }

end Pair

/-- A policy with one rule, one role transition and one SID. -/
def sparse (v : FormatVersion) (mark : RuleKinds) (cls : Nat) (name : String) : KernelPolicy :=
  { KernelPolicy.new .selinux v with
    rules := ((∅ : AccessTable).add ⟨1, 2, 1, RuleKinds.allowed ||| mark⟩ (.ofWord 3)).2
    roleTransitions := [⟨1, 2, 3, cls⟩]
    objects := { sids := [⟨1, name, ⟨1, 1, 1, .single ⟨1, .ofList [0, 70]⟩⟩⟩] } }

theorem fits_new_table {α : Type} (fits : α → Prop) (bucketCount : Nat) :
    (SymbolTable.new bucketCount : SymbolTable α).Fits fits where
  built := .new bucketCount
  primaries := show 0 < wordBound by decide
  size := show 0 < wordBound by decide
  names := by simp [SymbolTable.new, SymbolTable.toList, ChainTable.new, ChainTable.toList]
  data := by simp [SymbolTable.new, SymbolTable.toList, ChainTable.new, ChainTable.toList]

theorem listFits_nil {α : Type} (fits : α → Prop) : ListFits fits [] :=
  ⟨show 0 < wordBound by decide, fun _ mem => (List.not_mem_nil mem).elim⟩

theorem listFits_singleton {α : Type} {fits : α → Prop} {a : α} (ha : fits a) : ListFits fits [a] :=
  ⟨show 1 < wordBound by decide, fun _ mem => List.mem_singleton.mp mem ▸ ha⟩

theorem sparse_fits (v : FormatVersion) {mark : RuleKinds} {cls : Nat} (name : String)
    (vector : (RuleKinds.allowed ||| mark).overlap RuleKinds.extended = false)
    (small : cls < wordBound) : (sparse v mark cls name).Fits := by
  have word : ∀ n, n < 4 → n < wordBound := fun n hn => Nat.lt_trans hn (by decide)
  have level : Level.Fits ⟨1, .ofList [0, 70]⟩ :=
    ⟨by decide, BitSet.wellFormed_ofList _, by decide⟩
  have matching : ∀ e ∈ (sparse v mark cls name).rules.toList, e.Matches := by
    intro e he
    have listed := AccessTable.listed_add (AccessTable.listed_withCapacity 0)
      ⟨1, 2, 1, RuleKinds.allowed ||| mark⟩ (.ofWord 3)
    rw [List.mem_singleton.mp ((AccessTable.mem_toList listed).mp he), AccessEntry.Matches]
    simp [AccessKey.isExtended, vector]
  exact {
    capabilities := BitSet.fits_empty
    permissive := BitSet.fits_empty
    commons := fits_new_table _ _
    classes := fits_new_table _ _
    roles := fits_new_table _ _
    types := fits_new_table _ _
    users := fits_new_table _ _
    booleans := fits_new_table _ _
    sensitivities := fits_new_table _ _
    categories := fits_new_table _ _
    rules := ⟨.add (.withCapacity 0) _ _, show 1 < wordBound by decide, matching⟩
    conditionals := listFits_nil _
    roleTransitions := listFits_singleton ⟨word 1 (by decide), word 2 (by decide), word 3 (by decide), small⟩
    roleAllows := listFits_nil _
    filenameTransitions := ⟨.none, show 0 < wordBound by decide⟩
    objects := {
      sids := listFits_singleton ⟨word 1 (by decide), word 1 (by decide), word 1 (by decide),
        word 1 (by decide), level, level⟩
      filesystems := listFits_nil _
      ports := listFits_nil _
      interfaces := listFits_nil _
      nodes := listFits_nil _
      filesystemUses := listFits_nil _
      nodes6 := listFits_nil _
      partitionKeys := listFits_nil _
      endPorts := listFits_nil _
      interrupts := listFits_nil _
      ioPorts := listFits_nil _
      ioMemory := listFits_nil _
      pciDevices := listFits_nil _
      deviceTrees := listFits_nil _ }
    genfs := listFits_nil _
    rangeTransitions := listFits_nil _
    typeAttributes := fun _ mem => (List.not_mem_nil mem).elim
    attributesOfTypes := rfl }

/-- The mark of the rule, the class of the transition and the name of the SID are not in a
file of this version; the two policies have one file, and agree in all else. -/
theorem sameLayout_sparse :
    (sparse ⟨25⟩ RuleKinds.enabled 5 "kernel").encode = (sparse ⟨25⟩ 0 7 "init").encode ∧
      (sparse ⟨25⟩ RuleKinds.enabled 5 "kernel").encode.isOk = true ∧
      SameLayout (sparse ⟨25⟩ RuleKinds.enabled 5 "kernel") (sparse ⟨25⟩ 0 7 "init") := by
  have run : (sparse ⟨25⟩ RuleKinds.enabled 5 "kernel").encode = .ok _ := rfl
  have same : (sparse ⟨25⟩ RuleKinds.enabled 5 "kernel").encode = (sparse ⟨25⟩ 0 7 "init").encode :=
    rfl
  refine ⟨same, rfl, sameLayout_of_encode_eq ?_ ?_ rfl run (same ▸ run)⟩
  · exact sparse_fits ⟨25⟩ "kernel" (by decide) (by decide)
  · exact sparse_fits ⟨25⟩ "init" (by decide) (by decide)

end KernelPolicy

end CilPolicy
