import CilPolicy.Kernel.Header
import CilPolicy.Proofs.BitSet.Codec
import CilPolicy.Proofs.Kernel.Layout
import Mathlib.Data.List.Sort

/-!
# Reading the header of a written file

The header is read from the front of any file that was written: the target, the version, the two
settings of the config word, the numbers of tables and of lists, and the capabilities. The number of
object-context lists stands in the header, far from the lists; it is compared with a division of the
object contexts into the lists and of each list into its records.
-/

namespace CilPolicy

open Bytes (u32 ofString textLength length_ofString)
open ByteReader (takes_bytes takes_u32)

/-! ### The config word -/

/-- The word that holds both settings. -/
def configWord (unknown : HandleUnknown) (mls : Bool) : Nat :=
  unknown.configBits ||| (if mls then mlsConfigBit else 0)

theorem configWord_lt (unknown : HandleUnknown) (mls : Bool) : configWord unknown mls < wordBound := by
  cases unknown <;> cases mls <;> decide

theorem ofConfigBits_configWord (unknown : HandleUnknown) (mls : Bool) :
    HandleUnknown.ofConfigBits (configWord unknown mls) = unknown := by
  cases unknown <;> cases mls <;> rfl

theorem mls_configWord (unknown : HandleUnknown) (mls : Bool) :
    (configWord unknown mls &&& mlsConfigBit != 0) = mls := by
  cases unknown <;> cases mls <;> rfl

/-! ### The signature -/

theorem signature_fits (target : Target) :
    target.signature.utf8ByteSize ≠ 0 ∧ target.signature.utf8ByteSize ≤ Header.maxSignature := by
  cases target <;> decide

theorem ofSignature_signature (target : Target) :
    (Text.ofUtf8? (ofString target.signature)).bind Target.ofSignature? = some target := by
  cases target <;> decide +kernel

namespace KernelPolicy

variable {p : KernelPolicy} {bytes : Bytes}

/-! ### The lists of object contexts -/

/-- The lists for an ordinary kernel, each as its records. -/
def selinuxLists (v : FormatVersion) (o : ObjectContexts) : List (List Bytes) :=
  [o.sids.map fun s : InitialSid => u32 s.sid ++ s.context.encode,
    o.filesystems.map fun f : FilesystemContext =>
      encodeText f.name ++ f.filesystem.encode ++ f.file.encode,
    o.ports.map fun c : PortContext =>
      u32 c.protocol.number ++ u32 c.low ++ u32 c.high ++ c.context.encode,
    o.interfaces.map fun c : InterfaceContext =>
      encodeText c.name ++ c.interface.encode ++ c.packet.encode,
    o.nodes.map encodeNode,
    o.filesystemUses.map fun c : FilesystemUseContext =>
      u32 c.behavior.number ++ encodeText c.filesystem ++ c.context.encode,
    o.nodes6.map encodeNode]
  ++ if v.supports .infiniband then
      [o.partitionKeys.map fun c : PartitionKeyContext =>
          c.subnet ++ u32 c.low ++ u32 c.high ++ c.context.encode,
        o.endPorts.map fun c : EndPortContext =>
          textLength c.device ++ u32 c.port ++ ofString c.device ++ c.context.encode]
    else []

/-- The lists for a hypervisor, each as its records; those of the memory ranges are given. -/
def xenLists (v : FormatVersion) (o : ObjectContexts) (memory : List Bytes) : List (List Bytes) :=
  [o.sids.map fun s : InitialSid => u32 s.sid ++ s.context.encode,
    o.interrupts.map fun c : InterruptContext => u32 c.irq ++ c.context.encode,
    o.ioPorts.map encodeRegion,
    memory,
    o.pciDevices.map fun c : DeviceContext => u32 c.device ++ c.context.encode]
  ++ if v.supports .wideMemory then
      [o.deviceTrees.map fun c : PathContext => encodeText c.path ++ c.context.encode]
    else []

/-- The lists of object contexts of a policy, in the order of its file. -/
def objectLists (p : KernelPolicy) : Except KernelError (List (List Bytes)) :=
  match p.target with
  | .selinux => .ok (selinuxLists p.version p.objects)
  | .xen => xenLists p.version p.objects <$> p.objects.ioMemory.mapM (encodeMemory p.version)

theorem encodeList_map {α : Type} (record : α → Bytes) (items : List α) :
    encodeList id (items.map record) = encodeList record items := by
  rw [encodeList, List.length_map, List.flatMap_map, encodeList]
  rfl

theorem flatMap_selinuxLists (v : FormatVersion) (o : ObjectContexts) :
    (selinuxLists v o).flatMap (encodeList id) = encodeSelinuxObjects v o := by
  rw [selinuxLists, encodeSelinuxObjects, encodeSids]
  cases v.supports .infiniband <;>
    simp only [List.flatMap_append, List.flatMap_cons, List.flatMap_nil, encodeList_map, List.append_assoc,
      List.append_nil, reduceIte, Bool.false_eq_true]

theorem length_selinuxLists (v : FormatVersion) (o : ObjectContexts) :
    (selinuxLists v o).length = v.objectListCount .selinux := by
  rw [selinuxLists, FormatVersion.objectListCount]
  cases v.supports .infiniband <;> rfl

theorem encodeXenObjects_eq {v : FormatVersion} {o : ObjectContexts} {memory : List Bytes}
    (run : o.ioMemory.mapM (encodeMemory v) = .ok memory) :
    encodeXenObjects v o = .ok ((xenLists v o memory).flatMap (encodeList id)) := by
  have same : memory.map (fun _ => ()) = o.ioMemory.map (fun _ => ()) := map_of_mapM run fun _ _ _ => rfl
  have length : memory.length = o.ioMemory.length := by simpa using congrArg List.length same
  have records : encodeList id memory = u32 o.ioMemory.length ++ memory.flatten := by
    rw [encodeList, length, List.flatMap_id]
  rw [encodeXenObjects, run, xenLists, encodeSids]
  cases v.supports .wideMemory <;>
    simp only [List.flatMap_append, List.flatMap_cons, List.flatMap_nil, encodeList_map, records,
      List.append_assoc, List.append_nil, reduceIte, Bool.false_eq_true] <;> rfl

theorem length_xenLists (v : FormatVersion) (o : ObjectContexts) (memory : List Bytes) :
    (xenLists v o memory).length = v.objectListCount .xen := by
  rw [xenLists, FormatVersion.objectListCount]
  cases v.supports .wideMemory <;> rfl

/-- The object contexts of a file are its lists, each after its number of records, and the header
gives the number of the lists. -/
theorem exists_objectLists {objects : Bytes} (run : p.encodeObjects = .ok objects) :
    ∃ lists, p.objectLists = .ok lists ∧ objects = lists.flatMap (encodeList id) ∧
      lists.length = p.version.objectListCount p.target := by
  rw [encodeObjects] at run
  rw [objectLists]
  cases target : p.target with
  | selinux =>
    rw [target] at run
    exact ⟨_, rfl, (Except.ok.inj run).symm.trans (flatMap_selinuxLists _ _).symm, length_selinuxLists _ _⟩
  | xen =>
    rw [target] at run
    obtain ⟨memory, hmemory, _⟩ := bind_eq_ok.mp run
    have same := (encodeXenObjects_eq hmemory).symm.trans run
    refine ⟨xenLists p.version p.objects memory, ?_, (Except.ok.inj same).symm, length_xenLists _ _ _⟩
    rw [hmemory]
    rfl

theorem objectListCount_lt (v : FormatVersion) (target : Target) : v.objectListCount target < wordBound := by
  have small : v.objectListCount target ≤ 9 := by
    cases target <;> rw [FormatVersion.objectListCount] <;> split <;> omega
  exact Nat.lt_of_le_of_lt small (by decide)

/-! ### The header -/

/-- The header of the file that a policy is written to. -/
def header (p : KernelPolicy) : Header where
  target := p.target
  version := p.version.number
  config := configWord p.handleUnknown p.mls
  symbolTables := SymbolKind.all.length
  objectLists := p.version.objectListCount p.target
  capabilities := p.capabilities.toList.map Header.capabilityName

/-- Every version that is written has capabilities. -/
theorem supports_capabilities {v : FormatVersion} (writable : v.writable = true) :
    v.supports .capabilities = true := by
  simp only [FormatVersion.writable, Bool.and_eq_true, decide_eq_true_eq] at writable
  exact decide_eq_true (Nat.le_trans (by decide) writable.1)

/-- Behind the fields of a header, the reader goes on with the set of the capabilities. -/
theorem reader_encodeHeader (writable : p.version.writable = true) (input : Bytes) :
    Header.reader (p.encodeHeader ++ input) = ((fun s : BitSet =>
      { p.header with capabilities := s.toList.map Header.capabilityName }) <$> BitSet.read) input := by
  obtain ⟨some_length, short⟩ := signature_fits p.target
  have length : p.target.signature.utf8ByteSize < wordBound := Nat.lt_of_le_of_lt short (by decide)
  have magic : policyMagic < wordBound := by decide
  have config : (p.handleUnknown.configBits ||| if p.mls then mlsConfigBit else 0) < wordBound := configWord_lt _ _
  have tables : SymbolKind.all.length < wordBound := by decide
  have signature := takes_bytes (ofString p.target.signature)
  rw [length_ofString] at signature
  simp only [Header.reader, encodeHeader, encodeText, textLength, List.append_assoc]
  rw [(takes_u32 magic).bind_eq, if_neg (not_not_intro rfl), (takes_u32 length).bind_eq,
    if_neg (by simp [some_length, short]), signature.bind_eq, ofSignature_signature]
  dsimp only
  rw [(takes_u32 (number_lt_of_writable writable)).bind_eq, (takes_u32 config).bind_eq,
    (takes_u32 tables).bind_eq, (takes_u32 (objectListCount_lt _ _)).bind_eq,
    if_pos (supports_capabilities writable), bind_pure_comp, Functor.map_map]
  rfl

/-- The header tells the target, the version and the settings of the policy, the number of symbol tables, the
number of object-context lists that are in the file, and the names of the capabilities of the policy in
ascending order of their bits. -/
structure HeadedBy (p : KernelPolicy) (h : Header) : Prop where
  target : h.target = p.target
  version : h.version = p.version.number
  mls : h.mls = p.mls
  handleUnknown : h.handleUnknown = p.handleUnknown
  symbolTables : h.symbolTables = 8
  objectLists : ∃ lists, p.objectLists = .ok lists ∧ p.encodeObjects = .ok (lists.flatMap (encodeList id)) ∧
    h.objectLists = lists.length
  capabilities : ∃ bits : List Nat, bits.Pairwise (· < ·) ∧ (∀ n, n ∈ bits ↔ n ∈ p.capabilities) ∧
    h.capabilities = bits.map Header.capabilityName

/-- Whatever is written begins with its header, and the reader makes of it what the policy is, as long as every
capability lies below the limit of the bits that a set can end with in a file. A capability beyond it makes
the header unreadable. -/
theorem header_of_encode (wellFormed : p.capabilities.WellFormed)
    (words : ∀ n, n ∈ p.capabilities → n < wordBound) (run : p.encode = .ok bytes) :
    ((∀ n, n ∈ p.capabilities → n < BitSet.bitLimit) → ∃ h, Header.read bytes = .ok h ∧ p.HeadedBy h) ∧
      ((∃ n, n ∈ p.capabilities ∧ BitSet.bitLimit ≤ n) →
        ∃ start, Header.read bytes = .error (.bitSet (.startBeyond start 0))) := by
  obtain ⟨writable, _, _, _, _, _, encoded, whole⟩ := encode_eq_ok run
  obtain ⟨lists, listed, rfl, count⟩ := exists_objectLists encoded
  obtain ⟨rest, rfl⟩ : ∃ rest, bytes = p.encodeHeader ++ (p.capabilities.encode ++ rest) := by
    simp only [whole, List.append_assoc, List.append_cancel_left_eq, exists_eq']
  constructor
  · intro below
    have read : Header.read (p.encodeHeader ++ (p.capabilities.encode ++ rest)) = .ok p.header := by
      rw [Header.read, ByteReader.run?, reader_encodeHeader writable,
        ((BitSet.takes_read wellFormed below).map _) rest]
      rfl
    exact ⟨p.header, read, {
      target := rfl
      version := rfl
      mls := mls_configWord _ _
      handleUnknown := ofConfigBits_configWord _ _
      symbolTables := rfl
      objectLists := ⟨lists, listed, encoded, count.symm⟩
      capabilities := ⟨p.capabilities.toList, BitSet.pairwise_toList wellFormed,
        fun n => BitSet.mem_toList wellFormed, rfl⟩ }⟩
  · rintro ⟨n, hn, beyond⟩
    obtain ⟨start, left, fails⟩ := BitSet.read_error wellFormed words hn beyond rest
    refine ⟨start, ?_⟩
    rw [Header.read, ByteReader.run?, reader_encodeHeader writable, ByteReader.map_error fails]
    rfl

/-- A policy with one capability that has a name and two that have none. -/
def capable : KernelPolicy :=
  { KernelPolicy.new .xen ⟨30⟩ with mls := true, handleUnknown := .allow, capabilities := .ofList [70, 1, 9] }

/-- The policy has one more capability, whose bit is the last word. -/
def overCapable : KernelPolicy :=
  { capable with capabilities := .ofList [1, 0xffffffff] }

theorem header_of_capable :
    (∃ bytes h, capable.encode = .ok bytes ∧ Header.read bytes = .ok h ∧ h.target = .xen ∧ h.version = 30 ∧
      h.mls = true ∧ h.handleUnknown = .allow ∧ h.symbolTables = 8 ∧ h.objectLists = 6 ∧
      h.capabilities = ["open_perms", "unknown(9)", "unknown(70)"]) ∧
    ∃ bytes start, overCapable.encode = .ok bytes ∧
      Header.read bytes = .error (.bitSet (.startBeyond start 0)) := by
  have members : ∀ n, n ∈ capable.capabilities ↔ n = 70 ∨ n = 1 ∨ n = 9 := by
    intro n
    rw [show capable.capabilities = BitSet.ofList [70, 1, 9] from rfl, BitSet.mem_ofList]
    simp only [List.mem_cons, List.not_mem_nil, or_false]
  have members' : ∀ n, n ∈ overCapable.capabilities ↔ n = 1 ∨ n = 0xffffffff := by
    intro n
    rw [show overCapable.capabilities = BitSet.ofList [1, 0xffffffff] from rfl, BitSet.mem_ofList]
    simp only [List.mem_cons, List.not_mem_nil, or_false]
  constructor
  · have run : capable.encode = .ok _ := rfl
    have below : ∀ n, n ∈ capable.capabilities → n < 100 := fun n hn => by
      have := (members n).mp hn
      omega
    obtain ⟨h, read, told⟩ := (header_of_encode (BitSet.wellFormed_ofList _)
      (fun n hn => Nat.lt_trans (below n hn) (by decide)) run).1 fun n hn => Nat.lt_trans (below n hn) (by decide)
    obtain ⟨lists, listed, _, count⟩ := told.objectLists
    obtain ⟨bits, ascending, same, names⟩ := told.capabilities
    have six : lists.length = 6 := by
      cases listed
      rfl
    have three : bits = [1, 9, 70] := by
      refine ascending.eq_of_mem_iff (by decide) fun n => ?_
      rw [same, members]
      simp only [List.mem_cons, List.not_mem_nil, or_false]
      omega
    refine ⟨_, h, run, read, told.target, told.version, told.mls, told.handleUnknown, told.symbolTables,
      count.trans six, ?_⟩
    rw [names, three]
    decide
  · have run : overCapable.encode = .ok _ := rfl
    have words : ∀ n, n ∈ overCapable.capabilities → n < wordBound := fun n hn => by
      have := (members' n).mp hn
      rw [wordBound]
      omega
    obtain ⟨start, fails⟩ := (header_of_encode (BitSet.wellFormed_ofList _) words run).2
      ⟨0xffffffff, (members' _).mpr (Or.inr rfl), by decide⟩
    exact ⟨_, start, run, fails⟩

end KernelPolicy

end CilPolicy
