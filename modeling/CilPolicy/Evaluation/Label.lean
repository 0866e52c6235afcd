import CilPolicy.Database.Basic
import CilPolicy.Report
import CilPolicy.Statement.Basic

/-!
Labels in the order in which they are matched. Two labels of one kind that select the
same things are a conflict, unless repeats are allowed and they give the same context;
then the first is kept. File labels are listed patterns before plain paths, and the less
specific before the more specific.
-/

namespace CilPolicy

/-! ### Paths as patterns -/

/-- How specific a path is. -/
structure Specificity where
  /-- The path has a character with a meaning in patterns. -/
  isPattern : Bool := false
  /-- Characters before the first such character. -/
  stem : Nat := 0
  /-- Characters in all; an escape counts once. -/
  length : Nat := 0
deriving DecidableEq, Repr

namespace Specificity

def metaCharacters : List Char :=
  ['.', '^', '$', '?', '*', '+', '|', '[', '(', '\x7b']

/-- Counts a character that stands for itself. -/
def literal (s : Specificity) : Specificity :=
  { s with stem := if s.isPattern then s.stem else s.stem + 1, length := s.length + 1 }

/-- Counts a character with a meaning. -/
def special (s : Specificity) : Specificity :=
  { s with isPattern := true, length := s.length + 1 }

/-- Goes on counting. A backslash and the character after it count as one. -/
def count (s : Specificity) : List Char → Specificity
  | [] => s
  | '\\' :: [] => s.literal
  | '\\' :: _ :: rest => count s.literal rest
  | c :: rest => if metaCharacters.contains c then count s.special rest else count s.literal rest

def ofPath (path : String) : Specificity :=
  count {} path.toList

end Specificity

/-- The order of file labels. -/
def FileSelector.compare (a b : FileSelector) : Ordering :=
  let x := Specificity.ofPath a.path
  let y := Specificity.ofPath b.path
  (Ord.compare y.isPattern x.isPattern)
    |>.then (Ord.compare x.stem y.stem)
    |>.then (Ord.compare x.length y.length)
    |>.then (Ord.compare a.kind.rank b.kind.rank)
    |>.then (Ord.compare a.path b.path)

/-! ### Orders of selectors -/

/-- Compares lists of octets from left to right. -/
def compareOctets (a b : List UInt8) : Ordering :=
  compare (a.map (·.toNat)) (b.map (·.toNat))

/-- Addresses of four octets come first; others are told apart by their octets. -/
def IpAddress.compare (a b : IpAddress) : Ordering :=
  (Ord.compare (!a.isV4) (!b.isV4)).then (compareOctets a.octets b.octets)

def FilesystemSelector.compare (a b : FilesystemSelector) : Ordering :=
  (Ord.compare a.behavior.number b.behavior.number).then (Ord.compare a.filesystem b.filesystem)

def GenfsSelector.compare (a b : GenfsSelector) : Ordering :=
  (Ord.compare a.filesystem b.filesystem).then (Ord.compare a.path b.path)

/-- Narrow intervals come first. -/
def Interval.compare (a b : Interval) : Ordering :=
  (Ord.compare (a.high - a.low) (b.high - b.low)).then (Ord.compare a.low b.low)

def PortSelector.compare (a b : PortSelector) : Ordering :=
  (Interval.compare ⟨a.low, a.high⟩ ⟨b.low, b.high⟩).then
    (Ord.compare a.protocol.number b.protocol.number)

/-- Addresses of four octets come first, then those with the greater mask. -/
def NodeSelector.compare (a b : NodeSelector) : Ordering :=
  (Ord.compare (!a.address.isV4) (!b.address.isV4))
    |>.then (b.mask.compare a.mask)
    |>.then (a.address.compare b.address)

def PartitionKeySelector.compare (a b : PartitionKeySelector) : Ordering :=
  (compareOctets a.subnet b.subnet).then (Interval.compare ⟨a.low, a.high⟩ ⟨b.low, b.high⟩)

def EndPortSelector.compare (a b : EndPortSelector) : Ordering :=
  (Ord.compare a.device b.device).then (Ord.compare a.port b.port)

/-! ### Sorting -/

/-- Sorted labels and the conflicts among them. -/
structure Sorted (σ κ : Type) where
  labels : List (Label σ κ)
  conflicts : List Diagnostic

/-- Keeps the first of neighbours with the same selector. The labels kept so far come
last one first. -/
def dropRepeats (compare : σ → σ → Ordering) (agrees : κ → κ → Bool) (keyword : String) :
    (kept : List (Label σ κ)) → List (Label σ κ) → Sorted σ κ
  | kept, [] => ⟨kept.reverse, []⟩
  | [], l :: ls => dropRepeats compare agrees keyword [l] ls
  | k :: kept, l :: ls =>
    if compare k.selector l.selector != .eq then
      dropRepeats compare agrees keyword (l :: k :: kept) ls
    else
      let rest := dropRepeats compare agrees keyword (k :: kept) ls
      if agrees k.context l.context then rest
      else { rest with
        conflicts := .violation (.conflictingLabels keyword) (some l.location) :: rest.conflicts }

/-- Sorts labels; `agrees` says which contexts may be given twice. -/
def sortLabels (compare : σ → σ → Ordering) (agrees : κ → κ → Bool) (keyword : String)
    (labels : List (Label σ κ)) : Sorted σ κ :=
  dropRepeats compare agrees keyword []
    (labels.mergeSort fun a b => compare a.selector b.selector != .gt)

/-- The labels of a database in order, and the conflicts among them. -/
def Database.sortedLabels (db : Database) (repeats : Bool) : Labels × List Diagnostic :=
  let same (a b : ContextArg Id) : Bool := repeats && db.contextSpec? a = db.contextSpec? b
  let sameOption (a b : Option (ContextArg Id)) : Bool :=
    match a, b with
    | some a, some b => same a b
    | none, none => repeats
    | _, _ => false
  let samePair (a b : ContextArg Id × ContextArg Id) : Bool := same a.1 b.1 && same a.2 b.2
  let l := db.labels
  let files := sortLabels FileSelector.compare sameOption "filecon" l.files
  let filesystems := sortLabels FilesystemSelector.compare same "fsuse" l.filesystems
  let genfs := sortLabels GenfsSelector.compare same "genfscon" l.genfs
  let ports := sortLabels PortSelector.compare same "portcon" l.ports
  let nodes := sortLabels NodeSelector.compare same "nodecon" l.nodes
  let interfaces := sortLabels Ord.compare samePair "netifcon" l.interfaces
  let partitionKeys := sortLabels PartitionKeySelector.compare same "ibpkeycon" l.partitionKeys
  let endPorts := sortLabels EndPortSelector.compare same "ibendportcon" l.endPorts
  let interrupts := sortLabels Ord.compare same "pirqcon" l.interrupts
  let ioMemory := sortLabels Interval.compare same "iomemcon" l.ioMemory
  let ioPorts := sortLabels Interval.compare same "ioportcon" l.ioPorts
  let pciDevices := sortLabels Ord.compare same "pcidevicecon" l.pciDevices
  let deviceTrees := sortLabels Ord.compare same "devicetreecon" l.deviceTrees
  ({ files := files.labels
     filesystems := filesystems.labels
     genfs := genfs.labels
     ports := ports.labels
     nodes := nodes.labels
     interfaces := interfaces.labels
     partitionKeys := partitionKeys.labels
     endPorts := endPorts.labels
     interrupts := interrupts.labels
     ioMemory := ioMemory.labels
     ioPorts := ioPorts.labels
     pciDevices := pciDevices.labels
     deviceTrees := deviceTrees.labels },
   files.conflicts ++ filesystems.conflicts ++ genfs.conflicts ++ ports.conflicts
     ++ nodes.conflicts ++ interfaces.conflicts ++ partitionKeys.conflicts ++ endPorts.conflicts
     ++ interrupts.conflicts ++ ioMemory.conflicts ++ ioPorts.conflicts ++ pciDevices.conflicts
     ++ deviceTrees.conflicts)

end CilPolicy
