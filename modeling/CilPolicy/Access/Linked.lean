import CilPolicy.Access.Table
import CilPolicy.Graph.Cycle

/-!
Tables of access rules with linked chains. A node holds an entry and the handle of the next
node on its chain, and a slot holds the handle of its first node, so that adding an entry
changes one link. Handles are looked up on the way. An operation has no result when a handle
leads nowhere, or when a chain goes on for longer than there are nodes.
-/

namespace CilPolicy

/-- An entry and the next node on its chain. -/
structure AccessNode where
  entry : AccessEntry
  next : Option Nat

/-- The nodes by handle, the first node of each slot, and the mask of the slots. -/
structure LinkedTable where
  nodes : Array AccessNode
  slots : Array (Option Nat)
  mask : UInt32

namespace LinkedTable

def withCapacity (rules : Nat) : LinkedTable :=
  let count := AccessTable.slotCount rules
  ⟨#[], Array.replicate count none, UInt32.ofNat (count - 1)⟩

def size (t : LinkedTable) : Nat :=
  t.nodes.size

/-- The slot of a key in this table. -/
def slotOf (t : LinkedTable) (key : AccessKey) : Nat :=
  key.slot t.mask

/-- The entries in the order of their handles. -/
def entries (t : LinkedTable) : List AccessEntry :=
  t.nodes.toList.map AccessNode.entry

def entry? (t : LinkedTable) (handle : Nat) : Option AccessEntry :=
  t.nodes[handle]?.map AccessNode.entry

/-- What the node of a handle is linked to. -/
def next? (t : LinkedTable) (handle : Nat) : Option (Option Nat) :=
  t.nodes[handle]?.map AccessNode.next

/-! ### Walks -/

/-- Where a walk stops: behind which node, and at which node if its entry hits. -/
structure Stop where
  before : Option Nat
  hit : Option Nat
deriving DecidableEq, Repr

/-- Walks on from `here` until an entry hits or lies beyond the place. -/
def walk? (t : LinkedTable) (place : Nat) (kinds : RuleKinds) :
    (fuel : Nat) → (before here : Option Nat) → Option Stop
  | _, before, none => some ⟨before, none⟩
  | 0, _, some _ => none
  | fuel + 1, before, some i => do
    let node ← t.nodes[i]?
    if AccessTable.hits place kinds node.entry then return ⟨before, some i⟩
    if place < node.entry.key.place then return ⟨before, none⟩
    walk? t place kinds fuel (some i) node.next

/-- Walks along the chain of the key's slot. -/
def walkSlot? (t : LinkedTable) (key : AccessKey) : Option Stop := do
  let head ← t.slots[t.slotOf key]?
  t.walk? key.place key.kinds.plain t.size none head

/-- The handle of an entry with the key's place and one of its kinds. -/
def find? (t : LinkedTable) (key : AccessKey) : Option (Option Nat) :=
  (t.walkSlot? key).map Stop.hit

/-- The handle of the next such entry after a handle, for the given kinds. -/
def findNext? (t : LinkedTable) (handle : Nat) (kinds : RuleKinds) : Option (Option Nat) := do
  let node ← t.nodes[handle]?
  let stop ← t.walk? node.entry.key.place kinds t.size none node.next
  return stop.hit

/-- Every handle that a search for the key reaches, going on with the kinds of the key. -/
def findAll? (t : LinkedTable) (key : AccessKey) : Option (List Nat) := do
  let first ← t.find? key
  Graph.followLinks (t.findNext? · key.kinds.plain) t.size first

/-- Every entry, by slot and then along the chain. -/
def toList? (t : LinkedTable) : Option (List AccessEntry) := do
  let chains ← t.slots.toList.mapM (Graph.followLinks t.next? t.size)
  return chains.flatMap fun chain => chain.filterMap t.entry?

/-! ### Changes -/

/-- Adds a node behind another one, or as the first of the slot, and gives its handle. -/
def link? (t : LinkedTable) (slot : Nat) (before : Option Nat) (entry : AccessEntry) :
    Option (Nat × LinkedTable) := do
  let handle := t.size
  match before with
  | some i =>
    let next ← t.next? i
    let nodes := (t.nodes.push ⟨entry, next⟩).modify i fun node => { node with next := some handle }
    return (handle, { t with nodes })
  | none =>
    let next ← t.slots[slot]?
    let slots := t.slots.setIfInBounds slot (some handle)
    return (handle, { t with nodes := t.nodes.push ⟨entry, next⟩, slots })

/-- Adds an entry and gives its handle, whether or not the key has one. -/
def add? (t : LinkedTable) (key : AccessKey) (datum : AccessDatum) : Option (Nat × LinkedTable) := do
  let stop ← t.walkSlot? key
  t.link? (t.slotOf key) stop.before ⟨key, datum⟩

/-- Adds an entry. A second entry with the same place and a common kind is refused,
except for extended permissions. The table is the one that is left in either case. -/
def insert? (t : LinkedTable) (key : AccessKey) (datum : AccessDatum) :
    Option (Except KernelError Unit × LinkedTable) := do
  let stop ← t.walkSlot? key
  if stop.hit.isSome && !key.kinds.plain.overlap RuleKinds.extended then
    return (.error .alreadyExists, t)
  let (_, t) ← t.link? (t.slotOf key) stop.before ⟨key, datum⟩
  return (.ok (), t)

/-- Changes the datum of a handle. -/
def modify? (t : LinkedTable) (handle : Nat) (change : AccessDatum → AccessDatum) : Option LinkedTable :=
  if handle < t.size then
    some { t with nodes := t.nodes.modify handle fun node =>
      { node with entry := { node.entry with datum := change node.entry.datum } } }
  else none

end LinkedTable

end CilPolicy
