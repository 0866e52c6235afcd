import CilPolicy.Access.Key
import CilPolicy.Kernel.Error

/-!
Tables of access rules. Entries keep the position at which they were added, and a
handle is that position. Each slot of the hash chains the positions of its entries
in the order of their places, so a search stops at the first greater place.
-/

namespace CilPolicy

/-- Hash of a key's class, target and source. -/
def AccessKey.hash (k : AccessKey) : UInt32 :=
  let rotate (v : UInt32) (n : UInt32) : UInt32 := (v <<< n) ||| (v >>> (32 - n))
  let mix (h : UInt32) (part : UInt16) : UInt32 :=
    let v := rotate (part.toUInt32 * 0xcc9e2d51) 15 * 0x1b873593
    rotate (h ^^^ v) 13 * 5 + 0xe6546b64
  let h := mix (mix (mix 0 k.cls) k.target) k.source
  let h := (h ^^^ (h >>> 16)) * 0x85ebca6b
  let h := (h ^^^ (h >>> 13)) * 0xc2b2ae35
  h ^^^ (h >>> 16)

/-- The slot of a key under a mask. -/
def AccessKey.slot (k : AccessKey) (mask : UInt32) : Nat :=
  (k.hash &&& mask).toNat

/-- A table of access rules. -/
structure AccessTable where
  entries : Array AccessEntry
  slots : Array (List Nat)

namespace AccessTable

/-- Number of slots for a table that is to hold that many rules. -/
def slotCount (rules : Nat) : Nat :=
  if rules = 0 then 1
  else
    let length := rules.log2 + 1
    min (Nat.pow 2 (if 2 < length then length - 2 else length)) 0x100000

def withCapacity (rules : Nat) : AccessTable :=
  ⟨#[], Array.replicate (slotCount rules) []⟩

instance : EmptyCollection AccessTable := ⟨withCapacity 0⟩
instance : Inhabited AccessTable := ⟨∅⟩

def size (t : AccessTable) : Nat :=
  t.entries.size

def isEmpty (t : AccessTable) : Bool :=
  t.entries.isEmpty

/-- The slot of a key in this table. -/
def slotOf (t : AccessTable) (key : AccessKey) : Nat :=
  key.slot (UInt32.ofNat (t.slots.size - 1))

/-- The chain of a key's slot. -/
def chainOf (t : AccessTable) (key : AccessKey) : List Nat :=
  t.slots.getD (t.slotOf key) []

/-- The entry has the place and one of the kinds. -/
def hits (place : Nat) (kinds : RuleKinds) (e : AccessEntry) : Bool :=
  e.key.place == place && kinds.overlap e.key.kinds

/-- A walk for the place and kinds ends at this entry: it hits, or it lies beyond. -/
def stops (place : Nat) (kinds : RuleKinds) (e : AccessEntry) : Bool :=
  hits place kinds e || place < e.key.place

/-- The first handle of a chain whose entry hits, before the chain passes the place. -/
def scan (t : AccessTable) (place : Nat) (kinds : RuleKinds) : List Nat → Option Nat
  | [] => none
  | i :: rest =>
    match t.entries[i]? with
    | some e =>
      if hits place kinds e then some i
      else if place < e.key.place then none
      else scan t place kinds rest
    | none => scan t place kinds rest

/-- Puts a handle before the first entry of a chain at which the walk ends. -/
def chainInsert (t : AccessTable) (place : Nat) (kinds : RuleKinds) (handle : Nat) :
    List Nat → List Nat
  | [] => [handle]
  | i :: rest =>
    match t.entries[i]? with
    | some e =>
      if stops place kinds e then handle :: i :: rest
      else i :: chainInsert t place kinds handle rest
    | none => i :: chainInsert t place kinds handle rest

/-- The handle of an entry with the key's place and one of its kinds. -/
def find? (t : AccessTable) (key : AccessKey) : Option Nat :=
  t.scan key.place key.kinds.plain (t.chainOf key)

/-- The handle of the next such entry after a handle, for the given kinds. -/
def findNext? (t : AccessTable) (handle : Nat) (kinds : RuleKinds) : Option Nat := do
  let e ← t.entries[handle]?
  t.scan e.key.place kinds (((t.chainOf e.key).dropWhile (· != handle)).drop 1)

/-- Adds an entry and gives its handle, whether or not the key has one. -/
def add (t : AccessTable) (key : AccessKey) (datum : AccessDatum) : Nat × AccessTable :=
  let handle := t.entries.size
  let chain := t.chainInsert key.place key.kinds.plain handle (t.chainOf key)
  (handle, ⟨t.entries.push ⟨key, datum⟩, t.slots.setIfInBounds (t.slotOf key) chain⟩)

/-- Adds an entry. A second entry with the same place and a common kind is refused,
except for extended permissions. -/
def insert (t : AccessTable) (key : AccessKey) (datum : AccessDatum) :
    Except KernelError AccessTable :=
  if (t.find? key).isSome && !key.kinds.plain.overlap RuleKinds.extended then
    .error .alreadyExists
  else
    .ok (t.add key datum).2

def entry? (t : AccessTable) (handle : Nat) : Option AccessEntry :=
  t.entries[handle]?

/-- The datum a search for the key finds. -/
def datum? (t : AccessTable) (key : AccessKey) : Option AccessDatum := do
  let e ← t.entry? (← t.find? key)
  return e.datum

/-- Changes the datum of a handle. -/
def modify (t : AccessTable) (handle : Nat) (change : AccessDatum → AccessDatum) : AccessTable :=
  { t with entries := t.entries.modify handle fun e => { e with datum := change e.datum } }

/-- Every entry, by slot and then along the chain. -/
def toList (t : AccessTable) : List AccessEntry :=
  t.slots.toList.flatMap fun chain => chain.filterMap fun i => t.entries[i]?

/-- Every handle that a search for the key reaches, going on with the given kinds. The
walk takes at most one step for each entry. -/
def findAll (t : AccessTable) (key : AccessKey) (kinds : RuleKinds) : List Nat :=
  let rec go : Nat → Option Nat → List Nat
    | 0, _ => []
    | _, none => []
    | n + 1, some handle => handle :: go n (t.findNext? handle kinds)
  go t.size (t.find? key)

end AccessTable

end CilPolicy
