import CilPolicy.Table.Chain

/-!
Symbol tables: names with their data, and a count of the values handed out.
Aliases share a value, so there may be more names than values.
-/

namespace CilPolicy

/-- Hash of a name: each byte is mixed in after a rotation by four bits. -/
def symbolHash (name : String) : UInt32 :=
  name.toUTF8.toList.foldl (fun h b => ((h <<< 4) ||| (h >>> 28)) ^^^ b.toUInt32) 0

/-- Names with their data, and the number of values handed out. -/
structure SymbolTable (α : Type u) where
  table : ChainTable String α
  primaries : Nat

namespace SymbolTable

variable {α : Type u}

def new (bucketCount : Nat) : SymbolTable α where
  table := ChainTable.new symbolHash compare bucketCount
  primaries := 0

/-- Hands out the next value. -/
def nextValue (t : SymbolTable α) : Nat × SymbolTable α :=
  (t.primaries + 1, { t with primaries := t.primaries + 1 })

/-- Hands out so many values, one after the other. -/
def reserve : (count : Nat) → SymbolTable α → List Nat × SymbolTable α
  | 0, t => ([], t)
  | count + 1, t =>
    let (value, t) := t.nextValue
    let (values, t) := reserve count t
    (value :: values, t)

def insert (t : SymbolTable α) (name : String) (datum : α) :
    Except KernelError (SymbolTable α) :=
  (t.table.insert name datum).map fun table => { t with table := table }

def find? (t : SymbolTable α) (name : String) : Option α :=
  t.table.find? name

/-- Changes the datum of a name, when it is in the table. -/
def update? (t : SymbolTable α) (name : String) (change : α → α) : Option (SymbolTable α) :=
  (t.table.update? name change).map fun table => { t with table := table }

/-- Number of names, aliases included. -/
def size (t : SymbolTable α) : Nat :=
  t.table.size

/-- Every name with its datum, in table order. -/
def toList (t : SymbolTable α) : List (String × α) :=
  t.table.toList

/-- Value, then name. -/
def valueOrder (value : α → Nat) (a b : String × α) : Bool :=
  match compare (value a.2) (value b.2) with
  | .lt => true
  | .gt => false
  | .eq => a.1 ≤ b.1

/-- Every name with its datum, ordered by value and then by name. -/
def byValue (t : SymbolTable α) (value : α → Nat) : List (String × α) :=
  t.toList.mergeSort (valueOrder value)

end SymbolTable

end CilPolicy
