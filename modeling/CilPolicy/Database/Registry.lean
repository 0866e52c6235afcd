import CilPolicy.Source.Location

/-!
Registries: declarations in the order they were made, each under a name that no
other declaration of the registry has. A declaration is known by its place in that
order.
-/

namespace CilPolicy

/-- The number of a declaration in its registry. -/
abbrev Id := Nat

/-- A declaration: its name, where it was made and what is known of it. -/
structure Declared (α : Type) where
  name : String
  location : Location
  value : α
deriving Repr

/-- Declarations in order. -/
structure Registry (α : Type) where
  entries : Array (Declared α) := #[]
deriving Repr, Inhabited

namespace Registry

def size (r : Registry α) : Nat :=
  r.entries.size

def toList (r : Registry α) : List (Declared α) :=
  r.entries.toList

/-- The declarations with their numbers. -/
def indexed (r : Registry α) : List (Id × Declared α) :=
  r.toList.zipIdx.map fun (d, i) => (i, d)

/-- The number of the declaration with the name. -/
def find? (r : Registry α) (name : String) : Option Id :=
  r.entries.findIdx? (·.name == name)

/-- Adds a declaration, unless its name is taken. -/
def declare? (r : Registry α) (name : String) (location : Location) (value : α) :
    Option (Registry α) :=
  if (r.find? name).isSome then none else some ⟨r.entries.push ⟨name, location, value⟩⟩

def get? (r : Registry α) (id : Id) : Option (Declared α) :=
  r.entries[id]?

/-- What is known of the declaration. -/
def value? (r : Registry α) (id : Id) : Option α :=
  (r.get? id).map (·.value)

/-- The name of the declaration, empty if there is none. -/
def nameOf (r : Registry α) (id : Id) : String :=
  ((r.get? id).map (·.name)).getD ""

/-- The place of the declaration. -/
def locationOf (r : Registry α) (id : Id) : Location :=
  ((r.get? id).map (·.location)).getD {}

/-- The declaration satisfies the test. -/
def test (r : Registry α) (id : Id) (p : α → Bool) : Bool :=
  (r.value? id).any p

/-- Changes what is known of the declaration. -/
def modify (r : Registry α) (id : Id) (f : α → α) : Registry α :=
  ⟨r.entries.modify id fun d => { d with value := f d.value }⟩

/-- Changes what is known of every declaration. -/
def mapIdx (r : Registry α) (f : Id → α → β) : Registry β :=
  ⟨r.entries.mapIdx fun i d => ⟨d.name, d.location, f i d.value⟩⟩

end Registry

end CilPolicy
