import CilPolicy.Source.Location

/-!
Parse trees. A node is a leaf with a value or a list of nodes, and knows where it
stands. The trees of all files hang under one root; nodes are numbered in the
order they were read, which is the order of a walk that visits a list before its
items.
-/

namespace CilPolicy

/-- A leaf with its value, or a list. -/
inductive Node where
  | leaf (position : Position) (value : String)
  | list (position : Position) (items : List Node)
deriving Repr, Inhabited

namespace Node

def position : Node → Position
  | leaf p _ => p
  | list p _ => p

def location (n : Node) : Location :=
  n.position.location

/-- The value of a leaf. -/
def value? : Node → Option String
  | leaf _ v => some v
  | list .. => none

/-- The items of a list; a leaf has none. -/
def items : Node → List Node
  | leaf .. => []
  | list _ items => items

mutual

/-- Number of nodes, the node itself included. -/
def size : Node → Nat
  | leaf .. => 1
  | list _ items => 1 + sizeAll items

def sizeAll : List Node → Nat
  | [] => 0
  | n :: ns => n.size + sizeAll ns

end

/-- What a table of nodes says of one of them. -/
structure Row where
  parent : Option Nat
  value : Option String
  position : Position
  children : Nat
deriving DecidableEq, Repr

mutual

/-- The rows of a node numbered `index` and of all below it. -/
def rows (parent index : Nat) : Node → List Row
  | leaf p v => [⟨some parent, some v, p, 0⟩]
  | list p items => ⟨some parent, none, p, items.length⟩ :: rowsAll index (index + 1) items

/-- The rows of the items of a list numbered `parent`, the first item numbered `index`. -/
def rowsAll (parent index : Nat) : List Node → List Row
  | [] => []
  | n :: ns => n.rows parent index ++ rowsAll parent (index + n.size) ns

end

/-- The first leaf of every list that stands for a source file or a line mark. -/
def sourceTag : String := "<src_info>"

/-- Number of leaves that describe the source at the head of such a list. -/
def sourceHeader : Nat := 4

/-- The list stands for a source file or a line mark. -/
def isSource (n : Node) : Bool :=
  match n.items with
  | first :: _ => first.value? == some sourceTag
  | [] => false

end Node

/-- The trees of the files read so far, in order. -/
structure ParseTree where
  files : List Node := []
deriving Repr, Inhabited

namespace ParseTree

/-- Number of nodes, the root included. -/
def nodeCount (t : ParseTree) : Nat :=
  1 + Node.sizeAll t.files

/-- All nodes by number; the root comes first. -/
def rows (t : ParseTree) : List Node.Row :=
  ⟨none, none, {}, t.files.length⟩ :: Node.rowsAll 0 1 t.files

end ParseTree

end CilPolicy
