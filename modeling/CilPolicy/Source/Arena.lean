import CilPolicy.Graph.Cycle
import CilPolicy.Source.Location

/-!
Trees in an arena. A node knows its parent, its first and last child and its next
sibling by their numbers, and a table beside the nodes tells of each where it comes
from. Numbers are looked up on the way, so an operation has no result when a number
leads nowhere, or when it is followed for ever.
-/

namespace CilPolicy

/-- A leaf with its value, or a list, and the numbers of its neighbours. -/
structure Cell where
  value : Option String
  line : Nat
  offset : Nat
  parent : Option Nat := none
  firstChild : Option Nat := none
  lastChild : Option Nat := none
  next : Option Nat := none
deriving DecidableEq, Repr

/-- A node without children and siblings. -/
def Cell.below (parent : Nat) (value : Option String) (line offset : Nat) : Cell where
  value := value
  line := line
  offset := offset
  parent := some parent

/-- All nodes by number; the root comes first. -/
structure Arena where
  cells : Array Cell
deriving DecidableEq, Repr

namespace Arena

/-- The root alone. -/
def root : Arena where
  cells := #[{ value := none, line := 0, offset := 0 }]

abbrev size (a : Arena) : Nat :=
  a.cells.size

def update? (a : Arena) (k : Nat) (change : Cell → Cell) : Option Arena :=
  if k < a.size then some ⟨a.cells.modify k change⟩ else none

/-- Adds the last child of a node, and gives its number. -/
def addChild? (a : Arena) (parent : Nat) (value : Option String) (line offset : Nat) : Option (Nat × Arena) := do
  let id := a.size
  let a : Arena := ⟨a.cells.push (.below parent value line offset)⟩
  let above ← a.cells[parent]?
  let a ← match above.lastChild with
    | some last => a.update? last fun c => { c with next := some id }
    | none => a.update? parent fun c => { c with firstChild := some id }
  let a ← a.update? parent fun c => { c with lastChild := some id }
  return (id, a)

/-- The children of a node: its first child and then always the next sibling. -/
def children? (a : Arena) (k : Nat) : Option (List Nat) := do
  let cell ← a.cells[k]?
  Graph.followLinks (fun j => a.cells[j]?.map Cell.next) a.size cell.firstChild

/-- The node, its parent, and so on up to the root. -/
def ancestors? (a : Arena) (k : Nat) : Option (List Nat) :=
  Graph.followLinks (fun j => a.cells[j]?.map Cell.parent) a.size (some k)

/-- How many nodes the node stands below. -/
def depth? (a : Arena) (k : Nat) : Option Nat :=
  (a.ancestors? k).map fun up => up.length - 1

end Arena

/-! ### Where nodes come from -/

/-- What the lines inside a frame come from: the file itself, or the source that a line
mark names, line by line or from one line. -/
inductive FrameKind where
  | file
  | lines
  | line
deriving DecidableEq, Repr

/-- A file or the region of a line mark. -/
structure Frame where
  kind : FrameKind
  path : String
  line : Nat
  /-- Value of the line counter where the frame begins. -/
  offset : Nat
  /-- The frame around it. -/
  parent : Option Nat
deriving DecidableEq, Repr

/-- The frame in which a node stands and the one that it opens. -/
structure NodeSource where
  frame : Option Nat := none
  opens : Option Nat := none
  line : Nat := 0
  offset : Nat := 0
deriving DecidableEq, Repr

/-- The table beside the nodes. -/
structure SourceMap where
  frames : Array Frame := #[]
  nodes : Array NodeSource := #[]
deriving DecidableEq, Repr

namespace Frame

/-- One high-level place for each frame of a line mark, the innermost frame first. -/
def origins (offset : Nat) : List Frame → List (String × Nat)
  | [] => []
  | f :: outer =>
    match f.kind with
    | .file => origins f.offset outer
    | .lines =>
      (f.path, (f.line + offset) % Position.lineModulus - (f.offset + 1)) :: origins f.offset outer
    | .line => (f.path, f.line) :: origins f.offset outer

end Frame

namespace SourceMap

/-- Notes the source of the next node. A node of any other number is not accepted. -/
def record? (m : SourceMap) (id : Nat) (source : NodeSource) : Option SourceMap :=
  if id = m.nodes.size then some { m with nodes := m.nodes.push source } else none

/-- The frame in which the children of a node stand. -/
def childFrame? (m : SourceMap) (parent : Nat) : Option (Option Nat) := do
  let source ← m.nodes[parent]?
  return source.opens.or source.frame

/-- Opens a frame at a node, inside the frame of the node. -/
def openFrame? (m : SourceMap) (k : Nat) (kind : FrameKind) (path : String) (line : Nat) : Option SourceMap := do
  let source ← m.nodes[k]?
  return {
    frames := m.frames.push ⟨kind, path, line, source.offset, source.frame⟩
    nodes := m.nodes.modify k fun source => { source with opens := some m.frames.size } }

/-- The frame and those around it. -/
def frames? (m : SourceMap) (start : Option Nat) : Option (List Frame) := do
  let numbers ← Graph.followLinks (fun i => m.frames[i]?.map Frame.parent) m.frames.size start
  return numbers.filterMap (m.frames[·]?)

/-- Path of the innermost file around a node. -/
def path? (m : SourceMap) (k : Nat) : Option (Option String) :=
  match m.nodes[k]? with
  | none => some none
  | some source => do
    let frames ← m.frames? source.frame
    return (frames.find? (·.kind == .file)).map Frame.path

def locate? (m : SourceMap) (k : Nat) : Option Location :=
  match m.nodes[k]? with
  | none => some {}
  | some source => do
    let path ← m.path? k
    let frames ← m.frames? source.frame
    return {
      file := path.getD "<unknown>"
      line := source.line
      origins := Frame.origins source.offset frames }

end SourceMap

/-- The nodes of all files with the table of their sources. -/
structure LinkedTree where
  arena : Arena
  sources : SourceMap
deriving DecidableEq, Repr

namespace LinkedTree

/-- The tree before any file is read. -/
def empty : LinkedTree where
  arena := .root
  sources := { nodes := #[{}] }

/-- Adds a node as the last child of another, in the frame of its siblings. -/
def addNode? (t : LinkedTree) (parent : Nat) (value : Option String) (line offset : Nat) :
    Option (Nat × LinkedTree) := do
  let frame ← t.sources.childFrame? parent
  let (id, arena) ← t.arena.addChild? parent value line offset
  let sources ← t.sources.record? id { frame, line, offset }
  return (id, { arena, sources })

def openFrame? (t : LinkedTree) (k : Nat) (kind : FrameKind) (path : String) (line : Nat) : Option LinkedTree := do
  let sources ← t.sources.openFrame? k kind path line
  return { t with sources }

def locate? (t : LinkedTree) (k : Nat) : Option Location :=
  t.sources.locate? k

end LinkedTree

end CilPolicy
