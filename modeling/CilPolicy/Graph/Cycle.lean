/-!
Cycles of a finite graph, by a search in depth. The search keeps the path it is on and
the nodes it has finished; an edge back into the path closes a cycle. Where at most one
step leads on from each place, a walk compares each place with an anchor that it has
passed, and moves the anchor up after two, four, eight … steps; a chain that runs in a
circle brings it back to its anchor.
-/

namespace CilPolicy.Graph

section Search

variable {α : Type} [DecidableEq α]

/-- Searches from a node that is neither on the path nor finished. The result is the
nodes finished by then, or the node at which a cycle closes. The fuel bounds the
length of the path. -/
def search (next : α → List α) : (fuel : Nat) → (path done : List α) → α → Except α (List α)
  | 0, _, done, _ => .ok done
  | fuel + 1, path, done, node => do
    let path := node :: path
    let done ← (next node).foldlM (fun done child =>
      if child ∈ path then .error child
      else if child ∈ done then .ok done
      else search next fuel path done child) done
    return node :: done

/-- The first cycle that a search from each of the nodes in turn meets, by the node at
which it closes. -/
def findCycle (nodes : List α) (next : α → List α) : Option α :=
  let result := nodes.foldlM (fun done node =>
    if node ∈ done then .ok done else search next (nodes.length + 1) [] done node) []
  match result with
  | .ok _ => none
  | .error node => some node

end Search

/-! ### Chains -/

/-- The place reached after a number of steps, if the chain goes that far. -/
def walk (next : Nat → Option Nat) : (steps start : Nat) → Option Nat
  | 0, place => some place
  | steps + 1, place => (next place).bind (walk next steps)

/-- The places met from `start` on until no link leads further. There is no answer when a
place is unknown or the fuel runs out. -/
def followLinks (link : Nat → Option (Option Nat)) : (fuel : Nat) → (start : Option Nat) →
    Option (List Nat)
  | _, none => some []
  | 0, some _ => none
  | fuel + 1, some k => do
    let next ← link k
    let rest ← followLinks link fuel next
    return k :: rest

/-- What a walk along a chain comes to. -/
inductive ChainEnd where
  /-- No step leads on from the place. -/
  | last (place : Nat)
  /-- The chain leads back to the anchor. -/
  | circle (anchor : Nat)
deriving DecidableEq, Repr

/-- Walks on from a place. The anchor has been passed `steps` ago and moves up when the
number of steps reaches `limit`. There is no answer when the fuel runs out. -/
def chase (next : Nat → Option Nat) : (fuel place anchor steps limit : Nat) → Option ChainEnd
  | 0, _, _, _, _ => none
  | fuel + 1, place, anchor, steps, limit =>
    match next place with
    | none => some (.last place)
    | some further =>
      if further = anchor then some (.circle anchor)
      else if steps + 1 = limit then chase next fuel further further 0 (2 * limit)
      else chase next fuel further anchor (steps + 1) limit

/-- A walk among `count` places has come to its answer after this many steps. -/
def chaseFuel (count : Nat) : Nat :=
  3 * count

/-- The chain from `start` runs in a circle. -/
def loops (count : Nat) (next : Nat → Option Nat) (start : Nat) : Bool :=
  match chase next (chaseFuel count) start start 0 2 with
  | some (.last _) => false
  | _ => true

end CilPolicy.Graph
