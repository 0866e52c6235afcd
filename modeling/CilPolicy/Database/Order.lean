import CilPolicy.Database.Basic
import CilPolicy.Report

/-!
Total orders from fragments. Each ordering statement gives a fragment of the order; a
fragment is merged into what is known so far through the items they share, and waits
for a later round when there are none. Merging ends when all fragments are placed or
a round places none.
-/

namespace CilPolicy

/-- Why a fragment is not merged yet. -/
inductive MergeFault (α : Type) where
  /-- No usable shared item, or a contradiction. -/
  | deferred
  /-- The item has its place already. -/
  | duplicate (item : α)
deriving DecidableEq, Repr

namespace Order

variable {α : Type} [DecidableEq α]

/-- Puts items between two parts of a list; no item may be there already. -/
def place (after : List α) : (before items : List α) → Except (MergeFault α) (List α)
  | before, [] => .ok before
  | before, x :: xs =>
    if x ∈ before ∨ x ∈ after then .error (.duplicate x) else place after (before ++ [x]) xs

/-- Merges what is left of a fragment into what is left of the list, behind `front`.
Where the two go apart, one of them has to come back to the other's next item. -/
def mergeBehind (front olds news : List α) : Except (MergeFault α) (List α) :=
  match olds, news with
  | olds, [] => .ok (front ++ olds)
  | [], n :: ns => place [] front (n :: ns)
  | o :: os, n :: ns =>
    if n = o then mergeBehind (front ++ [o]) os ns
    else match ns.idxOf? o with
      | some k => do
        let front ← place (o :: os) front (n :: ns.take k)
        mergeBehind (front ++ [o]) os (ns.drop (k + 1))
      | none =>
        match os.idxOf? n with
        | some k => mergeBehind (front ++ o :: os.take (k + 1)) (os.drop (k + 1)) ns
        | none => .error .deferred
termination_by olds.length + news.length

/-- Where a fragment meets the list: the number of its first item that is in the list,
and that item's place in the list. -/
def anchor? (old new : List α) : Option (Nat × Nat) :=
  match new.findIdx? (· ∈ old) with
  | none => none
  | some n => (new[n]?.bind old.idxOf?).map fun o => (n, o)

/-- Merges a fragment into the list. -/
def merge (old new : List α) : Except (MergeFault α) (List α) :=
  if new.isEmpty then .ok old
  else if old.isEmpty then place [] [] new
  else match anchor? old new with
    | none => .error .deferred
    | some (n, o) =>
      if n ≠ 0 ∧ o ≠ 0 then .error .deferred
      else do
        let front ← place old [] (new.take n)
        mergeBehind (front ++ old.take (o + 1)) (old.drop (o + 1)) (new.drop (n + 1))

/-! ### Merging in place

The same merge on one list that grows, with cursors for how far fragment and list are merged.
There is no result when a cursor, a slice or an insertion lies outside its list. -/

/-- The items from one place to another. -/
def slice? (l : List α) (start stop : Nat) : Option (List α) :=
  if start ≤ stop ∧ stop ≤ l.length then some ((l.take stop).drop start) else none

/-- Inserts the items at the place, one behind the other; no item may be there already. -/
def insertAll? (merged : List α) (place : Nat) : List α → Option (Except (MergeFault α) (List α))
  | [] => some (.ok merged)
  | x :: xs =>
    if x ∈ merged then some (.error (.duplicate x))
    else if place ≤ merged.length then insertAll? (merged.insertIdx place x) (place + 1) xs
    else none

/-- Merges the fragment from the cursor `n` on into the list from the cursor `o` on. -/
def mergeFrom? (new merged : List α) (n o : Nat) : Option (Except (MergeFault α) (List α)) :=
  if n < new.length ∧ o < merged.length then do
    let x ← new[n]?
    let y ← merged[o]?
    if x = y then mergeFrom? new merged (n + 1) (o + 1)
    else match (← slice? new (n + 1) new.length).idxOf? y with
      | some k =>
        match ← insertAll? merged o (← slice? new n (n + k + 1)) with
        | .ok merged => mergeFrom? new merged (n + k + 2) (o + k + 2)
        | .error fault => some (.error fault)
      | none =>
        match (← slice? merged (o + 1) merged.length).idxOf? x with
        | some k => mergeFrom? new merged (n + 1) (o + k + 2)
        | none => some (.error .deferred)
  else do insertAll? merged merged.length (← slice? new (min n new.length) new.length)
termination_by new.length - n

/-- Merges a fragment into the list. -/
def mergeInPlace? (old new : List α) : Option (Except (MergeFault α) (List α)) :=
  if new.isEmpty then some (.ok old)
  else if old.isEmpty then insertAll? old old.length new
  else match anchor? old new with
    | none => some (.error .deferred)
    | some (n, o) =>
      if n ≠ 0 ∧ o ≠ 0 then some (.error .deferred)
      else do
        match ← insertAll? old 0 (← slice? new 0 n) with
        | .ok merged => mergeFrom? new merged (n + 1) (o + n + 1)
        | .error fault => some (.error fault)

/-! ### Rounds -/

/-- The list after a round and the fragments left over, each with its fault. -/
structure Round (α β : Type) where
  merged : List α
  left : List (β × MergeFault α)

/-- Tries a fragment. -/
def Round.attempt (items : β → List α) (r : Round α β) (fragment : β) : Round α β :=
  match merge r.merged (items fragment) with
  | .ok merged => { r with merged }
  | .error fault => { r with left := r.left ++ [(fragment, fault)] }

/-- Tries every fragment once. -/
def round (items : β → List α) (merged : List α) (pending : List β) : Round α β :=
  pending.foldl (Round.attempt items) ⟨merged, []⟩

/-- Merges fragments round by round; fails with the fragments that cannot be placed. -/
def mergeRounds (items : β → List α) (merged : List α) (pending : List β) :
    Except (List (β × MergeFault α)) (List α) :=
  let r := round items merged pending
  if r.left.isEmpty then .ok r.merged
  else if r.left.length < pending.length then mergeRounds items r.merged (r.left.map (·.1))
  else .error r.left
termination_by pending.length
decreasing_by simpa using ‹_›

/-- Adds an item at the end of the first list, or of the second when it has a place in
the first already. -/
def appendItem (lists : List α × List α) (x : α) : List α × List α :=
  if x ∈ lists.1 then (lists.1, lists.2 ++ [x]) else (lists.1 ++ [x], lists.2)

/-- Adds the items of unordered fragments at the end; those that have a place already
are returned apart. -/
def appendUnordered (merged : List α) (items : List α) : List α × List α :=
  items.foldl appendItem (merged, [])

end Order

/-- What is said of a fragment that cannot be placed. -/
def MergeFault.violation (kind : OrderKind) (name : Id → String) : MergeFault Id → Violation
  | duplicate id => .alreadyMerged kind (name id)
  | deferred => .unmergeable

/-- The total order of fragments; items of unordered fragments come last. -/
def mergeFragments (kind : OrderKind) (name : Id → String) (fragments unordered : List Fragment) :
    Report (List Id) := do
  match Order.mergeRounds Fragment.items [] fragments with
  | .error left =>
    Report.reject (left.map fun (f, fault) =>
      .violation (fault.violation kind name) (some f.location))
    return []
  | .ok merged =>
    let (merged, ignored) := Order.appendUnordered merged (unordered.flatMap (·.items))
    ignored.forM fun id =>
      Report.warn s!"Ignoring '{name id}' as it has already been declared in {kind.keyword}."
    return merged

/-- The total orders of a policy. -/
structure Orders where
  classes : List Id := []
  sids : List Id := []
  sensitivities : List Id := []
  categories : List Id := []
deriving DecidableEq, Repr, Inhabited

/-- A database whose classes, initial contexts, sensitivities and categories are in order. -/
structure OrderedDatabase extends Database where
  orders : Orders := {}
deriving Inhabited

namespace Database

/-- Declarations that no ordering statement gives a place. -/
def unplaced (r : Registry α) (kind : OrderKind) (needed : α → Bool) (order : List Id) :
    List Diagnostic :=
  (r.indexed.filter fun (id, d) => needed d.value && !order.contains id).map fun (_, d) =>
    .violation (.unordered kind d.name) (some d.location)

/-- Merges all four orders and checks that everything has its place. -/
def order (db : Database) : Report OrderedDatabase := do
  let f := db.fragments
  let classes ← mergeFragments .cls db.classes.nameOf f.classes f.unorderedClasses
  let sids ← mergeFragments .sid db.sids.nameOf f.sids []
  let sensitivities ← mergeFragments .sensitivity db.sensitivities.nameOf f.sensitivities []
  let categories ← mergeFragments .category db.categories.nameOf f.categories []
  Report.reject (unplaced db.sids .sid (fun _ => true) sids
    ++ unplaced db.classes .cls (!·.isMap) classes
    ++ unplaced db.categories .category (·.kind == .category) categories
    ++ unplaced db.sensitivities .sensitivity (!·.isAlias) sensitivities)
  return { db with orders := { classes, sids, sensitivities, categories } }

end Database

end CilPolicy
