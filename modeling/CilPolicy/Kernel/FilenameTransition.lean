import CilPolicy.BitSet.Basic
import CilPolicy.Table.Chain

/-!
Type transitions that depend on the name of the new object. Rules are grouped by
target, class and name; below such a key, sources that lead to one result share a
set.
-/

namespace CilPolicy

/-- Target, class and object name of a transition. -/
structure FilenameKey where
  target : Nat
  cls : Nat
  name : String
deriving DecidableEq, Repr

/-- Target, then class, then name. -/
def FilenameKey.order (a b : FilenameKey) : Ordering :=
  (compare a.target b.target).then ((compare a.cls b.cls).then (compare a.name b.name))

/-- A rule that is to be added: its source, its key and the result. -/
structure FilenameCall where
  source : Nat
  key : FilenameKey
  result : Nat
deriving DecidableEq, Repr

/-- Sources, each by its value less one, that lead to a result. -/
structure FilenameGroup where
  sources : BitSet
  result : Nat
deriving DecidableEq, Repr

/-- Transitions by object name, in the order of their keys. -/
structure FilenameTransitions where
  entries : List (FilenameKey × List FilenameGroup)
deriving DecidableEq, Repr

namespace FilenameTransitions

instance : Inhabited FilenameTransitions := ⟨⟨[]⟩⟩

def groups (t : FilenameTransitions) (key : FilenameKey) : List FilenameGroup :=
  (Chain.find? FilenameKey.order key t.entries).getD []

/-- Adds a source to the group of its result. -/
def extend (bit result : Nat) : List FilenameGroup → List FilenameGroup
  | [] => [⟨BitSet.singleton bit, result⟩]
  | g :: rest =>
    if g.result = result then { g with sources := g.sources.insert bit } :: rest
    else g :: extend bit result rest

/-- Replaces the groups of a key, or adds the key in its place. -/
def setGroups (t : FilenameTransitions) (key : FilenameKey) (groups : List FilenameGroup) :
    FilenameTransitions :=
  match Chain.update? FilenameKey.order key (fun _ => groups) t.entries with
  | some entries => ⟨entries⟩
  | none => ⟨(Chain.insert? FilenameKey.order key groups t.entries).getD t.entries⟩

/-- The table with an entry for the key, which is empty if it is new. -/
def touch (t : FilenameTransitions) (key : FilenameKey) : FilenameTransitions :=
  match Chain.find? FilenameKey.order key t.entries with
  | some _ => t
  | none => t.setGroups key []

/-- What adding the rule gives, and the table that it leaves, also when it fails. The flag
is false when the rule was there already; a rule with the same source and key and another
result is a conflict. -/
def call (t : FilenameTransitions) (c : FilenameCall) : Except KernelError Bool × FilenameTransitions :=
  let t := t.touch c.key
  let groups := t.groups c.key
  match groups.find? (·.sources.has (c.source - 1)) with
  | some g =>
    (if g.result = c.result then .ok false else .error (.transitionConflict c.source g.result c.result), t)
  | none => (.ok true, t.setGroups c.key (extend (c.source - 1) c.result groups))

/-- Adds one rule. There is no table when the rule is a conflict. -/
def add (t : FilenameTransitions) (source : Nat) (key : FilenameKey) (result : Nat) :
    Except KernelError (Bool × FilenameTransitions) :=
  let (outcome, left) := t.call ⟨source, key, result⟩
  outcome.map fun new => (new, left)

/-- Number of keys. -/
def keyCount (t : FilenameTransitions) : Nat :=
  t.entries.length

/-- Number of pairs of a source and a key. -/
def ruleCount (t : FilenameTransitions) : Nat :=
  (t.entries.flatMap fun (_, groups) => groups.flatMap (·.sources.toList)).length

end FilenameTransitions

end CilPolicy
