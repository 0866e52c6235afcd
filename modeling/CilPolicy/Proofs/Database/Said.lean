import CilPolicy.Proofs.Database.References

/-!
# What statements say, by name

Everything that the statements of a policy say of its declarations, and everything else they
say, as notes on a board. What is told of a declaration stands under the declaration's name,
and the notes name the declarations they refer to.
-/

namespace CilPolicy

/-! ### Keys -/

/-- What may be said of a type. -/
inductive TypePart where
  | bounds
  | permissive
  | sets
  | usedByAccess
  | usedByNeverAllow
deriving DecidableEq, Repr

inductive RolePart where
  | bounds
  | types
  | sets
deriving DecidableEq, Repr

inductive UserPart where
  | bounds
  | roles
  | level
  | range
  | sets
deriving DecidableEq, Repr

inductive ClassPart where
  | default (kind : DefaultKind)
  | defaultRange
  | mapping (permission : String)
deriving DecidableEq, Repr

/-- What is said of no declaration in particular. -/
inductive Pile where
  | rules
  | conditionals
  | files
  | filesystems
  | genfs
  | ports
  | nodes
  | interfaces
  | partitionKeys
  | endPorts
  | interrupts
  | ioMemory
  | ioPorts
  | pciDevices
  | deviceTrees
  | classOrder
  | unorderedClasses
  | sidOrder
  | sensitivityOrder
  | categoryOrder
  | handleUnknown
  | mls
  | capabilities
deriving DecidableEq, Repr

/-- What something is said of. -/
inductive Topic where
  | type (name : String) (part : TypePart)
  | role (name : String) (part : RolePart)
  | user (name : String) (part : UserPart)
  | cls (name : String) (part : ClassPart)
  | sensitivity (name : String)
  | category (name : String)
  | classPermission (name : String)
  | sid (name : String)
  | level (name : String)
  | range (name : String)
  | context (name : String)
  | extendedSet (name : String)
  | pile (pile : Pile)
deriving DecidableEq, Repr

/-! ### Facts -/

abbrev TypePart.Fact : TypePart → Type
  | bounds => String
  | sets => Expr String
  | permissive | usedByAccess | usedByNeverAllow => Unit

abbrev RolePart.Fact : RolePart → Type
  | bounds | types => String
  | sets => Expr String

abbrev UserPart.Fact : UserPart → Type
  | bounds | roles => String
  | level => LevelArg String
  | range => RangeArg String
  | sets => Expr String

abbrev ClassPart.Fact : ClassPart → Type
  | default _ => DefaultObject
  | defaultRange => DefaultRange
  | mapping _ => ClassPerms String

abbrev Pile.Fact : Pile → Type
  | rules => PlacedNamedRule
  | conditionals => NamedConditional
  | files => Label FileSelector (Option (ContextArg String))
  | filesystems => Label FilesystemSelector (ContextArg String)
  | genfs => Label GenfsSelector (ContextArg String)
  | ports => Label PortSelector (ContextArg String)
  | nodes => Label NodeSelector (ContextArg String)
  | interfaces => Label String (ContextArg String × ContextArg String)
  | partitionKeys => Label PartitionKeySelector (ContextArg String)
  | endPorts => Label EndPortSelector (ContextArg String)
  | interrupts | pciDevices => Label Nat (ContextArg String)
  | ioMemory | ioPorts => Label Interval (ContextArg String)
  | deviceTrees => Label String (ContextArg String)
  | classOrder | unorderedClasses | sidOrder | sensitivityOrder | categoryOrder => Location × List String
  | handleUnknown => Location × HandleUnknown
  | mls => Location × Bool
  | capabilities => Location × String

/-- An entry of a pile as the database has it. -/
abbrev Pile.Entry : Pile → Type
  | rules => PlacedRule
  | conditionals => Conditional
  | files => Label FileSelector (Option (ContextArg Id))
  | filesystems => Label FilesystemSelector (ContextArg Id)
  | genfs => Label GenfsSelector (ContextArg Id)
  | ports => Label PortSelector (ContextArg Id)
  | nodes => Label NodeSelector (ContextArg Id)
  | interfaces => Label String (ContextArg Id × ContextArg Id)
  | partitionKeys => Label PartitionKeySelector (ContextArg Id)
  | endPorts => Label EndPortSelector (ContextArg Id)
  | interrupts | pciDevices => Label Nat (ContextArg Id)
  | ioMemory | ioPorts => Label Interval (ContextArg Id)
  | deviceTrees => Label String (ContextArg Id)
  | classOrder | unorderedClasses | sidOrder | sensitivityOrder | categoryOrder => Fragment
  | handleUnknown => Location × HandleUnknown
  | mls => Location × Bool
  | capabilities => Location × String

/-- What is said of a topic, by name. -/
abbrev Topic.Fact : Topic → Type
  | type _ part => part.Fact
  | role _ part => part.Fact
  | user _ part => part.Fact
  | cls _ part => part.Fact
  | sensitivity _ | category _ => Expr String
  | classPermission _ => ClassPerms String
  | sid _ => ContextArg String
  | level _ => LevelSpec String
  | range _ => RangeSpec String
  | context _ => ContextSpec String
  | extendedSet _ => ExtendedSpec String BitSet
  | pile p => p.Fact

instance (part : TypePart) : DecidableEq part.Fact := by
  cases part <;> exact inferInstance

instance (part : RolePart) : DecidableEq part.Fact := by
  cases part <;> exact inferInstance

instance (part : UserPart) : DecidableEq part.Fact := by
  cases part <;> exact inferInstance

instance (part : ClassPart) : DecidableEq part.Fact := by
  cases part <;> exact inferInstance

instance (pile : Pile) : DecidableEq pile.Fact := by
  cases pile <;> exact inferInstance

instance (topic : Topic) : DecidableEq topic.Fact := by
  cases topic <;> exact inferInstance

/-- What is kept of the facts on a topic. Bounds and the context of a SID are given once, flags
and defaults may be repeated, and other things that a declaration has one of are replaced. -/
def Topic.keeping : (topic : Topic) → Keeping topic.Fact
  | type _ .bounds | role _ .bounds | user _ .bounds | sid _ => .one fun _ => false
  | type _ .permissive | type _ .usedByAccess | type _ .usedByNeverAllow | cls _ (.default _) | cls _ .defaultRange =>
    .one fun _ => true
  | user _ .level | user _ .range | category _ | level _ | range _ | context _ | extendedSet _ => .latest
  | type _ .sets | role _ .types | role _ .sets | user _ .roles | user _ .sets | cls _ (.mapping _) | sensitivity _
  | classPermission _ | pile _ => .all

/-! ### The board of a database -/

/-- What is told of the declaration with the name. -/
def Registry.tell {α β : Type} (r : Registry α) (facts : α → List β) (name : String) : List β :=
  ((r.look name).map facts).getD []

namespace Database

def pile (db : Database) : (pile : Pile) → List pile.Entry
  | .rules => db.rules
  | .conditionals => db.conditionals
  | .files => db.labels.files
  | .filesystems => db.labels.filesystems
  | .genfs => db.labels.genfs
  | .ports => db.labels.ports
  | .nodes => db.labels.nodes
  | .interfaces => db.labels.interfaces
  | .partitionKeys => db.labels.partitionKeys
  | .endPorts => db.labels.endPorts
  | .interrupts => db.labels.interrupts
  | .ioMemory => db.labels.ioMemory
  | .ioPorts => db.labels.ioPorts
  | .pciDevices => db.labels.pciDevices
  | .deviceTrees => db.labels.deviceTrees
  | .classOrder => db.fragments.classes
  | .unorderedClasses => db.fragments.unorderedClasses
  | .sidOrder => db.fragments.sids
  | .sensitivityOrder => db.fragments.sensitivities
  | .categoryOrder => db.fragments.categories
  | .handleUnknown => db.handleUnknown
  | .mls => db.mls
  | .capabilities => db.capabilities

/-- The database with one more entry of a pile. -/
def push (db : Database) : (pile : Pile) → pile.Entry → Database
  | .rules, r => { db with rules := db.rules ++ [r] }
  | .conditionals, c => { db with conditionals := db.conditionals ++ [c] }
  | .files, l => { db with labels.files := db.labels.files ++ [l] }
  | .filesystems, l => { db with labels.filesystems := db.labels.filesystems ++ [l] }
  | .genfs, l => { db with labels.genfs := db.labels.genfs ++ [l] }
  | .ports, l => { db with labels.ports := db.labels.ports ++ [l] }
  | .nodes, l => { db with labels.nodes := db.labels.nodes ++ [l] }
  | .interfaces, l => { db with labels.interfaces := db.labels.interfaces ++ [l] }
  | .partitionKeys, l => { db with labels.partitionKeys := db.labels.partitionKeys ++ [l] }
  | .endPorts, l => { db with labels.endPorts := db.labels.endPorts ++ [l] }
  | .interrupts, l => { db with labels.interrupts := db.labels.interrupts ++ [l] }
  | .ioMemory, l => { db with labels.ioMemory := db.labels.ioMemory ++ [l] }
  | .ioPorts, l => { db with labels.ioPorts := db.labels.ioPorts ++ [l] }
  | .pciDevices, l => { db with labels.pciDevices := db.labels.pciDevices ++ [l] }
  | .deviceTrees, l => { db with labels.deviceTrees := db.labels.deviceTrees ++ [l] }
  | .classOrder, f => { db with fragments.classes := db.fragments.classes ++ [f] }
  | .unorderedClasses, f => { db with fragments.unorderedClasses := db.fragments.unorderedClasses ++ [f] }
  | .sidOrder, f => { db with fragments.sids := db.fragments.sids ++ [f] }
  | .sensitivityOrder, f => { db with fragments.sensitivities := db.fragments.sensitivities ++ [f] }
  | .categoryOrder, f => { db with fragments.categories := db.fragments.categories ++ [f] }
  | .handleUnknown, v => { db with handleUnknown := db.handleUnknown ++ [v] }
  | .mls, v => { db with mls := db.mls ++ [v] }
  | .capabilities, c => { db with capabilities := db.capabilities ++ [c] }

theorem pile_push_self (db : Database) (pile : Pile) (entry : pile.Entry) :
    (db.push pile entry).pile pile = db.pile pile ++ [entry] := by
  cases pile <;> rfl

theorem pile_push_other (db : Database) {pile other : Pile} (differ : other ≠ pile) (entry : pile.Entry) :
    (db.push pile entry).pile other = db.pile other := by
  cases pile <;> cases other <;> first | rfl | exact absurd rfl differ

end Database

namespace Skeleton

variable (k : Skeleton)

def typeFacts (t : TypeInfo) : (part : TypePart) → List part.Fact
  | .bounds => (t.bounds.map k.types.nameOf).toList
  | .permissive => if t.permissive then [()] else []
  | .sets => t.sets.map (·.map k.types.nameOf)
  | .usedByAccess => if t.usedByAccess then [()] else []
  | .usedByNeverAllow => if t.usedByNeverAllow then [()] else []

def roleFacts (r : RoleInfo) : (part : RolePart) → List part.Fact
  | .bounds => (r.bounds.map k.roles.nameOf).toList
  | .types => r.types.map k.types.nameOf
  | .sets => r.sets.map (·.map k.roles.nameOf)

def userFacts (u : UserInfo) : (part : UserPart) → List part.Fact
  | .bounds => (u.bounds.map k.users.nameOf).toList
  | .roles => u.roles.map k.roles.nameOf
  | .level => (u.level.map k.levelArg).toList
  | .range => (u.range.map k.rangeArg).toList
  | .sets => u.sets.map (·.map k.users.nameOf)

def classFacts (c : ClassInfo) : (part : ClassPart) → List part.Fact
  | .default kind => (Database.classDefault kind c).toList
  | .defaultRange => c.defaultRange.toList
  | .mapping permission => c.permissions.tell (·.map k.classPerms) permission

/-- How the items of an order are named. -/
def orderNames : OrderKind → Id → String
  | .cls => k.classes.nameOf
  | .sid => k.sids.nameOf
  | .sensitivity => k.sensitivities.nameOf
  | .category => k.categories.nameOf

def fragment (nameOf : Id → String) (f : Fragment) : Location × List String :=
  (f.location, f.items.map nameOf)

/-- The entry of a pile by name. -/
def entry : (pile : Pile) → pile.Entry → pile.Fact
  | .rules => k.placedRule
  | .conditionals => k.conditional
  | .files => fun l => ⟨l.location, l.selector, l.context.map k.contextArg⟩
  | .interfaces => fun l => ⟨l.location, l.selector, (k.contextArg l.context.1, k.contextArg l.context.2)⟩
  | .filesystems | .genfs | .ports | .nodes | .partitionKeys | .endPorts | .interrupts | .ioMemory | .ioPorts
  | .pciDevices | .deviceTrees => k.label
  | .classOrder | .unorderedClasses => fragment (k.orderNames .cls)
  | .sidOrder => fragment (k.orderNames .sid)
  | .sensitivityOrder => fragment (k.orderNames .sensitivity)
  | .categoryOrder => fragment (k.orderNames .category)
  | .handleUnknown | .mls | .capabilities => id

/-- Everything that is said in the database, with names from the skeleton. -/
def said (db : Database) : Board Topic.Fact
  | .type name part => db.types.tell (k.typeFacts · part) name
  | .role name part => db.roles.tell (k.roleFacts · part) name
  | .user name part => db.users.tell (k.userFacts · part) name
  | .cls name part => db.classes.tell (k.classFacts · part) name
  | .sensitivity name => db.sensitivities.tell (fun s => s.categories.map (·.map k.categories.nameOf)) name
  | .category name => db.categories.tell (fun c => (c.members.map (·.map k.categories.nameOf)).toList) name
  | .classPermission name => db.classPermissions.tell (·.map k.classPerms) name
  | .sid name => db.sids.tell (fun context => (context.map k.contextArg).toList) name
  | .level name => db.levels.tell (fun spec => (spec.map k.levelSpec).toList) name
  | .range name => db.ranges.tell (fun spec => (spec.map k.rangeSpec).toList) name
  | .context name => db.contexts.tell (fun spec => (spec.map k.contextSpec).toList) name
  | .extendedSet name => db.extendedSets.tell (fun spec => (spec.map k.extendedSpec).toList) name
  | .pile pile => (db.pile pile).map (k.entry pile)

end Skeleton

/-! ### Telling more -/

namespace Registry

variable {α β : Type} {r : Registry α} {facts : α → List β} {id : Id} {name : String} {f : α → α} {v : α}

theorem Distinct.tell_eq (distinct : r.Distinct) (named : r.Named id name) (value : r.value? id = some v) :
    r.tell facts name = facts v := by
  rw [tell, distinct.look_eq named, value]
  rfl

theorem Distinct.tell_modify_self (distinct : r.Distinct) (named : r.Named id name) (value : r.value? id = some v) :
    (r.modify id f).tell facts name = facts (f v) := by
  rw [tell, distinct.look_modify named f, if_pos rfl, distinct.look_eq named, value]
  rfl

/-- Nothing else is told of other declarations, or of the same one if the change does not show. -/
theorem Distinct.tell_modify_other (distinct : r.Distinct) (named : r.Named id name) {other : String}
    (kept : other = name → ∀ v, r.value? id = some v → facts (f v) = facts v) :
    (r.modify id f).tell facts other = r.tell facts other := by
  rw [tell, distinct.look_modify named f]
  split
  · rename_i same
    subst same
    rw [tell, distinct.look_eq named, Option.map_map]
    cases value : r.value? id with
    | none => rfl
    | some v => exact kept rfl v value
  · rfl

end Registry

end CilPolicy
