import CilPolicy.Proofs.Database.Resolution

/-!
# What numbers may refer to

The signature of a database is what its declarations are: their kinds, aliases and sizes, and
nothing of what statements say of them. A database is within a signature when every number
that it keeps is that of a declaration of the signature, and of no alias. The first two passes
leave a database that keeps no numbers but those of aliases and commons.
-/

namespace CilPolicy

/-- What a class is: whether it is a map, its common, and the number of its own permissions
and of all of them. -/
structure ClassShape where
  isMap : Bool
  common : Option Id
  own : Nat
  total : Nat

/-- What the declarations are. A kind that nothing else is asked of has only its size. -/
structure Signature where
  types : Id → Option (TypeKind × Option Id)
  /-- Whether a role is an attribute. -/
  roles : Id → Option Bool
  users : Id → Option Bool
  sensitivities : Id → Option (Bool × Option Id)
  categories : Id → Option (CategoryKind × Option Id)
  classes : Id → Option ClassShape
  commons : Nat
  classPermissions : Nat
  booleans : Nat
  sids : Nat
  levels : Nat
  ranges : Nat
  contexts : Nat
  extendedSets : Nat

/-- What resolving leaves of a category. -/
def CategoryInfo.link (c : CategoryInfo) : CategoryKind × Option Id :=
  (c.kind, c.actual)

namespace Database

def classShape (db : Database) (c : ClassInfo) : ClassShape :=
  ⟨c.isMap, c.common, c.permissions.size, db.permissionCount c⟩

def signature (db : Database) : Signature where
  types id := (db.types.value? id).map (·.link)
  roles id := (db.roles.value? id).map (·.isAttribute)
  users id := (db.users.value? id).map (·.isAttribute)
  sensitivities id := (db.sensitivities.value? id).map (·.link)
  categories id := (db.categories.value? id).map (·.link)
  classes id := (db.classes.value? id).map db.classShape
  commons := db.commons.size
  classPermissions := db.classPermissions.size
  booleans := db.booleans.size
  sids := db.sids.size
  levels := db.levels.size
  ranges := db.ranges.size
  contexts := db.contexts.size
  extendedSets := db.extendedSets.size

end Database

/-! ### Numbers of a signature -/

namespace Signature

/-- The number of a type or type attribute, and not of an alias. -/
def IsType (s : Signature) (id : Id) : Prop :=
  ∃ kind actual, s.types id = some (kind, actual) ∧ kind ≠ .aliasName

def IsConcreteType (s : Signature) (id : Id) : Prop :=
  ∃ actual, s.types id = some (.concrete, actual)

/-- The number of a role or role attribute. -/
def IsRole (s : Signature) (id : Id) : Prop :=
  ∃ isAttribute, s.roles id = some isAttribute

/-- The number of a user or user attribute. -/
def IsUser (s : Signature) (id : Id) : Prop :=
  ∃ isAttribute, s.users id = some isAttribute

/-- The number of a sensitivity, and not of an alias. -/
def IsSensitivity (s : Signature) (id : Id) : Prop :=
  ∃ actual, s.sensitivities id = some (false, actual)

/-- The number of a category or category set, and not of an alias. -/
def IsCategory (s : Signature) (id : Id) : Prop :=
  ∃ kind actual, s.categories id = some (kind, actual) ∧ kind ≠ .aliasName

/-- The number of a category itself. -/
def IsPlainCategory (s : Signature) (id : Id) : Prop :=
  ∃ actual, s.categories id = some (.category, actual)

def IsKernelClass (s : Signature) (id : Id) : Prop :=
  ∃ shape, s.classes id = some shape ∧ shape.isMap = false

def CategoriesWithin (s : Signature) (e : Expr Id) : Prop :=
  ∀ id ∈ e.leaves, s.IsCategory id

/-- The class is declared and has all permissions of the reference. -/
def PermissionsWithin (s : Signature) : ClassPerms Id → Prop
  | .named id => id < s.classPermissions
  | .given cls e => ∃ shape, s.classes cls = some shape ∧ ∀ p ∈ e.leaves, p < shape.total

def ExtendedWithin (s : Signature) : ExtendedArg Id BitSet → Prop
  | .named id => id < s.extendedSets
  | .given spec => s.IsKernelClass spec.cls

structure LevelSpecWithin (s : Signature) (l : LevelSpec Id) : Prop where
  sensitivity : s.IsSensitivity l.sensitivity
  categories : ∀ e ∈ l.categories, s.CategoriesWithin e

def LevelWithin (s : Signature) : LevelArg Id → Prop
  | .named id => id < s.levels
  | .given spec => s.LevelSpecWithin spec

structure RangeSpecWithin (s : Signature) (r : RangeSpec Id) : Prop where
  low : s.LevelWithin r.low
  high : s.LevelWithin r.high

def RangeWithin (s : Signature) : RangeArg Id → Prop
  | .named id => id < s.ranges
  | .given spec => s.RangeSpecWithin spec

/-- User, role and type of a context are no attributes. -/
structure ContextSpecWithin (s : Signature) (c : ContextSpec Id) : Prop where
  user : s.users c.user = some false
  role : s.roles c.role = some false
  type : s.IsConcreteType c.type
  range : s.RangeWithin c.range

def ContextWithin (s : Signature) : ContextArg Id → Prop
  | .named id => id < s.contexts
  | .given spec => s.ContextSpecWithin spec

def TargetWithin (s : Signature) : RuleTarget → Prop
  | .type id => s.IsType id
  | .self => True

def RuleWithin (s : Signature) : Rule → Prop
  | .access _ source target permissions =>
    s.IsType source ∧ s.TargetWithin target ∧ s.PermissionsWithin permissions
  | .extended _ source target permissions =>
    s.IsType source ∧ s.TargetWithin target ∧ s.ExtendedWithin permissions
  | .type _ source target cls result | .namedTransition source target cls _ result =>
    s.IsType source ∧ s.TargetWithin target ∧ s.IsKernelClass cls ∧ s.IsConcreteType result
  | .roleTransition source target cls result =>
    s.IsRole source ∧ s.IsType target ∧ s.IsKernelClass cls ∧ s.roles result = some false
  | .roleAllow source target => s.IsRole source ∧ s.IsRole target
  | .rangeTransition source target cls range =>
    s.IsType source ∧ s.IsType target ∧ s.IsKernelClass cls ∧ s.RangeWithin range

structure TypeWithin (s : Signature) (t : TypeInfo) : Prop where
  bounds : ∀ id ∈ t.bounds, s.IsConcreteType id
  sets : ∀ e ∈ t.sets, ∀ id ∈ e.leaves, s.IsType id

structure RoleWithin (s : Signature) (r : RoleInfo) : Prop where
  bounds : ∀ id ∈ r.bounds, s.roles id = some false
  types : ∀ id ∈ r.types, s.IsType id
  sets : ∀ e ∈ r.sets, ∀ id ∈ e.leaves, s.IsRole id

structure UserWithin (s : Signature) (u : UserInfo) : Prop where
  bounds : ∀ id ∈ u.bounds, s.users id = some false
  roles : ∀ id ∈ u.roles, s.IsRole id
  level : ∀ level ∈ u.level, s.LevelWithin level
  range : ∀ range ∈ u.range, s.RangeWithin range
  sets : ∀ e ∈ u.sets, ∀ id ∈ e.leaves, s.IsUser id

structure ConditionalWithin (s : Signature) (c : Conditional) : Prop where
  condition : ∀ id ∈ c.condition.leaves, id < s.booleans
  rules : ∀ b ∈ c.blocks, ∀ r ∈ b.rules, s.RuleWithin r.rule

/-- Only kernel classes, sensitivities and categories themselves stand in orders. -/
structure FragmentsWithin (s : Signature) (f : Fragments) : Prop where
  classes : ∀ x ∈ f.classes, ∀ id ∈ x.items, s.IsKernelClass id
  unorderedClasses : ∀ x ∈ f.unorderedClasses, ∀ id ∈ x.items, s.IsKernelClass id
  sids : ∀ x ∈ f.sids, ∀ id ∈ x.items, id < s.sids
  sensitivities : ∀ x ∈ f.sensitivities, ∀ id ∈ x.items, s.IsSensitivity id
  categories : ∀ x ∈ f.categories, ∀ id ∈ x.items, s.IsPlainCategory id

/-- Every alias stands for something that is no alias. -/
structure AliasesEnd (s : Signature) : Prop where
  types : ∀ id actual, s.types id = some (.aliasName, actual) → ∃ a, actual = some a ∧ s.IsType a
  sensitivities : ∀ id actual, s.sensitivities id = some (true, actual) →
    ∃ a, actual = some a ∧ s.IsSensitivity a
  categories : ∀ id actual, s.categories id = some (.aliasName, actual) →
    ∃ a, actual = some a ∧ s.IsCategory a
  plain : ∀ id actual, s.sensitivities id = some (false, actual) → s.IsSensitivity (actual.getD id)

end Signature

namespace Database

/-- Every number that the database keeps is one of the signature. -/
structure Within (db : Database) (s : Signature) : Prop where
  types : db.types.All s.TypeWithin
  roles : db.roles.All s.RoleWithin
  users : db.users.All s.UserWithin
  sensitivities : db.sensitivities.All fun i => ∀ e ∈ i.categories, s.CategoriesWithin e
  categories : db.categories.All fun i => ∀ e ∈ i.members, s.CategoriesWithin e
  mappings : db.classes.All fun c => c.permissions.All fun refs => ∀ ref ∈ refs, s.PermissionsWithin ref
  classPermissions : db.classPermissions.All fun refs => ∀ ref ∈ refs, s.PermissionsWithin ref
  extendedSets : db.extendedSets.All fun spec? => ∀ spec ∈ spec?, s.IsKernelClass spec.cls
  levels : db.levels.All fun spec? => ∀ spec ∈ spec?, s.LevelSpecWithin spec
  ranges : db.ranges.All fun spec? => ∀ spec ∈ spec?, s.RangeSpecWithin spec
  contexts : db.contexts.All fun spec? => ∀ spec ∈ spec?, s.ContextSpecWithin spec
  sids : db.sids.All fun context? => ∀ context ∈ context?, s.ContextWithin context
  rules : ∀ r ∈ db.rules, s.RuleWithin r.rule
  conditionals : ∀ c ∈ db.conditionals, s.ConditionalWithin c
  labels : db.labels.AllContexts s.ContextWithin
  fragments : s.FragmentsWithin db.fragments

open Resolve

variable {db db' : Database} {s : Signature} {site : Citation}

/-! ### Declarations -/

theorem typeWithin_new (kind : TypeKind) : s.TypeWithin { kind } :=
  ⟨by simp, by simp⟩

theorem roleWithin_new (isAttribute : Bool) : s.RoleWithin { isAttribute } :=
  ⟨by simp, by simp, by simp⟩

theorem userWithin_new (isAttribute : Bool) : s.UserWithin { isAttribute } :=
  ⟨by simp, by simp, by simp, by simp, by simp⟩

theorem within_empty (s : Signature) : ({} : Database).Within s where
  types := Registry.all_empty _
  roles := by
    intro id r hr
    obtain ⟨d, hd, rfl⟩ := Registry.value?_eq_some.mp hr
    have listed := Registry.mem_toList_of_get? hd
    cases List.mem_singleton.mp listed
    exact roleWithin_new false
  users := Registry.all_empty _
  sensitivities := Registry.all_empty _
  categories := Registry.all_empty _
  mappings := Registry.all_empty _
  classPermissions := Registry.all_empty _
  extendedSets := Registry.all_empty _
  levels := Registry.all_empty _
  ranges := Registry.all_empty _
  contexts := Registry.all_empty _
  sids := Registry.all_empty _
  rules := by simp
  conditionals := by simp
  labels := Labels.allContexts_empty _
  fragments := ⟨by simp, by simp, by simp, by simp, by simp⟩

theorem Within.entry {statement : Statement} (within : db.Within s) (entry : db.Entry statement db') :
    db'.Within s := by
  cases entry with
  | type entered => exact { within with types := within.types.declare (typeWithin_new _) entered }
  | role entered => exact { within with roles := within.roles.declare (roleWithin_new _) entered }
  | user entered => exact { within with users := within.users.declare (userWithin_new _) entered }
  | classPermission entered =>
    exact { within with classPermissions := within.classPermissions.declare (by simp) entered }
  | sensitivity entered => exact { within with sensitivities := within.sensitivities.declare (by simp) entered }
  | category entered | categorySet entered =>
    exact { within with categories := within.categories.declare (by simp) entered }
  | sid entered => exact { within with sids := within.sids.declare (by simp) entered }
  | cls _ blank entered =>
    refine { within with mappings := within.mappings.declare ?_ entered }
    intro id refs hrefs
    simp [blank id refs hrefs]
  | level entered => exact { within with levels := within.levels.declare (by simp) entered }
  | range entered => exact { within with ranges := within.ranges.declare (by simp) entered }
  | context entered => exact { within with contexts := within.contexts.declare (by simp) entered }
  | extendedSet entered => exact { within with extendedSets := within.extendedSets.declare (by simp) entered }
  | _ => exact { within with }

/-! ### Aliases and commons -/

/-- Commons and aliases of categories are bound to declarations, and no map has a common. -/
structure Linked (db : Database) : Prop where
  commons : db.classes.All fun c =>
    (∀ k ∈ c.common, k < db.commons.size) ∧ (c.isMap = true → c.common = none)
  categories : db.categories.All fun c => ∀ a, c.actual = some a → a < db.categories.size

/-- No category is bound while declarations are entered. -/
def CategoriesUnbound (db : Database) : Prop :=
  db.categories.All fun c => c.actual = none

theorem CategoriesUnbound.entry {statement : Statement} (unbound : db.CategoriesUnbound)
    (entry : db.Entry statement db') : db'.CategoriesUnbound := by
  cases entry with
  | category entered | categorySet entered => exact Registry.All.declare unbound rfl entered
  | _ => exact unbound

theorem Fresh.linked (fresh : db.Fresh) (unbound : db.CategoriesUnbound) : db.Linked where
  commons := by
    intro id c hc
    obtain ⟨none, _⟩ := fresh.classes id c hc
    simp [none]
  categories := by
    intro id c hc a ha
    rw [unbound id c hc] at ha
    cases ha

theorem Within.bond {statement : Statement} (within : db.Within s) (bond : db.Bond statement db') : db'.Within s := by
  cases bond with
  | type => exact { within with types := within.types.modify fun t _ old => ⟨old.bounds, old.sets⟩ }
  | sensitivity => exact { within with sensitivities := within.sensitivities.modify fun _ _ old => old }
  | category => exact { within with categories := within.categories.modify fun _ _ old => old }
  | common known =>
    refine { within with mappings := within.mappings.modify fun c hc old => ?_ }
    cases known.symm.trans hc
    exact old
  | nothing => exact within

theorem Linked.bond {statement : Statement} (linked : db.Linked) (bond : db.Bond statement db') : db'.Linked := by
  cases bond with
  | category inside =>
    refine ⟨linked.commons, ?_⟩
    dsimp only
    rw [Registry.size_modify]
    refine linked.categories.modify fun c _ _ b hb => ?_
    cases hb
    exact inside
  | common _ kernel inside =>
    refine ⟨linked.commons.modify fun _ _ _ => ?_, linked.categories⟩
    exact ⟨by simpa using inside, by simp [kernel]⟩
  | _ => exact ⟨linked.commons, linked.categories⟩

theorem all_enterEnds {α : Type} {p : α → Prop} (put : Id → α → α) (keeps : ∀ a v, p v → p (put a v))
    (ends : List (Id × Id)) {r : Registry α} (all : r.All p) : (enterEnds put ends r).All p := by
  induction ends generalizing r with
  | nil => exact all
  | cons first rest ih => exact ih (all.modify fun v _ => keeps first.2 v)

/-- Each alias of a category stands for one that is no alias. -/
def CategoryAliasesEnd (db : Database) : Prop :=
  ∀ id c, db.categories.value? id = some c → c.kind = .aliasName →
    ∃ a c', c.actual = some a ∧ db.categories.value? a = some c' ∧ c'.kind ≠ .aliasName

theorem Within.followAliases (within : db.Within s) (h : db.followAliases = .ok db') : db'.Within s := by
  rw [Database.followAliases] at h
  obtain ⟨types, _, h⟩ := bind_eq_ok.mp h
  obtain ⟨sensitivities, _, h⟩ := bind_eq_ok.mp h
  obtain ⟨categories, _, h⟩ := bind_eq_ok.mp h
  cases h
  have keptTypes := all_enterEnds (fun a t => { t with actual := some a })
    (fun _ _ old => ⟨old.bounds, old.sets⟩) types within.types
  have keptSensitivities := all_enterEnds (fun a i => { i with actual := some a })
    (fun _ _ old => old) sensitivities within.sensitivities
  have keptCategories := all_enterEnds (fun a c => { c with actual := some a })
    (fun _ _ old => old) categories within.categories
  exact { within with
    types := keptTypes, sensitivities := keptSensitivities, categories := keptCategories }

/-- Aliases come to their ends, and classes stay as they are. -/
theorem Linked.followAliases (linked : db.Linked) (h : db.followAliases = .ok db') :
    db'.classes = db.classes ∧ db'.commons = db.commons ∧ db'.CategoryAliasesEnd := by
  rw [Database.followAliases] at h
  obtain ⟨types, _, h⟩ := bind_eq_ok.mp h
  obtain ⟨sensitivities, _, h⟩ := bind_eq_ok.mp h
  obtain ⟨categories, hcategories, h⟩ := bind_eq_ok.mp h
  cases h
  refine ⟨rfl, rfl, ?_⟩
  intro id c hc aliased
  rcases exists_end (fun a (c : CategoryInfo) => { c with actual := some a }) (fun _ _ => rfl)
    (fun _ _ => rfl) linked.categories hcategories hc with ⟨a, c', hactual, hc', plain⟩ | ⟨_, plain⟩
  · exact ⟨a, c', hactual, hc', by simpa using plain⟩
  · simp [aliased] at plain

end Database

end CilPolicy
