import CilPolicy.Proofs.Database.Given

/-!
# Declarations by name

The skeleton of a database is what its declarations are, without what statements say of them.
Its names are the same with numbers replaced by names: two databases whose declarations were
made in different orders have different skeletons but may have the same names. References are
read by name as well.
-/

namespace CilPolicy

namespace Expr

mutual

/-- The expression with each item replaced. -/
def map {α β : Type} (f : α → β) : Expr α → Expr β
  | item a => item (f a)
  | list members => list (mapAll f members)
  | apply op operands => apply op (mapAll f operands)

def mapAll {α β : Type} (f : α → β) : List (Expr α) → List (Expr β)
  | [] => []
  | e :: es => e.map f :: mapAll f es

end

end Expr

/-! ### Registries -/

namespace Registry

variable {α β : Type} {r : Registry α}

/-- What is known of the declaration with the name. -/
def look (r : Registry α) (name : String) : Option α :=
  (r.find? name).bind r.value?

/-- The names in the order of their declaration. -/
def names (r : Registry α) : List String :=
  r.toList.map (·.name)

/-- The registry with a part of what is known. -/
def outline (f : α → β) (r : Registry α) : Registry β :=
  ⟨r.entries.map fun d => ⟨d.name, d.location, f d.value⟩⟩

/-- The number is that of a declaration with the name. -/
def Named (r : Registry α) (id : Id) (name : String) : Prop :=
  ∃ d, r.get? id = some d ∧ d.name = name

theorem Named.nameOf {id : Id} {name : String} (h : r.Named id name) : r.nameOf id = name := by
  obtain ⟨d, hd, rfl⟩ := h
  rw [Registry.nameOf, hd]
  rfl

theorem Named.lt {id : Nat} {name : String} (h : r.Named id name) : id < r.size := by
  obtain ⟨d, hd, _⟩ := h
  exact (Array.getElem?_eq_some_iff.mp hd).1

theorem named_nameOf {id : Nat} (h : id < r.size) : r.Named id (r.nameOf id) := by
  refine ⟨_, Array.getElem?_eq_getElem h, ?_⟩
  rw [nameOf, get?, Array.getElem?_eq_getElem h]
  rfl

theorem named_of_find? {name : String} {id : Id} (h : r.find? name = some id) : r.Named id name :=
  exists_get?_of_find? h

/-- A name leads to the only declaration that has it. -/
theorem Distinct.find?_eq (distinct : r.Distinct) {id : Id} {name : String} (h : r.Named id name) :
    r.find? name = some id := by
  obtain ⟨d, hd, rfl⟩ := h
  cases hfound : r.find? d.name with
  | none =>
    have some := find?_isSome.mpr ⟨id, d, hd, rfl⟩
    rw [hfound] at some
    cases some
  | some other =>
    obtain ⟨d', hd', same⟩ := exists_get?_of_find? hfound
    rw [distinct other id d' d hd' hd same]

theorem Distinct.look_eq (distinct : r.Distinct) {id : Id} {name : String} (h : r.Named id name) :
    r.look name = r.value? id := by
  rw [look, distinct.find?_eq h]
  rfl

@[simp] theorem find?_outline (f : α → β) (name : String) : (r.outline f).find? name = r.find? name := by
  simp only [find?, outline, Array.findIdx?_map]
  rfl

@[simp] theorem get?_outline (f : α → β) (id : Id) :
    (r.outline f).get? id = (r.get? id).map fun d => ⟨d.name, d.location, f d.value⟩ := by
  simp only [get?, outline, Array.getElem?_map]

@[simp] theorem value?_outline (f : α → β) (id : Id) : (r.outline f).value? id = (r.value? id).map f := by
  simp only [value?, get?_outline, Option.map_map]
  rfl

@[simp] theorem look_outline (f : α → β) (name : String) : (r.outline f).look name = (r.look name).map f := by
  simp only [look, find?_outline]
  cases r.find? name with
  | none => rfl
  | some id => exact value?_outline f id

@[simp] theorem nameOf_outline (f : α → β) (id : Id) : (r.outline f).nameOf id = r.nameOf id := by
  simp only [nameOf, get?_outline, Option.map_map]
  rfl

@[simp] theorem named_outline (f : α → β) {id : Id} {name : String} :
    (r.outline f).Named id name ↔ r.Named id name := by
  simp only [Named, get?_outline, Option.map_eq_some_iff]
  constructor
  · rintro ⟨_, ⟨d, hd, rfl⟩, same⟩
    exact ⟨d, hd, same⟩
  · rintro ⟨d, hd, same⟩
    exact ⟨_, ⟨d, hd, rfl⟩, same⟩

theorem Named.nameOf_outline {id : Id} {name : String} (h : r.Named id name) (f : α → β) :
    (r.outline f).nameOf id = name :=
  (Registry.nameOf_outline f id).trans h.nameOf

@[simp] theorem size_outline (f : α → β) : (r.outline f).size = r.size :=
  Array.size_map ..

@[simp] theorem names_outline (f : α → β) : (r.outline f).names = r.names := by
  simp only [names, toList, outline, Array.toList_map, List.map_map]
  rfl

theorem distinct_outline (f : α → β) : (r.outline f).Distinct ↔ r.Distinct := by
  constructor
  · intro distinct id id' d d' hd hd' same
    exact distinct id id' _ _ ((get?_outline f id).trans (congrArg (Option.map _) hd))
      ((get?_outline f id').trans (congrArg (Option.map _) hd')) same
  · intro distinct id id' e e' he he' same
    rw [get?_outline] at he he'
    obtain ⟨d, hd, rfl⟩ := Option.map_eq_some_iff.mp he
    obtain ⟨d', hd', rfl⟩ := Option.map_eq_some_iff.mp he'
    exact distinct id id' d d' hd hd' same

/-- What is left out of the outline may change. -/
theorem outline_modify_at {f : α → β} {g : α → α} {id : Id} (same : ∀ v, r.value? id = some v → f (g v) = f v) :
    (r.modify id g).outline f = r.outline f := by
  simp only [outline, modify, mk.injEq]
  ext1
  · simp
  · rename_i i _ inside
    simp only [Array.getElem_map, Array.getElem_modify]
    split
    · rename_i here
      subst here
      simp only [Declared.mk.injEq, true_and]
      exact same _ (value?_eq_some.mpr ⟨_, Array.getElem?_eq_getElem (by simpa using inside), rfl⟩)
    · rfl

theorem outline_modify {f : α → β} {g : α → α} (same : ∀ v, f (g v) = f v) (id : Id) :
    (r.modify id g).outline f = r.outline f :=
  outline_modify_at fun v _ => same v

theorem all_outline (f : α → β) {p : β → Prop} : (r.outline f).All p ↔ r.All fun v => p (f v) := by
  constructor
  · intro all id v hv
    exact all id (f v) (by rw [value?_outline, hv]; rfl)
  · intro all id w hw
    rw [value?_outline] at hw
    obtain ⟨v, hv, rfl⟩ := Option.map_eq_some_iff.mp hw
    exact all id v hv

theorem outline_modify_unit (id : Id) (f : α → α) : (r.modify id f).outline (fun _ => ()) = r.outline fun _ => () :=
  outline_modify (fun v => (rfl : (fun _ => ()) (f v) = (fun _ => ()) v)) id

theorem Named.modify {id n : Id} {name : String} (h : r.Named n name) (f : α → α) : (r.modify id f).Named n name := by
  obtain ⟨d, hd, rfl⟩ := h
  rw [Named, get?_modify, hd]
  split
  · exact ⟨_, rfl, rfl⟩
  · exact ⟨d, rfl, rfl⟩

theorem modify_eq_self {id : Id} {f : α → α} (same : ∀ v, r.value? id = some v → f v = v) : r.modify id f = r := by
  obtain ⟨entries⟩ := r
  simp only [modify, mk.injEq]
  ext1
  · simp
  · rename_i i _ inside
    simp only [Array.getElem_modify]
    split
    · rename_i here
      subst here
      rw [same _ (value?_eq_some.mpr ⟨_, Array.getElem?_eq_getElem inside, rfl⟩)]
    · rfl

/-- A change to one declaration shows under its name. -/
theorem Distinct.look_modify (distinct : r.Distinct) {id : Id} {name : String} (h : r.Named id name)
    (f : α → α) (other : String) :
    (r.modify id f).look other = if other = name then (r.look other).map f else r.look other := by
  have found : (r.modify id f).find? other = r.find? other := by
    rw [← find?_outline (fun _ => ()), outline_modify_unit, find?_outline]
  simp only [look, found]
  split
  · rename_i same
    rw [same, distinct.find?_eq h]
    simp [value?_modify]
  · rename_i differ
    cases hother : r.find? other with
    | none => rfl
    | some n =>
      have apart : id ≠ n := by
        rintro rfl
        obtain ⟨d, hd, rfl⟩ := named_of_find? hother
        exact differ (by rw [← h.nameOf, Named.nameOf ⟨d, hd, rfl⟩])
      simp [value?_modify, apart]

end Registry

/-! ### Skeletons -/

/-- What a class is: a map or not, its own permissions and its common. -/
structure ClassOutline where
  isMap : Bool
  permissions : Registry Unit
  common : Option Id

/-- What the declarations are, by number. -/
structure Skeleton where
  types : Registry (TypeKind × Option Id)
  /-- Whether a role is an attribute. -/
  roles : Registry Bool
  users : Registry Bool
  sensitivities : Registry (Bool × Option Id)
  categories : Registry (CategoryKind × Option Id)
  commons : Registry (Registry Unit)
  classes : Registry ClassOutline
  classPermissions : Registry Unit
  booleans : Registry Bool
  sids : Registry Unit
  levels : Registry Unit
  ranges : Registry Unit
  contexts : Registry Unit
  addresses : Registry IpAddress
  extendedSets : Registry Unit

def ClassInfo.outline (c : ClassInfo) : ClassOutline :=
  ⟨c.isMap, c.permissions.outline fun _ => (), c.common⟩

def Database.skeleton (db : Database) : Skeleton where
  types := db.types.outline (·.link)
  roles := db.roles.outline (·.isAttribute)
  users := db.users.outline (·.isAttribute)
  sensitivities := db.sensitivities.outline (·.link)
  categories := db.categories.outline (·.link)
  commons := db.commons
  classes := db.classes.outline (·.outline)
  classPermissions := db.classPermissions.outline fun _ => ()
  booleans := db.booleans
  sids := db.sids.outline fun _ => ()
  levels := db.levels.outline fun _ => ()
  ranges := db.ranges.outline fun _ => ()
  contexts := db.contexts.outline fun _ => ()
  addresses := db.addresses
  extendedSets := db.extendedSets.outline fun _ => ()

/-- What a class is, by name. -/
structure ClassNames where
  isMap : Bool
  permissions : List String
  common : Option String
deriving DecidableEq, Repr

/-- What the declarations are, by name. -/
@[ext]
structure Names where
  /-- The kind of a type, and what it stands for if it is an alias. -/
  types : String → Option (TypeKind × Option String)
  roles : String → Option Bool
  users : String → Option Bool
  sensitivities : String → Option (Bool × Option String)
  categories : String → Option (CategoryKind × Option String)
  commons : String → Option (List String)
  classes : String → Option ClassNames
  classPermissions : String → Option Unit
  booleans : String → Option Bool
  sids : String → Option Unit
  levels : String → Option Unit
  ranges : String → Option Unit
  contexts : String → Option Unit
  addresses : String → Option IpAddress
  extendedSets : String → Option Unit

namespace Skeleton

def names (k : Skeleton) : Names where
  types name := (k.types.look name).map fun t => (t.1, t.2.map k.types.nameOf)
  roles := k.roles.look
  users := k.users.look
  sensitivities name := (k.sensitivities.look name).map fun s => (s.1, s.2.map k.sensitivities.nameOf)
  categories name := (k.categories.look name).map fun c => (c.1, c.2.map k.categories.nameOf)
  commons name := (k.commons.look name).map (·.names)
  classes name := (k.classes.look name).map fun c => ⟨c.isMap, c.permissions.names, c.common.map k.commons.nameOf⟩
  classPermissions := k.classPermissions.look
  booleans := k.booleans.look
  sids := k.sids.look
  levels := k.levels.look
  ranges := k.ranges.look
  contexts := k.contexts.look
  addresses := k.addresses.look
  extendedSets := k.extendedSets.look

/-- Names are names of one declaration only, and aliases and commons are declared. -/
structure Sound (k : Skeleton) : Prop where
  types : k.types.Distinct
  roles : k.roles.Distinct
  users : k.users.Distinct
  sensitivities : k.sensitivities.Distinct
  categories : k.categories.Distinct
  commons : k.commons.Distinct
  classes : k.classes.Distinct
  permissions : k.classes.All (·.permissions.Distinct)
  classPermissions : k.classPermissions.Distinct
  sids : k.sids.Distinct
  levels : k.levels.Distinct
  ranges : k.ranges.Distinct
  contexts : k.contexts.Distinct
  extendedSets : k.extendedSets.Distinct
  typeActual : k.types.All fun t => ∀ a ∈ t.2, a < k.types.size
  sensitivityActual : k.sensitivities.All fun s => ∀ a ∈ s.2, a < k.sensitivities.size
  categoryActual : k.categories.All fun c => ∀ a ∈ c.2, a < k.categories.size
  common : k.classes.All fun c => ∀ a ∈ c.common, a < k.commons.size

/-! ### References by name -/

/-- The name of a permission by its number in the class. -/
def permissionName (k : Skeleton) (cls : Id) (permission : Nat) : String :=
  match k.classes.value? cls with
  | none => ""
  | some c =>
    let common := (c.common.bind k.commons.value?).getD {}
    if permission < common.size then common.nameOf permission
    else c.permissions.nameOf (permission - common.size)

def classPerms (k : Skeleton) : ClassPerms Id → ClassPerms String
  | .named id => .named (k.classPermissions.nameOf id)
  | .given cls permissions => .given (k.classes.nameOf cls) (permissions.map (k.permissionName cls))

def levelSpec (k : Skeleton) (l : LevelSpec Id) : LevelSpec String :=
  ⟨k.sensitivities.nameOf l.sensitivity, l.categories.map (·.map k.categories.nameOf)⟩

def levelArg (k : Skeleton) : LevelArg Id → LevelArg String
  | .named id => .named (k.levels.nameOf id)
  | .given spec => .given (k.levelSpec spec)

def rangeSpec (k : Skeleton) (r : RangeSpec Id) : RangeSpec String :=
  ⟨k.levelArg r.low, k.levelArg r.high⟩

def rangeArg (k : Skeleton) : RangeArg Id → RangeArg String
  | .named id => .named (k.ranges.nameOf id)
  | .given spec => .given (k.rangeSpec spec)

def contextSpec (k : Skeleton) (c : ContextSpec Id) : ContextSpec String :=
  ⟨k.users.nameOf c.user, k.roles.nameOf c.role, k.types.nameOf c.type, k.rangeArg c.range⟩

def contextArg (k : Skeleton) : ContextArg Id → ContextArg String
  | .named id => .named (k.contexts.nameOf id)
  | .given spec => .given (k.contextSpec spec)

def extendedSpec (k : Skeleton) (x : ExtendedSpec Id BitSet) : ExtendedSpec String BitSet :=
  ⟨k.classes.nameOf x.cls, x.numbers⟩

def extendedArg (k : Skeleton) : ExtendedArg Id BitSet → ExtendedArg String BitSet
  | .named id => .named (k.extendedSets.nameOf id)
  | .given spec => .given (k.extendedSpec spec)

end Skeleton

/-! ### Rules by name -/

/-- What a rule is aimed at: a type, or each source type itself. -/
inductive NamedTarget where
  | type (name : String)
  | self
deriving DecidableEq, Repr

/-- A rule whose declarations are named. -/
inductive NamedRule where
  | access (kind : AccessKind) (source : String) (target : NamedTarget) (permissions : ClassPerms String)
  | extended (kind : AccessKind) (source : String) (target : NamedTarget)
      (permissions : ExtendedArg String BitSet)
  | type (kind : TypeRuleKind) (source : String) (target : NamedTarget) (cls result : String)
  | namedTransition (source : String) (target : NamedTarget) (cls name result : String)
  | roleTransition (source target cls result : String)
  | roleAllow (source target : String)
  | rangeTransition (source target cls : String) (range : RangeArg String)
deriving DecidableEq, Repr

structure PlacedNamedRule where
  location : Location
  rule : NamedRule
deriving DecidableEq, Repr

structure NamedBlock where
  location : Location
  kind : BranchKind
  rules : List PlacedNamedRule
deriving DecidableEq, Repr

structure NamedConditional where
  location : Location
  condition : Expr String
  blocks : List NamedBlock
deriving DecidableEq, Repr

namespace Skeleton

def target (k : Skeleton) : RuleTarget → NamedTarget
  | .type id => .type (k.types.nameOf id)
  | .self => .self

def rule (k : Skeleton) : Rule → NamedRule
  | .access kind source target permissions =>
    .access kind (k.types.nameOf source) (k.target target) (k.classPerms permissions)
  | .extended kind source target permissions =>
    .extended kind (k.types.nameOf source) (k.target target) (k.extendedArg permissions)
  | .type kind source target cls result =>
    .type kind (k.types.nameOf source) (k.target target) (k.classes.nameOf cls) (k.types.nameOf result)
  | .namedTransition source target cls name result =>
    .namedTransition (k.types.nameOf source) (k.target target) (k.classes.nameOf cls) name (k.types.nameOf result)
  | .roleTransition source target cls result =>
    .roleTransition (k.roles.nameOf source) (k.types.nameOf target) (k.classes.nameOf cls) (k.roles.nameOf result)
  | .roleAllow source target => .roleAllow (k.roles.nameOf source) (k.roles.nameOf target)
  | .rangeTransition source target cls range =>
    .rangeTransition (k.types.nameOf source) (k.types.nameOf target) (k.classes.nameOf cls) (k.rangeArg range)

def placedRule (k : Skeleton) (r : PlacedRule) : PlacedNamedRule :=
  ⟨r.location, k.rule r.rule⟩

def block (k : Skeleton) (b : Block) : NamedBlock :=
  ⟨b.location, b.kind, b.rules.map k.placedRule⟩

def conditional (k : Skeleton) (c : Conditional) : NamedConditional :=
  ⟨c.location, c.condition.map k.booleans.nameOf, c.blocks.map k.block⟩

def label {σ : Type} (k : Skeleton) (l : Label σ (ContextArg Id)) : Label σ (ContextArg String) :=
  ⟨l.location, l.selector, k.contextArg l.context⟩

end Skeleton

end CilPolicy
