import CilPolicy.Proofs.Database.Statements

/-!
# Declarations in any order

The first pass over the statements of a policy enters every declaration under its name. Which
names are declared, and what their declarations say, does not depend on the order of the
statements: a name that is taken is refused whichever statement comes first.
-/

namespace CilPolicy

/-! ### The registries of a database -/

inductive RegistryKind where
  | type
  | role
  | user
  | sensitivity
  | category
  | common
  | cls
  | classPermission
  | boolean
  | sid
  | level
  | range
  | context
  | address
  | extendedSet
deriving DecidableEq, Repr

namespace RegistryKind

/-- What is known of a declaration. -/
abbrev Info : RegistryKind → Type
  | type => TypeInfo
  | role => RoleInfo
  | user => UserInfo
  | sensitivity => SensitivityInfo
  | category => CategoryInfo
  | common => Registry Unit
  | cls => ClassInfo
  | classPermission => List (ClassPerms Id)
  | boolean => Bool
  | sid => Option (ContextArg Id)
  | level => Option (LevelSpec Id)
  | range => Option (RangeSpec Id)
  | context => Option (ContextSpec Id)
  | address => IpAddress
  | extendedSet => Option (ExtendedSpec Id BitSet)

/-- What the declaration itself says. -/
abbrev Fact : RegistryKind → Type
  | type => TypeKind
  | role | user | sensitivity | boolean => Bool
  | category => CategoryKind
  | common => List String
  | cls => Bool × List String
  | address => IpAddress
  | classPermission | sid | level | range | context | extendedSet => Unit

instance (kind : RegistryKind) : DecidableEq kind.Fact := by
  cases kind <;> exact inferInstance

def fact : (kind : RegistryKind) → kind.Info → kind.Fact
  | type => TypeInfo.kind
  | role => RoleInfo.isAttribute
  | user => UserInfo.isAttribute
  | sensitivity => SensitivityInfo.isAlias
  | category => CategoryInfo.kind
  | common => Registry.names
  | cls => fun c => (c.isMap, c.permissions.names)
  | boolean | address => id
  | classPermission | sid | level | range | context | extendedSet => fun _ => ()

/-- Nothing is known but what the declaration says. -/
def New : (kind : RegistryKind) → kind.Info → Prop
  | type, t => t = { kind := t.kind }
  | role, r => r = { isAttribute := r.isAttribute }
  | user, u => u = { isAttribute := u.isAttribute }
  | sensitivity, s => s = { isAlias := s.isAlias }
  | category, c => c = { kind := c.kind }
  | common, permissions => permissions.Distinct
  | cls, c => c = { isMap := c.isMap, permissions := c.permissions } ∧ c.permissions.Distinct ∧
    c.permissions.All (· = [])
  | classPermission, sets => sets = []
  | sid, o => o = none
  | level, o => o = none
  | range, o => o = none
  | context, o => o = none
  | extendedSet, o => o = none
  | boolean, _ | address, _ => True

end RegistryKind

namespace Database

def registry (db : Database) : (kind : RegistryKind) → Registry kind.Info
  | .type => db.types
  | .role => db.roles
  | .user => db.users
  | .sensitivity => db.sensitivities
  | .category => db.categories
  | .common => db.commons
  | .cls => db.classes
  | .classPermission => db.classPermissions
  | .boolean => db.booleans
  | .sid => db.sids
  | .level => db.levels
  | .range => db.ranges
  | .context => db.contexts
  | .address => db.addresses
  | .extendedSet => db.extendedSets

/-- The database with another registry of the kind. -/
def put (db : Database) : (kind : RegistryKind) → Registry kind.Info → Database
  | .type, types => { db with types }
  | .role, roles => { db with roles }
  | .user, users => { db with users }
  | .sensitivity, sensitivities => { db with sensitivities }
  | .category, categories => { db with categories }
  | .common, commons => { db with commons }
  | .cls, classes => { db with classes }
  | .classPermission, classPermissions => { db with classPermissions }
  | .boolean, booleans => { db with booleans }
  | .sid, sids => { db with sids }
  | .level, levels => { db with levels }
  | .range, ranges => { db with ranges }
  | .context, contexts => { db with contexts }
  | .address, addresses => { db with addresses }
  | .extendedSet, extendedSets => { db with extendedSets }

variable (db : Database) {kind : RegistryKind}

theorem registry_put_self (r : Registry kind.Info) : (db.put kind r).registry kind = r := by
  cases kind <;> rfl

theorem registry_put_other {other : RegistryKind} (differ : other ≠ kind) (r : Registry kind.Info) :
    (db.put kind r).registry other = db.registry other := by
  cases kind <;> cases other <;> first | rfl | exact absurd rfl differ

theorem pile_put (r : Registry kind.Info) (pile : Pile) : (db.put kind r).pile pile = db.pile pile := by
  cases kind <;> cases pile <;> rfl

end Database

/-! ### New declarations -/

theorem Resolve.read_bind {α : Type} {f : Citation → Resolve α} {site : Citation} :
    (read >>= f : Resolve α) site = f site site :=
  rfl

namespace Registry

variable {α : Type} {r r' : Registry α} {name : String} {location : Location} {v : α}

theorem look_isSome : (r.look name).isSome = (r.find? name).isSome := by
  rw [look]
  cases hname : r.find? name with
  | none => rfl
  | some id =>
    obtain ⟨v, hv⟩ := exists_value? (lt_of_find? hname)
    rw [Option.bind_some, hv]
    rfl

theorem declare?_eq_none : r.declare? name location v = none ↔ (r.look name).isSome := by
  rw [look_isSome, declare?]
  split <;> simp_all

theorem names_declare (h : r.declare? name location v = some r') : r'.names = r.names ++ [name] := by
  rw [declare?] at h
  split at h
  · cases h
  · cases h
    simp [names, toList]

theorem mem_names_iff : name ∈ r.names ↔ (r.look name).isSome := by
  rw [mem_names, look_isSome, Option.isSome_iff_exists]

/-- A new declaration is found under its name, the others under theirs. -/
theorem look_declare (distinct : r.Distinct) (h : r.declare? name location v = some r') (other : String) :
    r'.look other = if other = name then some v else r.look other := by
  have distinct' := distinct.declare h
  split
  · rename_i same
    subst same
    have named : r'.Named r.size other := ⟨_, by rw [get?_declare h, if_pos rfl], rfl⟩
    rw [distinct'.look_eq named, value?_declare h, if_pos rfl]
  · rename_i differ
    cases hlook : r.find? other with
    | some id =>
      obtain ⟨d, hd, named⟩ := named_of_find? hlook
      have stays : r'.Named id other := by
        refine ⟨d, ?_, named⟩
        rw [get?_declare h, if_neg, hd]
        exact Nat.ne_of_lt (lt_of_find? hlook)
      have apart : id ≠ r.size := Nat.ne_of_lt (lt_of_find? hlook)
      rw [distinct'.look_eq stays, value?_declare h, if_neg apart, distinct.look_eq ⟨d, hd, named⟩]
    | none =>
      have absent : r'.find? other = none := by
        refine Option.not_isSome_iff_eq_none.mp fun found => ?_
        obtain ⟨id, d, hd, rfl⟩ := find?_isSome.mp found
        rw [get?_declare h] at hd
        split at hd
        · cases hd
          exact differ rfl
        · have some := find?_isSome.mpr ⟨id, d, hd, rfl⟩
          rw [hlook] at some
          cases some
      rw [look, look, hlook, absent]
      rfl

end Registry

/-- A declaration of a kind under a name. -/
abbrev DeclarationTopic : Type :=
  RegistryKind × String

abbrev DeclarationTopic.Fact (topic : DeclarationTopic) : Type :=
  topic.1.Fact

abbrev DeclarationNote : Type :=
  Note DeclarationTopic.Fact

/-- A name is declared once. If declarations may be repeated, a type or type attribute may be
declared again as what it is. -/
def DeclarationTopic.keeping (repeats : Bool) : (topic : DeclarationTopic) → Keeping topic.Fact
  | (.type, _) => .one fun kind => repeats && kind != .aliasName
  | _ => .one fun _ => false

theorem DeclarationTopic.keeping_ne_latest {repeats : Bool} (topic : DeclarationTopic) :
    topic.keeping repeats ≠ .latest := by
  obtain ⟨kind, name⟩ := topic
  cases kind <;> rintro ⟨⟩

namespace Database

open Resolve

/-- The declaration with the name. -/
def declaration (db : Database) (kind : RegistryKind) (name : String) : Option kind.Fact :=
  ((db.registry kind).look name).map kind.fact

/-- What the declarations of the database say. -/
def declared (db : Database) : Board DeclarationTopic.Fact :=
  fun topic => (db.declaration topic.1 topic.2).toList

/-- Every declaration is new, under a name of its own, and nothing else is said. -/
structure Bare (db : Database) : Prop where
  distinct : ∀ kind, (db.registry kind).Distinct
  new : ∀ kind, (db.registry kind).All kind.New
  piles : ∀ pile, db.pile pile = []

theorem bare_empty : Bare {} where
  distinct kind := by
    cases kind with
    | role =>
      intro id id' d d' hd hd' _
      obtain ⟨hid, _⟩ := Array.getElem?_eq_some_iff.mp hd
      obtain ⟨hid', _⟩ := Array.getElem?_eq_some_iff.mp hd'
      exact (Nat.lt_one_iff.mp hid).trans (Nat.lt_one_iff.mp hid').symm
    | _ => exact Registry.distinct_empty
  new kind := by
    cases kind with
    | role =>
      intro id r hr
      obtain ⟨d, hd, rfl⟩ := Registry.value?_eq_some.mp hr
      obtain ⟨hid, rfl⟩ := Array.getElem?_eq_some_iff.mp hd
      obtain rfl : id = 0 := Nat.lt_one_iff.mp hid
      rfl
    | _ => exact Registry.all_empty _
  piles pile := by cases pile <;> rfl

/-- The first pass adds to what is declared. -/
abbrev Enters (repeats : Bool) (db : Database) (result : Except Diagnostic Database)
    (notes : Except Unit (List DeclarationNote)) : Prop :=
  Board.Records (DeclarationTopic.keeping repeats) Bare declared db result notes

variable {repeats : Bool} {db : Database} {site : Citation}

theorem Bare.declare {kind : RegistryKind} {name : String} {location : Location} {info : kind.Info}
    {r : Registry kind.Info} (bare : db.Bare) (new : kind.New info)
    (h : (db.registry kind).declare? name location info = some r) : (db.put kind r).Bare where
  distinct other := by
    by_cases same : other = kind
    · subst same
      rw [registry_put_self]
      exact (bare.distinct other).declare h
    · rw [registry_put_other db same]
      exact bare.distinct other
  new other := by
    by_cases same : other = kind
    · subst same
      rw [registry_put_self]
      exact (bare.new other).declare new h
    · rw [registry_put_other db same]
      exact bare.new other
  piles pile := by
    rw [pile_put]
    exact bare.piles pile

/-- What is declared after one more declaration. -/
theorem declaration_declare {kind : RegistryKind} {name : String} {location : Location} {info : kind.Info}
    {r : Registry kind.Info} (bare : db.Bare) (h : (db.registry kind).declare? name location info = some r) :
    (db.put kind r).declaration kind name = some (kind.fact info) ∧
      ∀ topic, topic ≠ (kind, name) → (db.put kind r).declared topic = db.declared topic := by
  constructor
  · rw [declaration, registry_put_self, Registry.look_declare (bare.distinct kind) h, if_pos rfl]
    rfl
  · rintro ⟨other, name'⟩ differ
    rw [declared, declared, declaration, declaration]
    by_cases same : other = kind
    · subst same
      dsimp only
      rw [registry_put_self, Registry.look_declare (bare.distinct other) h,
        if_neg fun same => differ (congrArg (Prod.mk other) same)]
    · dsimp only
      rw [registry_put_other db same]

/-- A declaration that may not be repeated. -/
theorem enters_enter (bare : db.Bare) (kind : RegistryKind) (name : String) {info : kind.Info} (new : kind.New info)
    (once : DeclarationTopic.keeping repeats (kind, name) = .one fun _ => false) :
    Enters repeats db (enter (db.registry kind) name info (db.put kind) site)
      (.ok [⟨(kind, name), kind.fact info⟩]) := by
  rw [enter, read_bind]
  cases h : (db.registry kind).declare? name site.location info with
  | none =>
    refine Board.records_refusal ?_
    have taken := Registry.declare?_eq_none.mp h
    rw [once]
    refine (Keeping.add_once (db.declaration kind name)).trans (if_pos ?_)
    rw [declaration, Option.isSome_map]
    exact taken
  | some r =>
    obtain ⟨here, others⟩ := declaration_declare bare h
    refine Board.records_note (bare.declare new h) ?_ others
    have free : (db.declaration kind name).isSome = false := by
      rw [declaration, Option.isSome_map, ← Bool.not_eq_true]
      intro taken
      rw [Registry.declare?_eq_none.mpr taken] at h
      cases h
    rw [once]
    refine (Keeping.add_once (db.declaration kind name)).trans ?_
    rw [if_neg (by simp [free]), declared, here]
    rfl

theorem enters_type (bare : db.Bare) (name : String) (kind : TypeKind) :
    Enters repeats db (db.declareType repeats name kind site) (.ok [⟨(.type, name), kind⟩]) := by
  rw [declareType, read_bind]
  cases h : db.types.declare? name site.location { kind } with
  | none =>
    obtain ⟨t, ht⟩ := Option.isSome_iff_exists.mp (Registry.declare?_eq_none.mp h)
    have told : db.declared (.type, name) = [t.kind] :=
      congrArg (fun o : Option TypeInfo => (o.map TypeInfo.kind).toList) ht
    have again : ((db.types.find? name).any fun id => db.types.test id (·.kind == kind)) = (t.kind == kind) := by
      rw [Registry.look] at ht
      obtain ⟨id, hid, hvalue⟩ := Option.bind_eq_some_iff.mp ht
      rw [hid, Option.any_some, Registry.test, hvalue, Option.any_some]
    dsimp only
    rw [again]
    split
    · rename_i fits
      refine Board.records_note bare ?_ fun _ _ => rfl
      rw [told]
      exact if_pos (by simpa [and_comm, and_assoc] using fits)
    · rename_i differs
      refine Board.records_refusal ?_
      rw [told]
      exact if_neg (by simpa [and_comm, and_assoc] using differs)
  | some types =>
    have new : RegistryKind.New .type { kind } := rfl
    have h' : (db.registry .type).declare? name site.location ({ kind } : TypeInfo) = some types := h
    obtain ⟨here, others⟩ := declaration_declare bare h'
    refine Board.records_note (bare.declare new h') ?_ others
    have free : db.declared (.type, name) = [] := by
      cases hlook : db.types.look name with
      | none => exact congrArg (fun o : Option TypeInfo => (o.map TypeInfo.kind).toList) hlook
      | some t =>
        rw [Registry.declare?_eq_none.mpr (Option.isSome_iff_exists.mpr ⟨t, hlook⟩)] at h
        cases h
    rw [free]
    exact congrArg (fun o : Option TypeKind => Except.ok o.toList) here.symm

/-! ### Permissions -/

/-- Permissions that make a class or common: not too many, and none twice. -/
def permissionsFit (owner : PermissionOwner) (permissions : List String) : Except Unit Unit := do
  require !(owner != .map && maxPermissions < permissions.length)
  require permissions.Nodup

theorem tells_permissions {α : Type} {value : α} (permissions : List String) (r : Registry α)
    (distinct : r.Distinct) (all : r.All (· = value)) (unique : r.names.Nodup) :
    Tells (fun r' _ => r'.names = r.names ++ permissions ∧ r'.Distinct ∧ r'.All (· = value))
      ((permissions.foldlM (fun (r : Registry α) permission =>
        match r.declare? permission site.location value with
        | some r => pure r
        | none => redeclared "permission" permission) r : Resolve (Registry α)) site)
      (require (r.names ++ permissions).Nodup) := by
  induction permissions generalizing r with
  | nil =>
    rw [List.append_nil, require, if_pos (by simpa using unique)]
    exact ⟨rfl, distinct, all⟩
  | cons permission rest ih =>
    rw [List.foldlM_cons]
    cases h : r.declare? permission site.location value with
    | none =>
      have taken := Registry.mem_names_iff.mpr (Registry.declare?_eq_none.mp h)
      have twice : ¬ (r.names ++ permission :: rest).Nodup := fun unique' =>
        (List.nodup_append.mp unique').2.2 _ taken _ List.mem_cons_self rfl
      rw [require, if_neg (by simpa using twice)]
      exact True.intro
    | some r' =>
      have grown := Registry.names_declare h
      have fresh : permission ∉ r.names := fun taken => by
        rw [Registry.declare?_eq_none.mpr (Registry.mem_names_iff.mp taken)] at h
        cases h
      have more := ih r' (distinct.declare h) (all.declare rfl h) (by
        rw [grown, List.nodup_append]
        refine ⟨unique, by simp, fun a ha b hb same => fresh ?_⟩
        rwa [← List.mem_singleton.mp hb, ← same])
      rw [grown, List.append_assoc, List.singleton_append] at more
      exact more

/-- The permissions of a class or common, each without content. -/
theorem tells_permissionRegistry {α : Type} {value : α} (owner : PermissionOwner) (name : String)
    (permissions : List String) :
    Tells (fun r _ => r.names = permissions ∧ r.Distinct ∧ r.All (· = value))
      (permissionRegistry owner name permissions value site) (permissionsFit owner permissions) := by
  rw [permissionRegistry, permissionsFit]
  split
  · rename_i exceeds
    rw [require, if_neg (by simpa using exceeds)]
    exact True.intro
  · rename_i fits
    rw [require, if_pos (by simpa [or_iff_not_imp_left] using fits)]
    exact tells_permissions permissions {} Registry.distinct_empty (Registry.all_empty _) List.nodup_nil

/-! ### The declarations of a statement -/

/-- Only rules stand inside a conditional. -/
def placed : Statement → Except Unit Unit
  | .plain .. => .ok ()
  | .conditional _ _ branches => require ((branches.flatMap (·.body)).all isConditionalRule)

def declarationNote (name : String) : Declaration → DeclarationNote
  | .entity .type => ⟨(.type, name), TypeKind.concrete⟩
  | .attr .type => ⟨(.type, name), TypeKind.attr⟩
  | .aliasName .type => ⟨(.type, name), TypeKind.aliasName⟩
  | .entity .role => ⟨(.role, name), false⟩
  | .attr .role => ⟨(.role, name), true⟩
  | .entity .user => ⟨(.user, name), false⟩
  | .attr .user => ⟨(.user, name), true⟩
  | .classPermission => ⟨(.classPermission, name), ()⟩
  | .sensitivity => ⟨(.sensitivity, name), false⟩
  | .aliasName .sensitivity => ⟨(.sensitivity, name), true⟩
  | .category => ⟨(.category, name), CategoryKind.category⟩
  | .aliasName .category => ⟨(.category, name), CategoryKind.aliasName⟩
  | .sid => ⟨(.sid, name), ()⟩

/-- What a clause declares. -/
def clauseDeclares : Clause → Except Unit (List DeclarationNote)
  | .declare what name => .ok [declarationNote name what]
  | .permissions .common name permissions => do
    permissionsFit .common permissions
    return [⟨(.common, name), permissions⟩]
  | .permissions owner name permissions => do
    permissionsFit owner permissions
    return [⟨(.cls, name), (owner == .map, permissions)⟩]
  | .categorySet name _ => .ok [⟨(.category, name), CategoryKind.set⟩]
  | .level name _ => .ok [⟨(.level, name), ()⟩]
  | .levelRange name _ => .ok [⟨(.range, name), ()⟩]
  | .context name _ => .ok [⟨(.context, name), ()⟩]
  | .extendedSet name _ => .ok [⟨(.extendedSet, name), ()⟩]
  | .address name address => .ok [⟨(.address, name), address⟩]
  | .boolean name value => .ok [⟨(.boolean, name), value⟩]
  | _ => .ok []

/-- What a statement declares. -/
def declares (s : Statement) : Except Unit (List DeclarationNote) := do
  placed s
  match s with
  | .plain _ clause => clauseDeclares clause
  | .conditional .. => return []

theorem tells_checkPlacement (s : Statement) : Tells (fun _ _ => True) (checkPlacement s) (placed s) := by
  cases s with
  | plain => exact True.intro
  | conditional location condition branches =>
    rw [checkPlacement, placed]
    induction branches.flatMap (·.body) with
    | nil => exact True.intro
    | cons first rest ih =>
      rw [List.forM, List.all_cons]
      cases isConditionalRule first with
      | true => exact ih
      | false => exact True.intro

theorem enters_clause (bare : db.Bare) (clause : Clause) :
    Enters repeats db (db.declareClause repeats clause site) (clauseDeclares clause) := by
  cases clause with
  | declare what name =>
    cases what with
    | entity kind =>
      cases kind with
      | type => exact enters_type bare name .concrete
      | role => exact enters_enter bare .role name rfl rfl
      | user => exact enters_enter bare .user name rfl rfl
    | attr kind =>
      cases kind with
      | type => exact enters_type bare name .attr
      | role => exact enters_enter bare .role name rfl rfl
      | user => exact enters_enter bare .user name rfl rfl
    | aliasName kind =>
      cases kind with
      | type => exact enters_type bare name .aliasName
      | sensitivity => exact enters_enter bare .sensitivity name rfl rfl
      | category => exact enters_enter bare .category name rfl rfl
    | classPermission => exact enters_enter bare .classPermission name rfl rfl
    | sensitivity => exact enters_enter bare .sensitivity name rfl rfl
    | category => exact enters_enter bare .category name rfl rfl
    | sid => exact enters_enter bare .sid name rfl rfl
  | permissions owner name permissions =>
    cases owner with
    | common =>
      refine Board.records_of_tells (tells_permissionRegistry .common name permissions) ?_
      rintro own _ ⟨rfl, distinct, -⟩
      exact enters_enter bare .common name distinct rfl
    | cls =>
      refine Board.records_of_tells (tells_permissionRegistry .cls name permissions) ?_
      rintro own _ ⟨rfl, distinct, blank⟩
      exact enters_enter bare .cls name ⟨rfl, distinct, blank⟩ rfl
    | map =>
      refine Board.records_of_tells (tells_permissionRegistry .map name permissions) ?_
      rintro own _ ⟨rfl, distinct, blank⟩
      exact enters_enter bare .cls name ⟨rfl, distinct, blank⟩ rfl
  | categorySet name => exact enters_enter bare .category name rfl rfl
  | level name => exact enters_enter bare .level name rfl rfl
  | levelRange name => exact enters_enter bare .range name rfl rfl
  | context name => exact enters_enter bare .context name rfl rfl
  | extendedSet name => exact enters_enter bare .extendedSet name rfl rfl
  | address name address => exact enters_enter bare .address name True.intro rfl
  | boolean name value => exact enters_enter bare .boolean name True.intro rfl
  | _ => exact ⟨bare, rfl⟩

/-- The first pass adds what a statement declares. -/
theorem enters_declare (bare : db.Bare) (s : Statement) : Enters repeats db (db.declare repeats s) (declares s) := by
  refine Board.records_of_tells (tells_checkPlacement s) ?_
  rintro _ _ -
  cases s with
  | plain location clause => exact enters_clause bare clause
  | conditional => exact ⟨bare, rfl⟩

end Database

end CilPolicy
