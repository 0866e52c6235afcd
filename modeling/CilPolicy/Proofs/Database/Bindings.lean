import CilPolicy.Proofs.Database.Declared

/-!
# Aliases and commons in any order

The second pass binds aliases and commons, each once. What they are bound to does not depend on
the order of the statements, and what aliases stand for in the end does not either: the walk
along a chain of aliases takes the same steps, whatever the numbers of the declarations are.
-/

namespace CilPolicy

namespace Registry

variable {α β : Type} {r : Registry α} {facts : α → List β} {f : α → α} {id : Id} {name : String}

theorem nameOf_modify (n : Id) : (r.modify id f).nameOf n = r.nameOf n := by
  rw [← nameOf_outline (fun _ => ()), outline_modify_unit, nameOf_outline]

/-- A change that does not show leaves what is found. -/
theorem look_map_modify {g : α → β} (kept : ∀ v, r.value? id = some v → g (f v) = g v) (other : String) :
    ((r.modify id f).look other).map g = (r.look other).map g := by
  rw [← look_outline, ← look_outline, outline_modify_at kept]

theorem tell_modify (kept : ∀ v, r.value? id = some v → facts (f v) = facts v) (other : String) :
    (r.modify id f).tell facts other = r.tell facts other := by
  rw [tell, tell, look_map_modify kept]

/-- The name that the declaration with the name is bound to. -/
def bound {γ : Type} (r : Registry α) (actual : α → Option Id) (targets : Registry γ) (name : String) :
    Option String :=
  ((r.look name).bind actual).map targets.nameOf

variable {γ : Type} {actual : α → Option Id} {targets : Registry γ} {v : α}

theorem Distinct.bound_eq (distinct : r.Distinct) (named : r.Named id name) (value : r.value? id = some v) :
    r.bound actual targets name = (actual v).map targets.nameOf := by
  rw [bound, distinct.look_eq named, value, Option.bind_some]

theorem Distinct.bound_modify_self (distinct : r.Distinct) (named : r.Named id name) (value : r.value? id = some v) :
    (r.modify id f).bound actual targets name = (actual (f v)).map targets.nameOf := by
  rw [bound, distinct.look_modify named f, if_pos rfl, distinct.look_eq named, value, Option.map_some,
    Option.bind_some]

theorem Distinct.bound_modify_other (distinct : r.Distinct) (named : r.Named id name) {other : String}
    (differ : other ≠ name) : (r.modify id f).bound actual targets other = r.bound actual targets other := by
  rw [bound, distinct.look_modify named f, if_neg differ, bound]

/-- A declaration is bound to one that is there. -/
theorem all_bound (linked : r.All fun v => ∀ a ∈ actual v, a < r.size) {target : Nat} (inside : target < r.size)
    (changed : ∀ v, actual (f v) = some target) :
    (r.modify id f).All fun v => ∀ a ∈ actual v, a < (r.modify id f).size := by
  rw [size_modify]
  refine linked.modify fun v _ _ a ha => ?_
  rw [changed] at ha
  cases ha
  exact inside

theorem length_names : r.names.length = r.size := by
  rw [names, List.length_map, toList, Array.length_toList, size]

theorem bound_targets (n : Id) (g : γ → γ) : r.bound actual (targets.modify n g) name = r.bound actual targets name :=
  congrArg (Option.map · _) (funext nameOf_modify)

end Registry

/-! ### Bindings -/

/-- The declaration as an alias of another. -/
def TypeInfo.standFor (actual : Id) (t : TypeInfo) : TypeInfo :=
  { t with actual := some actual }

def SensitivityInfo.standFor (actual : Id) (s : SensitivityInfo) : SensitivityInfo :=
  { s with actual := some actual }

def CategoryInfo.standFor (actual : Id) (c : CategoryInfo) : CategoryInfo :=
  { c with actual := some actual }

/-- What is bound to something else. -/
inductive BindingKind where
  | type
  | sensitivity
  | category
  /-- A class, to its common. -/
  | cls
deriving DecidableEq, Repr

/-- A binding of a kind, under the name that is bound. -/
abbrev BindingTopic : Type :=
  BindingKind × String

/-- The name that something is bound to. -/
abbrev BindingTopic.Fact (_ : BindingTopic) : Type :=
  String

abbrev BindingNote : Type :=
  Note BindingTopic.Fact

/-- Everything is bound once. -/
def BindingTopic.keeping : (topic : BindingTopic) → Keeping topic.Fact :=
  fun _ => .one fun _ => false

theorem BindingTopic.keeping_ne_latest (topic : BindingTopic) : topic.keeping ≠ .latest := by
  rintro ⟨⟩

namespace Database

open Resolve

/-- The name that something is bound to. -/
def binding (db : Database) (name : String) : BindingKind → Option String
  | .type => db.types.bound (·.actual) db.types name
  | .sensitivity => db.sensitivities.bound (·.actual) db.sensitivities name
  | .category => db.categories.bound (·.actual) db.categories name
  | .cls => db.classes.bound (·.common) db.commons name

def bindings (db : Database) : Board BindingTopic.Fact :=
  fun topic => (db.binding topic.2 topic.1).toList

/-- The declarations are as they were entered, and only bindings are added. -/
structure Binding (declarations : (kind : RegistryKind) → String → Option kind.Fact) (db : Database) : Prop where
  unsaid : ∀ (k : Skeleton) topic, k.said db topic = []
  sound : db.skeleton.Sound
  declarations : db.declaration = declarations

/-- What a clause binds. -/
def clauseBinds (declarations : (kind : RegistryKind) → String → Option kind.Fact) :
    Clause → Except Unit (List BindingNote)
  | .bindAlias .type aliasName actual => do
    let kind ← need (declarations .type aliasName)
    require (kind == .aliasName)
    let kind ← need (declarations .type actual)
    require (kind != .attr)
    return [⟨(.type, aliasName), actual⟩]
  | .bindAlias .sensitivity aliasName actual => do
    let isAlias ← need (declarations .sensitivity aliasName)
    require isAlias
    let _ ← need (declarations .sensitivity actual)
    return [⟨(.sensitivity, aliasName), actual⟩]
  | .bindAlias .category aliasName actual => do
    let kind ← need (declarations .category aliasName)
    require (kind == .aliasName)
    let kind ← need (declarations .category actual)
    require (kind != .set)
    return [⟨(.category, aliasName), actual⟩]
  | .classCommon cls common => do
    let c ← need (declarations .cls cls)
    require !c.1
    let shared ← need (declarations .common common)
    require (shared.length + c.2.length ≤ maxPermissions)
    return [⟨(.cls, cls), common⟩]
  | _ => .ok []

/-- What a statement binds. -/
def binds (declarations : (kind : RegistryKind) → String → Option kind.Fact) :
    Statement → Except Unit (List BindingNote)
  | .plain _ clause => clauseBinds declarations clause
  | .conditional .. => .ok []

variable {declarations : (kind : RegistryKind) → String → Option kind.Fact} {db : Database} {site : Citation}

/-- The second pass adds to what is bound. -/
abbrev Binds (declarations : (kind : RegistryKind) → String → Option kind.Fact) (db : Database)
    (result : Except Diagnostic Database) (notes : Except Unit (List BindingNote)) : Prop :=
  Board.Records BindingTopic.keeping (Binding declarations) bindings db result notes

/-- One more declaration is bound, and nothing else is known of any. -/
theorem binds_modify {α β : Type} (held : db.Binding db.declaration) {db' : Database} {r : Registry α}
    {targets : Registry β} {actual : α → Option Id} {f : α → α} {id target : Id} {v : α}
    {kind : BindingKind} {name actualName : String}
    (distinct : r.Distinct) (named : r.Named id name) (value : r.value? id = some v)
    (namedTarget : targets.Named target actualName) (changed : actual (f v) = some target)
    (unsaid : ∀ k topic, Skeleton.said k db' topic = k.said db topic) (sound : db'.skeleton.Sound)
    (declared : db'.declaration = db.declaration) (before : (db.binding · kind) = r.bound actual targets)
    (after : (db'.binding · kind) = (r.modify id f).bound actual targets)
    (others : ∀ other name, other ≠ kind → db'.binding name other = db.binding name other)
    (free : (BindingTopic.keeping (kind, name)).add (db.bindings (kind, name)) actualName = .ok [actualName]) :
    Binds db.declaration db (.ok db') (.ok [⟨(kind, name), actualName⟩]) := by
  refine Board.records_note ⟨fun k topic => (unsaid k topic).trans (held.unsaid k topic), sound, declared⟩ ?_ ?_
  · refine free.trans (congrArg Except.ok ?_)
    have bound : db'.binding name kind = some actualName := by
      rw [congrFun after name, distinct.bound_modify_self named value, changed, Option.map_some, namedTarget.nameOf]
    rw [bindings, bound]
    rfl
  · rintro ⟨other, name'⟩ differ
    refine congrArg Option.toList ?_
    by_cases same : other = kind
    · subst same
      have apart : name' ≠ name := fun same => differ (congrArg _ same)
      exact (congrFun after name').trans
        ((distinct.bound_modify_other named apart).trans (congrFun before name').symm)
    · exact others other name' same

/-! What is bound is bound to something declared. -/

section Inside

variable (held : db.Binding declarations)

include held

theorem Binding.inside_types : db.types.All fun t => ∀ a ∈ t.actual, a < db.types.size := by
  have linked := held.sound.typeActual
  simpa only [skeleton, Registry.size_outline, Registry.all_outline, TypeInfo.link] using linked

theorem Binding.inside_sensitivities : db.sensitivities.All fun s => ∀ a ∈ s.actual, a < db.sensitivities.size := by
  have linked := held.sound.sensitivityActual
  simpa only [skeleton, Registry.size_outline, Registry.all_outline, SensitivityInfo.link] using linked

theorem Binding.inside_categories : db.categories.All fun c => ∀ a ∈ c.actual, a < db.categories.size := by
  have linked := held.sound.categoryActual
  simpa only [skeleton, Registry.size_outline, Registry.all_outline, CategoryInfo.link] using linked

end Inside

section Alias

variable (held : db.Binding db.declaration) {id target : Id} {aliasName actual : String}

include held

/-- One more type alias is bound. -/
theorem binds_modify_type {t : TypeInfo} (named : db.types.Named id aliasName) (value : db.types.value? id = some t)
    (namedTarget : db.types.Named target actual)
    (free : (BindingTopic.keeping (.type, aliasName)).add (db.bindings (.type, aliasName)) actual = .ok [actual]) :
    Binds db.declaration db (.ok { db with types := db.types.modify id (TypeInfo.standFor target) })
      (.ok [⟨(.type, aliasName), actual⟩]) := by
  have distinct := (Registry.distinct_outline _).mp held.sound.types
  refine binds_modify (f := TypeInfo.standFor target) held distinct named value namedTarget rfl ?_ ?_ ?_
    rfl ?_ ?_ free
  · intro k topic
    cases topic with
    | type name part => exact Registry.tell_modify (fun _ _ => by cases part <;> rfl) name
    | _ => rfl
  · exact { held.sound with
      types := (Registry.distinct_outline _).mpr (distinct.modify id _)
      typeActual := by
        have inside : Registry.All (db.types.modify id (TypeInfo.standFor target)) _ :=
          Registry.all_bound held.inside_types namedTarget.lt fun _ => rfl
        rw [← Registry.size_outline TypeInfo.link] at inside
        exact (Registry.all_outline _).mpr inside }
  · funext kind name
    cases kind with
    | type => exact Registry.look_map_modify (fun _ _ => by rfl) name
    | _ => rfl
  · exact funext fun name => Registry.bound_targets _ _
  · intro other name differ
    cases other <;> first | rfl | exact absurd rfl differ

/-- One more sensitivity alias is bound. -/
theorem binds_modify_sensitivity {s : SensitivityInfo} (named : db.sensitivities.Named id aliasName)
    (value : db.sensitivities.value? id = some s) (namedTarget : db.sensitivities.Named target actual)
    (free : (BindingTopic.keeping (.sensitivity, aliasName)).add (db.bindings (.sensitivity, aliasName)) actual =
      .ok [actual]) :
    Binds db.declaration db
      (.ok { db with sensitivities := db.sensitivities.modify id (SensitivityInfo.standFor target) })
      (.ok [⟨(.sensitivity, aliasName), actual⟩]) := by
  have distinct := (Registry.distinct_outline _).mp held.sound.sensitivities
  refine binds_modify (f := SensitivityInfo.standFor target) held distinct named value namedTarget rfl ?_ ?_ ?_
    rfl ?_ ?_ free
  · intro k topic
    cases topic with
    | sensitivity name => exact Registry.tell_modify (fun _ _ => by rfl) name
    | _ => rfl
  · exact { held.sound with
      sensitivities := (Registry.distinct_outline _).mpr (distinct.modify id _)
      sensitivityActual := by
        have inside : Registry.All (db.sensitivities.modify id (SensitivityInfo.standFor target)) _ :=
          Registry.all_bound held.inside_sensitivities namedTarget.lt fun _ => rfl
        rw [← Registry.size_outline SensitivityInfo.link] at inside
        exact (Registry.all_outline _).mpr inside }
  · funext kind name
    cases kind with
    | sensitivity => exact Registry.look_map_modify (fun _ _ => by rfl) name
    | _ => rfl
  · exact funext fun name => Registry.bound_targets _ _
  · intro other name differ
    cases other <;> first | rfl | exact absurd rfl differ

/-- One more category alias is bound. -/
theorem binds_modify_category {c : CategoryInfo} (named : db.categories.Named id aliasName)
    (value : db.categories.value? id = some c) (namedTarget : db.categories.Named target actual)
    (free : (BindingTopic.keeping (.category, aliasName)).add (db.bindings (.category, aliasName)) actual =
      .ok [actual]) :
    Binds db.declaration db
      (.ok { db with categories := db.categories.modify id (CategoryInfo.standFor target) })
      (.ok [⟨(.category, aliasName), actual⟩]) := by
  have distinct := (Registry.distinct_outline _).mp held.sound.categories
  refine binds_modify (f := CategoryInfo.standFor target) held distinct named value namedTarget rfl ?_ ?_ ?_
    rfl ?_ ?_ free
  · intro k topic
    cases topic with
    | category name => exact Registry.tell_modify (fun _ _ => by rfl) name
    | _ => rfl
  · exact { held.sound with
      categories := (Registry.distinct_outline _).mpr (distinct.modify id _)
      categoryActual := by
        have inside : Registry.All (db.categories.modify id (CategoryInfo.standFor target)) _ :=
          Registry.all_bound held.inside_categories namedTarget.lt fun _ => rfl
        rw [← Registry.size_outline CategoryInfo.link] at inside
        exact (Registry.all_outline _).mpr inside }
  · funext kind name
    cases kind with
    | category => exact Registry.look_map_modify (fun _ _ => by rfl) name
    | _ => rfl
  · exact funext fun name => Registry.bound_targets _ _
  · intro other name differ
    cases other <;> first | rfl | exact absurd rfl differ

end Alias

theorem binds_type (held : db.Binding db.declaration) (aliasName actual : String) :
    Binds db.declaration db (db.bindType aliasName actual site)
      (clauseBinds db.declaration (.bindAlias .type aliasName actual)) := by
  refine records_bind (tells_find (r := db.types) TypeInfo.kind) ?_
  rintro ⟨id, info⟩ _ ⟨named, value, rfl⟩
  refine records_check ⟨_, rfl⟩ (by simp [TypeInfo.isAlias]) ?_
  refine records_bind (tells_find (r := db.types) TypeInfo.kind) ?_
  rintro ⟨target, info'⟩ _ ⟨namedTarget, value', rfl⟩
  refine records_check ⟨_, rfl⟩ (by simp [TypeInfo.isAttribute]) ?_
  have distinct := (Registry.distinct_outline _).mp held.sound.types
  have told : db.bindings (.type, aliasName) = (info.actual.map db.types.nameOf).toList :=
    congrArg Option.toList (distinct.bound_eq named value)
  refine records_once ⟨_, rfl⟩ rfl told (by simp) fun free => ?_
  exact binds_modify_type held named value namedTarget (told ▸ free)

theorem binds_sensitivity (held : db.Binding db.declaration) (aliasName actual : String) :
    Binds db.declaration db (db.bindSensitivity aliasName actual site)
      (clauseBinds db.declaration (.bindAlias .sensitivity aliasName actual)) := by
  refine records_bind (tells_find (r := db.sensitivities) SensitivityInfo.isAlias) ?_
  rintro ⟨id, info⟩ _ ⟨named, value, rfl⟩
  refine records_check ⟨_, rfl⟩ (by simp) ?_
  have found : Tells _ (findId db.sensitivities "sensitivity" actual site) _ := tells_findId SensitivityInfo.isAlias
  rw [Registry.look_outline] at found
  refine records_bind found ?_
  intro target _ namedTarget
  have distinct := (Registry.distinct_outline _).mp held.sound.sensitivities
  have told : db.bindings (.sensitivity, aliasName) = (info.actual.map db.sensitivities.nameOf).toList :=
    congrArg Option.toList (distinct.bound_eq named value)
  refine records_once ⟨_, rfl⟩ rfl told (by simp) fun free => ?_
  exact binds_modify_sensitivity held named value namedTarget (told ▸ free)

theorem binds_category (held : db.Binding db.declaration) (aliasName actual : String) :
    Binds db.declaration db (db.bindCategory aliasName actual site)
      (clauseBinds db.declaration (.bindAlias .category aliasName actual)) := by
  refine records_bind (tells_find (r := db.categories) CategoryInfo.kind) ?_
  rintro ⟨id, info⟩ _ ⟨named, value, rfl⟩
  refine records_check ⟨_, rfl⟩ (by simp) ?_
  refine records_bind (tells_find (r := db.categories) CategoryInfo.kind) ?_
  rintro ⟨target, info'⟩ _ ⟨namedTarget, value', rfl⟩
  refine records_check ⟨_, rfl⟩ (by simp) ?_
  have distinct := (Registry.distinct_outline _).mp held.sound.categories
  have told : db.bindings (.category, aliasName) = (info.actual.map db.categories.nameOf).toList :=
    congrArg Option.toList (distinct.bound_eq named value)
  refine records_once ⟨_, rfl⟩ rfl told (by simp) fun free => ?_
  exact binds_modify_category held named value namedTarget (told ▸ free)

/-- A class gets a common. -/
theorem binds_modify_class (held : db.Binding db.declaration) {id target : Id} {cls common : String}
    {info : ClassInfo} (named : db.classes.Named id cls) (value : db.classes.value? id = some info)
    (namedTarget : db.commons.Named target common)
    (free : (BindingTopic.keeping (.cls, cls)).add (db.bindings (.cls, cls)) common = .ok [common]) :
    Binds db.declaration db
      (.ok { db with classes := db.classes.modify id fun _ => { info with common := some target } })
      (.ok [⟨(.cls, cls), common⟩]) := by
  have distinct := (Registry.distinct_outline _).mp held.sound.classes
  refine binds_modify (f := fun _ => { info with common := some target }) held distinct named value namedTarget
    rfl ?_ ?_ ?_ rfl rfl ?_ free
  · intro k topic
    cases topic with
    | cls name part =>
      refine Registry.tell_modify (fun v known => ?_) name
      obtain rfl := Option.some.inj (value.symm.trans known)
      cases part with
      | default kind => cases kind <;> rfl
      | _ => rfl
    | _ => rfl
  · have permissions := (Registry.all_outline _).mp held.sound.permissions
    have commons := (Registry.all_outline _).mp held.sound.common
    exact { held.sound with
      classes := (Registry.distinct_outline _).mpr (distinct.modify id _)
      permissions := (Registry.all_outline _).mpr (permissions.modify fun _ _ _ => permissions id info value)
      common := (Registry.all_outline _).mpr (commons.modify fun _ _ _ a ha => by
        cases ha
        exact namedTarget.lt) }
  · funext kind name
    cases kind with
    | cls =>
      have kept : ((db.classes.modify id fun _ => { info with common := some target }).look name).map
          (fun c => (c.isMap, c.permissions.names)) =
            (db.classes.look name).map fun c => (c.isMap, c.permissions.names) := by
        refine Registry.look_map_modify (fun v known => ?_) name
        rw [Option.some.inj (value.symm.trans known)]
      exact kept
    | _ => rfl
  · intro other name differ
    cases other <;> first | rfl | exact absurd rfl differ

theorem binds_common (held : db.Binding db.declaration) (cls common : String) :
    Binds db.declaration db (db.bindCommon cls common site)
      (clauseBinds db.declaration (.classCommon cls common)) := by
  have distinct := (Registry.distinct_outline _).mp held.sound.classes
  refine records_bind (tells_find (r := db.classes) fun c => (c.isMap, c.permissions.names)) ?_
  rintro ⟨id, info⟩ _ ⟨named, value, rfl⟩
  refine records_check ⟨_, rfl⟩ (by simp) ?_
  have found : Tells (fun target shared => ∃ own, db.commons.Named target common ∧
      db.commons.value? target = some own ∧ shared = own.names)
      (findId db.commons "common" common site) (need (db.declaration .common common)) :=
    Tells.map_left ((tells_find Registry.names).mono fun x _ h => ⟨x.2, h⟩)
  refine records_bind found ?_
  rintro target _ ⟨own, namedTarget, shared, rfl⟩
  have count : db.permissionCount { info with common := some target } =
      own.names.length + info.permissions.names.length := by
    simp only [permissionCount, commonPermissions, Option.bind_some, shared, Option.getD_some, Registry.length_names]
  dsimp only
  rw [count]
  have told : db.bindings (.cls, cls) = (info.common.map db.commons.nameOf).toList :=
    congrArg Option.toList (distinct.bound_eq named value)
  by_cases fits : own.names.length + info.permissions.names.length ≤ maxPermissions
  · rw [require_ok (by simpa using fits), if_neg (Nat.not_lt.mpr fits)]
    refine records_once ⟨_, rfl⟩ rfl told (by simp) fun free => ?_
    exact binds_modify_class held named value namedTarget (told ▸ free)
  · rw [require_error (by simpa using fits), if_pos (Nat.not_le.mp fits)]
    split <;> exact rfl

/-- The second pass adds what a statement binds. -/
theorem binds_bind (held : db.Binding declarations) (s : Statement) :
    Binds declarations db (db.bind s) (binds declarations s) := by
  have same := held.declarations
  subst same
  cases s with
  | conditional => exact ⟨held, rfl⟩
  | plain location clause =>
    change Binds db.declaration db (db.bindClause clause ⟨clause.keyword, location⟩)
      (clauseBinds db.declaration clause)
    cases clause with
    | bindAlias kind aliasName actual =>
      cases kind with
      | type => exact binds_type held aliasName actual
      | sensitivity => exact binds_sensitivity held aliasName actual
      | category => exact binds_category held aliasName actual
    | classCommon cls common => exact binds_common held cls common
    | _ => exact ⟨held, rfl⟩

end Database

end CilPolicy
