import CilPolicy.Database.Resolve
import CilPolicy.Proofs.Database.Registry
import CilPolicy.Proofs.Report

/-!
# What the first two passes leave

Declarations enter their registries without content, and the second pass binds
aliases and commons only. After both, no kernel class has more permissions than a
word has bits, and every sensitivity leads to one that is no alias.
-/

namespace CilPolicy

namespace Resolve

variable {α β : Type} {site : Citation}

theorem bind_ok {m : Resolve α} {f : α → Resolve β} {b : β} :
    (m >>= f) site = .ok b ↔ ∃ a, m site = .ok a ∧ f a site = .ok b :=
  bind_eq_ok

theorem map_ok {m : Resolve α} {f : α → β} {b : β} :
    (f <$> m) site = .ok b ↔ ∃ a, m site = .ok a ∧ f a = b :=
  map_eq_ok

theorem pure_ok {a b : α} (h : (pure a : Resolve α) site = .ok b) : b = a := by
  cases h
  rfl

theorem foldlM_apply {step : β → α → Resolve β} {items : List α} {b : β} :
    (items.foldlM step b) site = items.foldlM (fun b a => step b a site) b := by
  induction items generalizing b with
  | nil => rfl
  | cons a rest ih =>
    rw [List.foldlM_cons, List.foldlM_cons]
    exact bind_congr fun c => ih

theorem not_violate {cause : Violation} {a : α} : (violate cause : Resolve α) site ≠ .ok a := by
  intro h
  cases h

/-- A check that refuses a statement has passed. -/
theorem check_ok {c : Prop} [Decidable c] {cause : Violation} {rest : Unit → Resolve α} {a : α}
    (h : (if c then violate cause >>= rest else rest ()) site = .ok a) :
    ¬ c ∧ rest () site = .ok a := by
  split at h
  · obtain ⟨_, refused, _⟩ := bind_ok.mp h
    exact absurd refused not_violate
  · rename_i passed
    exact ⟨passed, h⟩

theorem guard_ok {c : Prop} [Decidable c] {cause : Violation} {m : Resolve α} {a : α}
    (h : (if c then violate cause else m) site = .ok a) : ¬ c ∧ m site = .ok a := by
  split at h
  · exact absurd h not_violate
  · rename_i passed
    exact ⟨passed, h⟩

theorem not_redeclared {kind name : String} {a : α} :
    (redeclared kind name : Resolve α) site ≠ .ok a := by
  intro h
  cases h

theorem not_unresolved {kind name : String} {a : α} :
    (unresolved kind name : Resolve α) site ≠ .ok a := by
  intro h
  cases h

theorem value?_of_find {r : Registry α} {kind name : String} {id : Id} {v : α}
    (h : find r kind name site = .ok (id, v)) : r.value? id = some v := by
  rw [find] at h
  cases hname : r.find? name with
  | none =>
    rw [hname] at h
    exact absurd h not_unresolved
  | some found =>
    cases hvalue : r.value? found with
    | none =>
      simp only [hname, hvalue] at h
      exact absurd h not_unresolved
    | some w =>
      simp only [hname, hvalue] at h
      cases pure_ok h
      exact hvalue

theorem value?_of_findId {r : Registry α} {kind name : String} {id : Id}
    (h : findId r kind name site = .ok id) : ∃ v, r.value? id = some v := by
  obtain ⟨⟨found, v⟩, hfind, heq⟩ := map_ok.mp h
  exact ⟨v, heq ▸ value?_of_find hfind⟩

end Resolve

namespace Database

open Resolve

/-! ### Declarations without content -/

/-- Nothing is said of any declaration yet. -/
structure Blank (db : Database) : Prop where
  mappings : db.classes.All fun c => c.permissions.All (· = [])
  sets : db.classPermissions.All (· = [])
  extendedSets : db.extendedSets.All (· = none)
  levels : db.levels.All (· = none)
  ranges : db.ranges.All (· = none)
  contexts : db.contexts.All (· = none)
  sids : db.sids.All (· = none)
  users : db.users.All (·.range = none)
  rules : db.rules = []
  conditionals : db.conditionals = []
  labels : db.labels = {}

theorem blank_empty : Blank {} where
  mappings := Registry.all_empty _
  sets := Registry.all_empty _
  extendedSets := Registry.all_empty _
  levels := Registry.all_empty _
  ranges := Registry.all_empty _
  contexts := Registry.all_empty _
  sids := Registry.all_empty _
  users := Registry.all_empty _
  rules := rfl
  conditionals := rfl
  labels := rfl

theorem enter_ok {α : Type} {r : Registry α} {name : String} {value : α} {put : Registry α → Database}
    {site : Citation} {db : Database} (h : enter r name value put site = .ok db) :
    ∃ r', r.declare? name site.location value = some r' ∧ db = put r' := by
  rw [enter] at h
  obtain ⟨_, hread, h⟩ := bind_ok.mp h
  cases hread
  cases hr : r.declare? name site.location value with
  | none =>
    rw [hr] at h
    exact absurd h not_redeclared
  | some r' =>
    rw [hr] at h
    exact ⟨r', rfl, pure_ok h⟩

theorem declare_permissions {α : Type} {permissions : List String} {location : Location} {value : α}
    {site : Citation} {r r' : Registry α}
    (h : (permissions.foldlM (fun (r : Registry α) permission =>
      match r.declare? permission location value with
      | some r => pure r
      | none => redeclared "permission" permission) r : Resolve (Registry α)) site = .ok r')
    (all : r.All (· = value)) :
    r'.size = r.size + permissions.length ∧ r'.All (· = value) := by
  induction permissions generalizing r with
  | nil =>
    cases pure_ok h
    exact ⟨rfl, all⟩
  | cons permission rest ih =>
    rw [List.foldlM_cons] at h
    obtain ⟨next, first, h⟩ := bind_ok.mp h
    cases hr : r.declare? permission location value with
    | none =>
      rw [hr] at first
      exact absurd first not_redeclared
    | some declared =>
      rw [hr] at first
      cases pure_ok first
      obtain ⟨hsize, hall⟩ := ih h (all.declare rfl hr)
      refine ⟨?_, hall⟩
      rw [hsize, Registry.size_declare hr, List.length_cons]
      omega

/-- The permissions of a class are without content, and those of one that is no map fit
into a word. -/
theorem permissionRegistry_ok {α : Type} {owner : PermissionOwner} {name : String}
    {permissions : List String} {value : α} {site : Citation} {r : Registry α}
    (h : permissionRegistry owner name permissions value site = .ok r) :
    (owner ≠ .map → r.size ≤ maxPermissions) ∧ r.All (· = value) := by
  rw [permissionRegistry] at h
  split at h
  · exact absurd h not_violate
  · rename_i fits
    obtain ⟨_, _, h⟩ := bind_ok.mp h
    obtain ⟨hsize, hall⟩ := declare_permissions h (Registry.all_empty _)
    refine ⟨fun kernel => ?_, hall⟩
    rw [hsize]
    simp only [bne_iff_ne, Bool.and_eq_true, decide_eq_true_eq, not_and, Nat.not_lt] at fits
    have := fits kernel
    change 0 + permissions.length ≤ maxPermissions
    omega

/-! ### What a statement enters -/

/-- What a statement enters in the database. Some enter nothing, and a type may be there already. -/
inductive Entry (db : Database) : Statement → Database → Prop
  | type {location what name kind types} (entered : db.types.declare? name location { kind } = some types) :
      Entry db (.plain location (.declare what name)) { db with types }
  | role {location what name isAttribute roles}
      (entered : db.roles.declare? name location { isAttribute } = some roles) :
      Entry db (.plain location (.declare what name)) { db with roles }
  | user {location what name isAttribute users}
      (entered : db.users.declare? name location { isAttribute } = some users) :
      Entry db (.plain location (.declare what name)) { db with users }
  | classPermission {location what name classPermissions}
      (entered : db.classPermissions.declare? name location [] = some classPermissions) :
      Entry db (.plain location (.declare what name)) { db with classPermissions }
  | sensitivity {location what name isAlias sensitivities}
      (entered : db.sensitivities.declare? name location { isAlias } = some sensitivities) :
      Entry db (.plain location (.declare what name)) { db with sensitivities }
  | category {location what name kind categories}
      (entered : db.categories.declare? name location { kind } = some categories) :
      Entry db (.plain location (.declare what name)) { db with categories }
  | sid {location what name sids} (entered : db.sids.declare? name location none = some sids) :
      Entry db (.plain location (.declare what name)) { db with sids }
  | common {location name permissions own commons} (entered : db.commons.declare? name location own = some commons) :
      Entry db (.plain location (.permissions .common name permissions)) { db with commons }
  | cls {location owner name permissions own classes} (fits : owner ≠ .map → own.size ≤ maxPermissions)
      (blank : own.All (· = []))
      (entered : db.classes.declare? name location { isMap := owner == .map, permissions := own } = some classes) :
      Entry db (.plain location (.permissions owner name permissions)) { db with classes }
  | categorySet {location name members categories}
      (entered : db.categories.declare? name location { kind := .set } = some categories) :
      Entry db (.plain location (.categorySet name members)) { db with categories }
  | level {location name spec levels} (entered : db.levels.declare? name location none = some levels) :
      Entry db (.plain location (.level name spec)) { db with levels }
  | range {location name spec ranges} (entered : db.ranges.declare? name location none = some ranges) :
      Entry db (.plain location (.levelRange name spec)) { db with ranges }
  | context {location name spec contexts} (entered : db.contexts.declare? name location none = some contexts) :
      Entry db (.plain location (.context name spec)) { db with contexts }
  | extendedSet {location name spec extendedSets}
      (entered : db.extendedSets.declare? name location none = some extendedSets) :
      Entry db (.plain location (.extendedSet name spec)) { db with extendedSets }
  | address {location name address addresses}
      (entered : db.addresses.declare? name location address = some addresses) :
      Entry db (.plain location (.address name address)) { db with addresses }
  | boolean {location name value booleans}
      (entered : db.booleans.declare? name location value = some booleans) :
      Entry db (.plain location (.boolean name value)) { db with booleans }
  | nothing {s} : Entry db s db

namespace Entry

variable {db db' : Database} {repeats : Bool} {location : Location} {site : Citation} {name : String}

theorem of_type {what : Declaration} {kind : TypeKind} (h : db.declareType repeats name kind site = .ok db') :
    db.Entry (.plain site.location (.declare what name)) db' := by
  rw [declareType] at h
  obtain ⟨_, here, h⟩ := bind_ok.mp h
  cases here
  cases entered : db.types.declare? name site.location { kind } with
  | none =>
    simp only [entered] at h
    split at h
    · cases pure_ok h
      exact .nothing
    · exact absurd h not_redeclared
  | some types =>
    rw [entered] at h
    cases pure_ok h
    exact .type entered

theorem of_name {what : Declaration} (h : db.declareName repeats name what site = .ok db') :
    db.Entry (.plain site.location (.declare what name)) db' := by
  cases what with
  | entity kind | attr kind =>
    cases kind with
    | type => exact of_type h
    | role =>
      obtain ⟨_, entered, rfl⟩ := enter_ok h
      exact .role entered
    | user =>
      obtain ⟨_, entered, rfl⟩ := enter_ok h
      exact .user entered
  | aliasName kind =>
    cases kind with
    | type => exact of_type h
    | sensitivity =>
      obtain ⟨_, entered, rfl⟩ := enter_ok h
      exact .sensitivity entered
    | category =>
      obtain ⟨_, entered, rfl⟩ := enter_ok h
      exact .category entered
  | classPermission =>
    obtain ⟨_, entered, rfl⟩ := enter_ok h
    exact .classPermission entered
  | sensitivity =>
    obtain ⟨_, entered, rfl⟩ := enter_ok h
    exact .sensitivity entered
  | category =>
    obtain ⟨_, entered, rfl⟩ := enter_ok h
    exact .category entered
  | sid =>
    obtain ⟨_, entered, rfl⟩ := enter_ok h
    exact .sid entered

theorem of_clause {clause : Clause} (h : db.declareClause repeats clause site = .ok db') :
    db.Entry (.plain site.location clause) db' := by
  simp only [declareClause] at h
  split at h
  · exact of_name h
  · obtain ⟨_, _, h⟩ := bind_ok.mp h
    obtain ⟨_, entered, rfl⟩ := enter_ok h
    exact .common entered
  · obtain ⟨own, numbered, h⟩ := bind_ok.mp h
    obtain ⟨fits, blank⟩ := permissionRegistry_ok numbered
    obtain ⟨_, entered, rfl⟩ := enter_ok h
    exact .cls fits blank entered
  · obtain ⟨_, entered, rfl⟩ := enter_ok h
    exact .categorySet entered
  · obtain ⟨_, entered, rfl⟩ := enter_ok h
    exact .level entered
  · obtain ⟨_, entered, rfl⟩ := enter_ok h
    exact .range entered
  · obtain ⟨_, entered, rfl⟩ := enter_ok h
    exact .context entered
  · obtain ⟨_, entered, rfl⟩ := enter_ok h
    exact .extendedSet entered
  · obtain ⟨_, entered, rfl⟩ := enter_ok h
    exact .address entered
  · obtain ⟨_, entered, rfl⟩ := enter_ok h
    exact .boolean entered
  · cases pure_ok h
    exact .nothing

theorem of_declare {s : Statement} (h : db.declare repeats s = .ok db') : db.Entry s db' := by
  simp only [declare] at h
  obtain ⟨_, _, h⟩ := bind_eq_ok.mp h
  cases s with
  | plain location clause => exact of_clause h
  | conditional location condition branches =>
    cases h
    exact .nothing

end Entry

/-! ### The first pass -/

/-- What holds of the database while declarations are entered. -/
structure Fresh (db : Database) : Prop extends db.Blank where
  classes : db.classes.All fun c =>
    c.common = none ∧ (c.isMap = false → c.permissions.size ≤ maxPermissions)
  types : db.types.All fun t => t.actual = none
  sensitivities : db.sensitivities.All fun s => s.actual = none

theorem fresh_empty : Fresh {} where
  toBlank := blank_empty
  classes := Registry.all_empty _
  types := Registry.all_empty _
  sensitivities := Registry.all_empty _

theorem Fresh.entry {db db' : Database} {s : Statement} (fresh : db.Fresh) (entry : db.Entry s db') : db'.Fresh := by
  cases entry with
  | type entered => exact { fresh with types := fresh.types.declare rfl entered }
  | user entered => exact { fresh with users := fresh.users.declare rfl entered }
  | classPermission entered => exact { fresh with sets := fresh.sets.declare rfl entered }
  | sensitivity entered => exact { fresh with sensitivities := fresh.sensitivities.declare rfl entered }
  | sid entered => exact { fresh with sids := fresh.sids.declare rfl entered }
  | cls fits blank entered =>
    exact { fresh with
      mappings := fresh.mappings.declare blank entered
      classes := fresh.classes.declare ⟨rfl, fun kernel => fits (by simpa using kernel)⟩ entered }
  | level entered => exact { fresh with levels := fresh.levels.declare rfl entered }
  | range entered => exact { fresh with ranges := fresh.ranges.declare rfl entered }
  | context entered => exact { fresh with contexts := fresh.contexts.declare rfl entered }
  | extendedSet entered => exact { fresh with extendedSets := fresh.extendedSets.declare rfl entered }
  | _ => exact { fresh with }

/-! ### The second pass -/

/-- No kernel class has more permissions than fit into a word. -/
def ClassesFit (db : Database) : Prop :=
  db.classes.All fun c => c.isMap = false → db.permissionCount c ≤ maxPermissions

/-- Only aliases are bound, and they are bound to declarations. -/
def LinkedSensitivities (db : Database) : Prop :=
  db.sensitivities.All fun s =>
    (s.isAlias = false → s.actual = none) ∧ ∀ a, s.actual = some a → a < db.sensitivities.size

/-- What a statement binds in the database, if it binds anything. -/
inductive Bond (db : Database) : Statement → Database → Prop
  | type {location aliasName actual id target} (inside : target < db.types.size) :
      Bond db (.plain location (.bindAlias .type aliasName actual))
        { db with types := db.types.modify id fun t => { t with actual := some target } }
  | sensitivity {location aliasName actual id info target} (known : db.sensitivities.value? id = some info)
      (isAlias : info.isAlias = true) (inside : target < db.sensitivities.size) :
      Bond db (.plain location (.bindAlias .sensitivity aliasName actual))
        { db with sensitivities := db.sensitivities.modify id fun s => { s with actual := some target } }
  | category {location aliasName actual id target} (inside : target < db.categories.size) :
      Bond db (.plain location (.bindAlias .category aliasName actual))
        { db with categories := db.categories.modify id fun c => { c with actual := some target } }
  | common {location cls common id info target} (known : db.classes.value? id = some info)
      (kernel : info.isMap = false) (inside : target < db.commons.size)
      (fits : db.permissionCount { info with common := some target } ≤ maxPermissions) :
      Bond db (.plain location (.classCommon cls common))
        { db with classes := db.classes.modify id fun _ => { info with common := some target } }
  | nothing {s} : Bond db s db

theorem Bond.of_clause {db db' : Database} {clause : Clause} {site : Citation}
    (h : db.bindClause clause site = .ok db') : db.Bond (.plain site.location clause) db' := by
  simp only [bindClause] at h
  split at h
  · obtain ⟨⟨id, info⟩, _, h⟩ := bind_ok.mp h
    obtain ⟨_, h⟩ := guard_ok h
    obtain ⟨⟨target, actual⟩, found, h⟩ := bind_ok.mp h
    obtain ⟨_, h⟩ := guard_ok h
    obtain ⟨_, h⟩ := guard_ok h
    cases pure_ok h
    exact .type (Registry.lt_of_value? (value?_of_find found))
  · obtain ⟨⟨id, info⟩, known, h⟩ := bind_ok.mp h
    obtain ⟨isAlias, h⟩ := guard_ok h
    obtain ⟨target, found, h⟩ := bind_ok.mp h
    obtain ⟨_, found⟩ := value?_of_findId found
    obtain ⟨_, h⟩ := guard_ok h
    cases pure_ok h
    exact .sensitivity (value?_of_find known) (by simpa using isAlias) (Registry.lt_of_value? found)
  · obtain ⟨⟨id, info⟩, _, h⟩ := bind_ok.mp h
    obtain ⟨_, h⟩ := guard_ok h
    obtain ⟨⟨target, actual⟩, found, h⟩ := bind_ok.mp h
    obtain ⟨_, h⟩ := guard_ok h
    obtain ⟨_, h⟩ := guard_ok h
    cases pure_ok h
    exact .category (Registry.lt_of_value? (value?_of_find found))
  · obtain ⟨⟨id, info⟩, known, h⟩ := bind_ok.mp h
    obtain ⟨kernel, h⟩ := guard_ok h
    obtain ⟨target, found, h⟩ := bind_ok.mp h
    obtain ⟨_, found⟩ := value?_of_findId found
    obtain ⟨_, h⟩ := guard_ok h
    obtain ⟨fits, h⟩ := guard_ok h
    cases pure_ok h
    exact .common (value?_of_find known) (by simpa using kernel) (Registry.lt_of_value? found) (Nat.not_lt.mp fits)
  · cases pure_ok h
    exact .nothing

theorem Bond.of_bind {db db' : Database} {s : Statement} (h : db.bind s = .ok db') : db.Bond s db' := by
  cases s with
  | plain location clause => exact of_clause h
  | conditional location condition branches =>
    cases h
    exact .nothing

/-- What holds of the database while aliases and commons are bound. -/
structure Bound (db : Database) : Prop extends db.Blank where
  classes : db.ClassesFit
  types : db.types.All fun t => ∀ a, t.actual = some a → a < db.types.size
  sensitivities : db.LinkedSensitivities

theorem Fresh.bound {db : Database} (fresh : db.Fresh) : db.Bound where
  toBlank := fresh.toBlank
  classes := by
    intro id c hc kernel
    obtain ⟨common, fits⟩ := fresh.classes id c hc
    have own := fits kernel
    simp only [permissionCount, commonPermissions, common]
    change 0 + c.permissions.size ≤ maxPermissions
    omega
  types := by
    intro id t ht a ha
    rw [fresh.types id t ht] at ha
    cases ha
  sensitivities := by
    intro id s hs
    have unbound := fresh.sensitivities id s hs
    exact ⟨fun _ => unbound, fun a ha => by simp [unbound] at ha⟩

theorem Bound.bond {db db' : Database} {s : Statement} (bound : db.Bound) (bond : db.Bond s db') : db'.Bound := by
  cases bond with
  | type inside =>
    refine { bound with types := ?_ }
    dsimp only
    rw [Registry.size_modify]
    refine bound.types.modify fun t _ _ a ha => ?_
    cases ha
    exact inside
  | sensitivity known isAlias inside =>
    refine { bound with sensitivities := ?_ }
    rw [LinkedSensitivities]
    dsimp only
    rw [Registry.size_modify]
    refine Registry.All.modify bound.sensitivities fun i hi _ => ?_
    cases known.symm.trans hi
    refine ⟨fun plain => absurd (isAlias.symm.trans plain) (by decide), fun a ha => ?_⟩
    cases ha
    exact inside
  | common known _ _ fits =>
    refine { bound with
      classes := Registry.All.modify bound.classes fun _ _ _ _ => fits
      mappings := bound.mappings.modify fun c hc blank => ?_ }
    cases known.symm.trans hc
    exact blank
  | category | nothing => exact { bound with }

end Database

/-! ### The ends of aliases -/

namespace AliasLink

/-- Every alias is bound to a link of the array. -/
def Inside (links : Array AliasLink) : Prop :=
  ∀ (id : Id) (link : AliasLink), links[id]? = some link → ∀ a, link.actual = some a → a < links.size

/-- A walk that starts in the array ends at a link that is no alias. -/
theorem follow_ok {links : Array AliasLink} (inside : Inside links)
    {fuel current anchor steps limit stop : Nat} (start : current < links.size)
    (h : follow links fuel current anchor steps limit = .ok stop) :
    ∃ link, links[stop]? = some link ∧ link.isAlias = false := by
  induction fuel generalizing current anchor steps limit with
  | zero => cases h
  | succ fuel ih =>
    rw [follow] at h
    split at h
    · rename_i missing
      exact absurd (Array.getElem?_eq_none_iff.mp missing) (Nat.not_le.mpr start)
    · rename_i link hlink
      split at h
      · rename_i plain
        cases h
        exact ⟨link, hlink, by simpa using plain⟩
      · split at h
        · cases h
        · rename_i next hnext
          have further := inside current link hlink next hnext
          split at h
          · cases h
          · split at h
            · exact ih further h
            · exact ih further h

/-- Each alias has an end, and every end is no alias. -/
theorem resolveAll_ok {links : Array AliasLink} (inside : Inside links) {ends : List (Id × Id)}
    (h : resolveAll links = .ok ends) :
    (∀ id link, links[id]? = some link → link.isAlias = true → ∃ a, (id, a) ∈ ends) ∧
      ∀ id a, (id, a) ∈ ends → ∃ link, links[a]? = some link ∧ link.isAlias = false := by
  rw [resolveAll] at h
  constructor
  · intro id link hlink isAlias
    have listed : (link, id) ∈ links.toList.zipIdx.filter (·.1.isAlias) := by
      rw [List.mem_filter]
      exact ⟨List.mem_zipIdx_iff_getElem?.mpr (by simpa using hlink), isAlias⟩
    obtain ⟨b, hb, hrun⟩ := exists_of_mapM h listed
    obtain ⟨a, _, heq⟩ := bind_eq_ok.mp hrun
    cases heq
    exact ⟨a, hb⟩
  · intro id a hmem
    obtain ⟨⟨link, n⟩, hlisted, hrun⟩ := mem_of_mapM h hmem
    obtain ⟨stop, hstop, heq⟩ := bind_eq_ok.mp hrun
    cases heq
    obtain ⟨hzip, _⟩ := List.mem_filter.mp hlisted
    have hlink : links[id]? = some link := by simpa using List.mem_zipIdx_iff_getElem?.mp hzip
    rw [resolve] at hstop
    split at hstop
    · cases hstop
    · split at hstop
      · rename_i hfollow
        cases hstop
        exact follow_ok inside (Array.getElem?_eq_some_iff.mp hlink).1 hfollow
      · cases hstop
      · cases hstop

end AliasLink

namespace Database

/-- A declaration as the chains of aliases see it. -/
theorem getElem?_links {α : Type} (r : Registry α) (isAlias : α → Bool) (actual : α → Option Id)
    (id : Id) (link : AliasLink) :
    (r.entries.map fun d => (⟨d.name, d.location, isAlias d.value, actual d.value⟩ : AliasLink))[id]?
      = some link →
    ∃ v, r.value? id = some v ∧ link.isAlias = isAlias v ∧ link.actual = actual v := by
  intro h
  rw [Array.getElem?_map] at h
  obtain ⟨d, hd, rfl⟩ := Option.map_eq_some_iff.mp h
  exact ⟨d.value, Registry.value?_eq_some.mpr ⟨d, hd, rfl⟩, rfl, rfl⟩

theorem aliasEnds_ok {α : Type} {r : Registry α} {isAlias : α → Bool} {actual : α → Option Id}
    (inside : r.All fun v => ∀ a, actual v = some a → a < r.size) {ends : List (Id × Id)}
    (h : aliasEnds r isAlias actual = .ok ends) :
    (∀ id v, r.value? id = some v → isAlias v = true → ∃ a, (id, a) ∈ ends) ∧
      ∀ id a, (id, a) ∈ ends → ∃ v, r.value? a = some v ∧ isAlias v = false := by
  unfold aliasEnds at h
  dsimp only at h
  split at h
  · rename_i found hrun
    cases h
    have linked : AliasLink.Inside (r.entries.map fun d =>
        (⟨d.name, d.location, isAlias d.value, actual d.value⟩ : AliasLink)) := by
      intro id link hlink a ha
      obtain ⟨v, hv, _, heq⟩ := getElem?_links r isAlias actual id link hlink
      rw [Array.size_map]
      exact inside id v hv a (heq ▸ ha)
    obtain ⟨complete, sound⟩ := AliasLink.resolveAll_ok linked hrun
    constructor
    · intro id v hv aliased
      obtain ⟨d, hd, rfl⟩ := Registry.value?_eq_some.mp hv
      refine complete id ⟨d.name, d.location, isAlias d.value, actual d.value⟩ ?_ aliased
      rw [Array.getElem?_map]
      exact congrArg (Option.map _) hd
    · intro id a hmem
      obtain ⟨link, hlink, plain⟩ := sound id a hmem
      obtain ⟨v, hv, heq, _⟩ := getElem?_links r isAlias actual a link hlink
      exact ⟨v, hv, heq ▸ plain⟩
  · cases h

section Ends

variable {α : Type} {isAlias : α → Bool} {actual : α → Option Id} {put : Id → α → α}

/-- The registry after the ends are entered. -/
def enterEnds (put : Id → α → α) (ends : List (Id × Id)) (r : Registry α) : Registry α :=
  ends.foldl (fun r (id, a) => r.modify id (put a)) r

/-- After the ends are entered, a declaration points at one of its ends, if it has any. -/
theorem value?_enterEnds (sets : ∀ a v, actual (put a v) = some a) {ends : List (Id × Id)}
    {r : Registry α} {id : Id} {v : α} (h : (enterEnds put ends r).value? id = some v) :
    ∃ v₀, r.value? id = some v₀ ∧
      ((v = v₀ ∧ ∀ a, (id, a) ∉ ends) ∨ ∃ a, (id, a) ∈ ends ∧ actual v = some a) := by
  induction ends generalizing r with
  | nil => exact ⟨v, h, Or.inl ⟨rfl, by simp⟩⟩
  | cons first rest ih =>
    obtain ⟨changed, stop⟩ := first
    obtain ⟨v₁, hv₁, hends⟩ := ih h
    rw [Registry.value?_modify] at hv₁
    split at hv₁
    · rename_i same
      subst same
      obtain ⟨v₀, hv₀, rfl⟩ := Option.map_eq_some_iff.mp hv₁
      refine ⟨v₀, hv₀, Or.inr ?_⟩
      rcases hends with ⟨rfl, _⟩ | ⟨a, ha, hactual⟩
      · exact ⟨stop, List.mem_cons_self, sets stop v₀⟩
      · exact ⟨a, List.mem_cons_of_mem _ ha, hactual⟩
    · rename_i other
      refine ⟨v₁, hv₁, ?_⟩
      rcases hends with ⟨heq, none⟩ | ⟨a, ha, hactual⟩
      · refine Or.inl ⟨heq, fun a ha => ?_⟩
        rcases List.mem_cons.mp ha with heq | ha
        · cases heq
          exact other rfl
        · exact none a ha
      · exact Or.inr ⟨a, List.mem_cons_of_mem _ ha, hactual⟩

theorem sameUnder_enterEnds {β : Type} {f : α → β} (keeps : ∀ a v, f (put a v) = f v)
    (ends : List (Id × Id)) {r r₀ : Registry α} (same : Registry.SameUnder f r r₀) :
    Registry.SameUnder f (enterEnds put ends r) r₀ := by
  induction ends generalizing r with
  | nil => exact same
  | cons first rest ih => exact ih (same.modify (keeps first.2))

/-- Followed to its end, a declaration points at one that is no alias, or is none itself
and is as it was. -/
theorem exists_end (put : Id → α → α) (sets : ∀ a v, actual (put a v) = some a)
    (keeps : ∀ a v, isAlias (put a v) = isAlias v) {r : Registry α}
    (inside : r.All fun v => ∀ a, actual v = some a → a < r.size) {ends : List (Id × Id)}
    (h : aliasEnds r isAlias actual = .ok ends) {id : Id} {v : α}
    (hv : (enterEnds put ends r).value? id = some v) :
    (∃ a v', actual v = some a ∧ (enterEnds put ends r).value? a = some v' ∧ isAlias v' = false) ∨
      (r.value? id = some v ∧ isAlias v = false) := by
  obtain ⟨complete, sound⟩ := aliasEnds_ok inside h
  have same := sameUnder_enterEnds keeps ends (Registry.sameUnder_refl isAlias r)
  obtain ⟨v₀, hv₀, ⟨rfl, unbound⟩ | ⟨a, ha, hactual⟩⟩ := value?_enterEnds sets hv
  · refine Or.inr ⟨hv₀, ?_⟩
    cases aliased : isAlias v with
    | false => rfl
    | true =>
      obtain ⟨a, ha⟩ := complete id v hv₀ aliased
      exact absurd ha (unbound a)
  · obtain ⟨w, hw, plain⟩ := sound id a ha
    obtain ⟨w', hw', heq⟩ := same.exists_left hw
    exact Or.inl ⟨a, w', hactual, hw', heq.trans plain⟩

end Ends

/-- The sensitivity is declared and is no alias. -/
def IsSensitivity (db : Database) (id : Id) : Prop :=
  ∃ s, db.sensitivities.value? id = some s ∧ s.isAlias = false

/-- What every sensitivity stands for is no alias. -/
def AliasesEnd (db : Database) : Prop :=
  ∀ id s, db.sensitivities.value? id = some s → db.IsSensitivity (s.actual.getD id)

/-- Every alias of a type stands for one that is no alias. -/
def TypeAliasesEnd (db : Database) : Prop :=
  ∀ id t, db.types.value? id = some t → t.isAlias = true →
    ∃ a t', t.actual = some a ∧ db.types.value? a = some t' ∧ t'.isAlias = false

/-- What holds of the database before its statements are resolved. -/
structure Ready (db : Database) : Prop extends db.Blank where
  classes : db.ClassesFit
  types : db.TypeAliasesEnd
  sensitivities : db.AliasesEnd

theorem Bound.followAliases {db db' : Database} (bound : db.Bound)
    (h : db.followAliases = .ok db') : db'.Ready := by
  rw [Database.followAliases] at h
  obtain ⟨types, htypes, h⟩ := bind_eq_ok.mp h
  obtain ⟨sensitivities, hsensitivities, h⟩ := bind_eq_ok.mp h
  obtain ⟨categories, _, h⟩ := bind_eq_ok.mp h
  cases h
  refine { bound with types := ?_, sensitivities := ?_ }
  · intro id t ht aliased
    rcases exists_end (fun a (t : TypeInfo) => { t with actual := some a }) (fun _ _ => rfl)
      (fun _ _ => rfl) bound.types htypes ht with found | ⟨_, plain⟩
    · exact found
    · cases aliased.symm.trans plain
  · intro id s hs
    have inside := fun id s hs => (bound.sensitivities id s hs).2
    rcases exists_end (fun a (s : SensitivityInfo) => { s with actual := some a }) (fun _ _ => rfl)
      (fun _ _ => rfl) inside hsensitivities hs with ⟨a, s', hactual, hs', plain⟩ | ⟨hs₀, plain⟩
    · rw [hactual]
      exact ⟨s', hs', plain⟩
    · rw [(bound.sensitivities id s hs₀).1 plain]
      exact ⟨s, hs, plain⟩

/-- A database is ready when its declarations are entered and bound. -/
theorem ready_of_passes {repeats : Bool} {statements : List Statement} {declared bound db : Database}
    (first : statements.foldlM (declare repeats) {} = .ok declared)
    (second : statements.foldlM bind declared = .ok bound) (third : bound.followAliases = .ok db) :
    db.Ready := by
  have fresh := foldlM_invariant Fresh (fun _ _ _ _ fresh step => fresh.entry (.of_declare step)) fresh_empty first
  have linked := foldlM_invariant Bound (fun _ _ _ _ bound step => bound.bond (.of_bind step)) fresh.bound second
  exact linked.followAliases third

end Database

end CilPolicy
