import CilPolicy.Proofs.Database.Declaration
import Mathlib.Logic.Relation

/-!
# What clauses change

Resolving a clause puts what it says into the database, with what is found there for its names. Each
change that can come of it is a case of one relation, so that what holds throughout is shown for one
change at a time.
-/

namespace CilPolicy

/-- Every context of the labels has the property. -/
structure Labels.AllContexts (p : ContextArg Id → Prop) (l : Labels) : Prop where
  files : ∀ x ∈ l.files, ∀ c, x.context = some c → p c
  filesystems : ∀ x ∈ l.filesystems, p x.context
  genfs : ∀ x ∈ l.genfs, p x.context
  ports : ∀ x ∈ l.ports, p x.context
  nodes : ∀ x ∈ l.nodes, p x.context
  interfaces : ∀ x ∈ l.interfaces, p x.context.1 ∧ p x.context.2
  partitionKeys : ∀ x ∈ l.partitionKeys, p x.context
  endPorts : ∀ x ∈ l.endPorts, p x.context
  interrupts : ∀ x ∈ l.interrupts, p x.context
  ioMemory : ∀ x ∈ l.ioMemory, p x.context
  ioPorts : ∀ x ∈ l.ioPorts, p x.context
  pciDevices : ∀ x ∈ l.pciDevices, p x.context
  deviceTrees : ∀ x ∈ l.deviceTrees, p x.context

theorem Labels.allContexts_empty (p : ContextArg Id → Prop) : Labels.AllContexts p {} := by
  constructor <;> exact fun _ hx => absurd hx List.not_mem_nil

theorem Labels.AllContexts.imp {p q : ContextArg Id → Prop} {l : Labels}
    (weaker : ∀ c, p c → q c) (all : l.AllContexts p) : l.AllContexts q where
  files x hx c hc := weaker c (all.files x hx c hc)
  filesystems x hx := weaker _ (all.filesystems x hx)
  genfs x hx := weaker _ (all.genfs x hx)
  ports x hx := weaker _ (all.ports x hx)
  nodes x hx := weaker _ (all.nodes x hx)
  interfaces x hx := ⟨weaker _ (all.interfaces x hx).1, weaker _ (all.interfaces x hx).2⟩
  partitionKeys x hx := weaker _ (all.partitionKeys x hx)
  endPorts x hx := weaker _ (all.endPorts x hx)
  interrupts x hx := weaker _ (all.interrupts x hx)
  ioMemory x hx := weaker _ (all.ioMemory x hx)
  ioPorts x hx := weaker _ (all.ioPorts x hx)
  pciDevices x hx := weaker _ (all.pciDevices x hx)
  deviceTrees x hx := weaker _ (all.deviceTrees x hx)

theorem Labels.AllContexts.and {p q : ContextArg Id → Prop} {l : Labels} (first : l.AllContexts p)
    (second : l.AllContexts q) : l.AllContexts fun c => p c ∧ q c where
  files x hx c hc := ⟨first.files x hx c hc, second.files x hx c hc⟩
  filesystems x hx := ⟨first.filesystems x hx, second.filesystems x hx⟩
  genfs x hx := ⟨first.genfs x hx, second.genfs x hx⟩
  ports x hx := ⟨first.ports x hx, second.ports x hx⟩
  nodes x hx := ⟨first.nodes x hx, second.nodes x hx⟩
  interfaces x hx :=
    ⟨⟨(first.interfaces x hx).1, (second.interfaces x hx).1⟩,
      ⟨(first.interfaces x hx).2, (second.interfaces x hx).2⟩⟩
  partitionKeys x hx := ⟨first.partitionKeys x hx, second.partitionKeys x hx⟩
  endPorts x hx := ⟨first.endPorts x hx, second.endPorts x hx⟩
  interrupts x hx := ⟨first.interrupts x hx, second.interrupts x hx⟩
  ioMemory x hx := ⟨first.ioMemory x hx, second.ioMemory x hx⟩
  ioPorts x hx := ⟨first.ioPorts x hx, second.ioPorts x hx⟩
  pciDevices x hx := ⟨first.pciDevices x hx, second.pciDevices x hx⟩
  deviceTrees x hx := ⟨first.deviceTrees x hx, second.deviceTrees x hx⟩

namespace Database

open Resolve

theorem forall_mem_concat {α : Type} {p : α → Prop} {items : List α} {a : α}
    (all : ∀ x ∈ items, p x) (last : p a) : ∀ x ∈ items ++ [a], p x := by
  intro x hx
  rcases List.mem_append.mp hx with hx | hx
  · exact all x hx
  · exact List.mem_singleton.mp hx ▸ last

theorem forall_some {α : Type} {p : α → Prop} {a : α} (h : p a) : ∀ b, some a = some b → p b := by
  intro b hb
  cases hb
  exact h

/-! ### What a clause changes -/

/-- The rule that a clause states, with what is found for its names. -/
inductive Stated (db : Database) (site : Citation) : Clause → Rule → Prop
  | access {kind source target permissions s t p} (start : db.findType source site = .ok s)
      (aim : db.findTarget target site = .ok t) (grant : db.classPerms permissions site = .ok p) :
      Stated db site (.access kind source target permissions) (.access kind s t p)
  | extended {kind source target permissions s t p} (start : db.findType source site = .ok s)
      (aim : db.findTarget target site = .ok t) (grant : db.extendedArg permissions site = .ok p) :
      Stated db site (.extended kind source target permissions) (.extended kind s t p)
  | type {kind source target cls result s t c r} (outcome : db.findType result site = .ok r)
      (plain : ¬ db.isTypeAttribute r = true) (start : db.findType source site = .ok s)
      (aim : db.findTarget target site = .ok t) (kernel : db.findKernelClass cls site = .ok c) :
      Stated db site (.typeRule kind source target cls result) (.type kind s t c r)
  | namedTransition {source target cls name result s t c r} (outcome : db.findType result site = .ok r)
      (plain : ¬ db.isTypeAttribute r = true) (start : db.findType source site = .ok s)
      (aim : db.findTarget target site = .ok t) (kernel : db.findKernelClass cls site = .ok c) :
      Stated db site (.namedTransition source target cls name result) (.namedTransition s t c name r)
  | roleTransition {source target cls result s t c r info info'} (outcome : db.findRole result site = .ok (r, info))
      (plain : ¬ info.isAttribute = true) (start : db.findRole source site = .ok (s, info'))
      (aim : db.findType target site = .ok t) (kernel : db.findKernelClass cls site = .ok c) :
      Stated db site (.roleTransition source target cls result) (.roleTransition s t c r)
  | roleAllow {source target s t info info'} (start : db.findRole source site = .ok (s, info))
      (aim : db.findRole target site = .ok (t, info')) :
      Stated db site (.roleAllow source target) (.roleAllow s t)
  | rangeTransition {source target cls range s t c r} (start : db.findType source site = .ok s)
      (aim : db.findType target site = .ok t) (kernel : db.findKernelClass cls site = .ok c)
      (outcome : db.rangeArg range site = .ok r) :
      Stated db site (.rangeTransition source target cls range) (.rangeTransition s t c r)

theorem stated_of_rule? {db : Database} {site : Citation} {clause : Clause} {rule? : Option Rule}
    (h : db.rule? clause site = .ok rule?) : ∀ rule ∈ rule?, db.Stated site clause rule := by
  unfold Database.rule? at h
  split at h
  · obtain ⟨s, start, h⟩ := bind_ok.mp h
    obtain ⟨t, aim, h⟩ := bind_ok.mp h
    obtain ⟨p, grant, h⟩ := bind_ok.mp h
    cases pure_ok h
    rintro _ ⟨⟩
    exact .access start aim grant
  · obtain ⟨s, start, h⟩ := bind_ok.mp h
    obtain ⟨t, aim, h⟩ := bind_ok.mp h
    obtain ⟨p, grant, h⟩ := bind_ok.mp h
    cases pure_ok h
    rintro _ ⟨⟩
    exact .extended start aim grant
  · obtain ⟨r, outcome, h⟩ := bind_ok.mp h
    obtain ⟨plain, h⟩ := check_ok h
    obtain ⟨s, start, h⟩ := bind_ok.mp h
    obtain ⟨t, aim, h⟩ := bind_ok.mp h
    obtain ⟨c, kernel, h⟩ := bind_ok.mp h
    cases pure_ok h
    rintro _ ⟨⟩
    exact .type outcome plain start aim kernel
  · obtain ⟨r, outcome, h⟩ := bind_ok.mp h
    obtain ⟨plain, h⟩ := check_ok h
    obtain ⟨s, start, h⟩ := bind_ok.mp h
    obtain ⟨t, aim, h⟩ := bind_ok.mp h
    obtain ⟨c, kernel, h⟩ := bind_ok.mp h
    cases pure_ok h
    rintro _ ⟨⟩
    exact .namedTransition outcome plain start aim kernel
  · obtain ⟨⟨r, info⟩, outcome, h⟩ := bind_ok.mp h
    obtain ⟨plain, h⟩ := check_ok h
    obtain ⟨⟨s, _⟩, start, h⟩ := bind_ok.mp h
    obtain ⟨t, aim, h⟩ := bind_ok.mp h
    obtain ⟨c, kernel, h⟩ := bind_ok.mp h
    cases pure_ok h
    rintro _ ⟨⟩
    exact .roleTransition outcome plain start aim kernel
  · obtain ⟨⟨s, _⟩, start, h⟩ := bind_ok.mp h
    obtain ⟨⟨t, _⟩, aim, h⟩ := bind_ok.mp h
    cases pure_ok h
    rintro _ ⟨⟩
    exact .roleAllow start aim
  · obtain ⟨s, start, h⟩ := bind_ok.mp h
    obtain ⟨t, aim, h⟩ := bind_ok.mp h
    obtain ⟨c, kernel, h⟩ := bind_ok.mp h
    obtain ⟨r, outcome, h⟩ := bind_ok.mp h
    cases pure_ok h
    rintro _ ⟨⟩
    exact .rangeTransition start aim kernel outcome
  · cases pure_ok h
    exact fun _ none => nomatch none

/-- One change that a clause makes, with what is found for its names. A clause on defaults makes one for each
class, and labels are told apart only by whose contexts they have. -/
inductive Edit (db : Database) (site : Citation) : Clause → Database → Prop
  | typeSet {name members id e} (named : db.findType name site = .ok id) (attr : db.isTypeAttribute id = true)
      (found : expr members db.findType site = .ok e) :
      Edit db site (.attributeSet .type name members)
        { db with types := db.types.modify id fun t => { t with sets := t.sets ++ [e] } }
  | roleSet {name members id info e} (named : db.findRole name site = .ok (id, info))
      (attr : info.isAttribute = true) (found : expr members (fun n => Prod.fst <$> db.findRole n) site = .ok e) :
      Edit db site (.attributeSet .role name members)
        { db with roles := db.roles.modify id fun r => { r with sets := r.sets ++ [e] } }
  | userSet {name members id info e} (named : db.findUser name site = .ok (id, info))
      (attr : info.isAttribute = true) (found : expr members (fun n => Prod.fst <$> db.findUser n) site = .ok e) :
      Edit db site (.attributeSet .user name members)
        { db with users := db.users.modify id fun u => { u with sets := u.sets ++ [e] } }
  | typeBounds {parent child p c} (bound : db.findType parent site = .ok p) (named : db.findType child site = .ok c)
      (plain : db.isTypeAttribute p = false ∧ db.isTypeAttribute c = false) :
      Edit db site (.bounds .type parent child)
        { db with types := db.types.modify c fun t => { t with bounds := some p } }
  | roleBounds {parent child p info c info'} (bound : db.findRole parent site = .ok (p, info))
      (named : db.findRole child site = .ok (c, info'))
      (plain : info.isAttribute = false ∧ info'.isAttribute = false) :
      Edit db site (.bounds .role parent child)
        { db with roles := db.roles.modify c fun r => { r with bounds := some p } }
  | userBounds {parent child p info c info'} (bound : db.findUser parent site = .ok (p, info))
      (named : db.findUser child site = .ok (c, info'))
      (plain : info.isAttribute = false ∧ info'.isAttribute = false) :
      Edit db site (.bounds .user parent child)
        { db with users := db.users.modify c fun u => { u with bounds := some p } }
  | typePermissive {type id} (named : db.findType type site = .ok id) (plain : ¬ db.isTypeAttribute id = true) :
      Edit db site (.typePermissive type)
        { db with types := db.types.modify id fun t => { t with permissive := true } }
  | roleType {role type id info t} (named : db.findRole role site = .ok (id, info))
      (found : db.findType type site = .ok t) :
      Edit db site (.roleType role type)
        { db with roles := db.roles.modify id fun r => { r with types := r.types ++ [t] } }
  | userRole {user role id info r info'} (named : db.findUser user site = .ok (id, info))
      (found : db.findRole role site = .ok (r, info')) :
      Edit db site (.userRole user role)
        { db with users := db.users.modify id fun u => { u with roles := u.roles ++ [r] } }
  | userLevel {user level id info l} (named : db.findUser user site = .ok (id, info))
      (plain : ¬ info.isAttribute = true) (found : db.levelArg level site = .ok l) :
      Edit db site (.userLevel user level)
        { db with users := db.users.modify id fun u => { u with level := some l } }
  | userRange {user range id info r} (named : db.findUser user site = .ok (id, info))
      (plain : ¬ info.isAttribute = true) (found : db.rangeArg range site = .ok r) :
      Edit db site (.userRange user range)
        { db with users := db.users.modify id fun u => { u with range := some r } }
  | unordered {names ids} (found : db.orderItems names .cls site = .ok ids) :
      Edit db site (.order .cls ("unordered" :: names))
        { db with fragments.unorderedClasses := db.fragments.unorderedClasses ++ [⟨site.location, ids⟩] }
  | classOrder {names ids} (found : db.orderItems names .cls site = .ok ids) :
      Edit db site (.order .cls names)
        { db with fragments.classes := db.fragments.classes ++ [⟨site.location, ids⟩] }
  | sidOrder {names ids} (found : db.orderItems names .sid site = .ok ids) :
      Edit db site (.order .sid names)
        { db with fragments.sids := db.fragments.sids ++ [⟨site.location, ids⟩] }
  | sensitivityOrder {names ids} (found : db.orderItems names .sensitivity site = .ok ids) :
      Edit db site (.order .sensitivity names)
        { db with fragments.sensitivities := db.fragments.sensitivities ++ [⟨site.location, ids⟩] }
  | categoryOrder {names ids} (found : db.orderItems names .category site = .ok ids) :
      Edit db site (.order .category names)
        { db with fragments.categories := db.fragments.categories ++ [⟨site.location, ids⟩] }
  | classPermissionSet {name permissions id p}
      (named : findId db.classPermissions "classpermission" name site = .ok id)
      (found : db.classPerms permissions site = .ok p) :
      Edit db site (.classPermissionSet name permissions)
        { db with classPermissions := db.classPermissions.modify id (· ++ [p]) }
  | classMapping {map permission permissions id info own p} (named : db.findClass map site = .ok (id, info))
      (isMap : info.isMap = true) (part : findId info.permissions "map permission" permission site = .ok own)
      (found : db.classPerms permissions site = .ok p) :
      Edit db site (.classMapping map permission permissions)
        { db with classes := db.classes.modify id fun c =>
          { c with permissions := c.permissions.modify own (· ++ [p]) } }
  | default {kind classes object cls id} (named : db.findKernelClass cls site = .ok id) :
      Edit db site (.defaults kind classes object)
        { db with classes := db.classes.modify id (setDefault kind object) }
  | defaultRange {classes range cls id} (named : db.findKernelClass cls site = .ok id) :
      Edit db site (.defaultRange classes range)
        { db with classes := db.classes.modify id fun c => { c with defaultRange := some range } }
  | categorySet {name categories id e} (named : db.findCategory name site = .ok id)
      (found : db.categoryExpr categories site = .ok e) :
      Edit db site (.categorySet name categories)
        { db with categories := db.categories.modify id fun c => { c with members := some e } }
  | sensitivityCategory {sensitivity categories id e} (named : db.findSensitivity sensitivity site = .ok id)
      (found : db.categoryExpr categories site = .ok e) :
      Edit db site (.sensitivityCategory sensitivity categories)
        { db with sensitivities :=
          db.sensitivities.modify id fun s => { s with categories := s.categories ++ [e] } }
  | level {name spec id l} (found : db.levelSpec spec site = .ok l)
      (named : findId db.levels "level" name site = .ok id) :
      Edit db site (.level name spec) { db with levels := db.levels.modify id fun _ => some l }
  | levelRange {name spec id r} (found : db.rangeSpec spec site = .ok r)
      (named : findId db.ranges "levelrange" name site = .ok id) :
      Edit db site (.levelRange name spec) { db with ranges := db.ranges.modify id fun _ => some r }
  | extendedSet {name spec id x} (found : db.extendedSpec spec site = .ok x)
      (named : findId db.extendedSets "permissionx" name site = .ok id) :
      Edit db site (.extendedSet name spec) { db with extendedSets := db.extendedSets.modify id fun _ => some x }
  | context {name spec id c} (found : db.contextSpec spec site = .ok c)
      (named : findId db.contexts "context" name site = .ok id) :
      Edit db site (.context name spec) { db with contexts := db.contexts.modify id fun _ => some c }
  | sidContext {sid context id c} (named : find db.sids "sid" sid site = .ok (id, none))
      (found : db.contextArg context site = .ok c) :
      Edit db site (.sidContext sid context) { db with sids := db.sids.modify id fun _ => some c }
  | handleUnknown {value} :
      Edit db site (.handleUnknown value) { db with handleUnknown := db.handleUnknown ++ [(site.location, value)] }
  | mls {value} : Edit db site (.mls value) { db with mls := db.mls ++ [(site.location, value)] }
  | capability {name} :
      Edit db site (.capability name) { db with capabilities := db.capabilities ++ [(site.location, name)] }
  | rule {clause rule} (stated : db.Stated site clause rule) :
      Edit db site clause { db.markUsed rule with rules := db.rules ++ [⟨site.location, rule⟩] }
  | label {clause labels}
      (found : ∀ p, (∀ context c, db.contextArg context site = .ok c → p c) → db.labels.AllContexts p →
        labels.AllContexts p) :
      Edit db site clause { db with labels }

namespace Edit

variable {db db' : Database} {site : Citation}

theorem of_attributeSet {name : String} {members : Expr String} {kind : Entity}
    (h : db.resolveAttributeSet name members kind site = .ok db') :
    db.Edit site (.attributeSet kind name members) db' := by
  cases kind with
  | type =>
    obtain ⟨id, named, h⟩ := bind_ok.mp h
    obtain ⟨attr, h⟩ := check_ok h
    obtain ⟨e, found, h⟩ := bind_ok.mp h
    cases pure_ok h
    exact .typeSet named (by simpa using attr) found
  | role =>
    obtain ⟨⟨id, info⟩, named, h⟩ := bind_ok.mp h
    obtain ⟨attr, h⟩ := check_ok h
    obtain ⟨e, found, h⟩ := bind_ok.mp h
    cases pure_ok h
    exact .roleSet named (by simpa using attr) found
  | user =>
    obtain ⟨⟨id, info⟩, named, h⟩ := bind_ok.mp h
    obtain ⟨attr, h⟩ := check_ok h
    obtain ⟨e, found, h⟩ := bind_ok.mp h
    cases pure_ok h
    exact .userSet named (by simpa using attr) found

theorem plain_of_checkBounds {parent child : String} {parentAttr childAttr : Bool} {u : Unit}
    (h : checkBounds parent child parentAttr childAttr site = .ok u) : parentAttr = false ∧ childAttr = false := by
  cases parentAttr with
  | true => exact absurd h not_violate
  | false =>
    cases childAttr with
    | true => exact absurd h not_violate
    | false => exact ⟨rfl, rfl⟩

theorem of_bounds {parent child : String} {kind : Entity}
    (h : db.resolveBounds parent child kind site = .ok db') : db.Edit site (.bounds kind parent child) db' := by
  cases kind with
  | type =>
    obtain ⟨p, bound, h⟩ := bind_ok.mp h
    obtain ⟨c, named, h⟩ := bind_ok.mp h
    obtain ⟨_, plain, h⟩ := bind_ok.mp h
    obtain ⟨_, h⟩ := check_ok h
    cases pure_ok h
    exact .typeBounds bound named (plain_of_checkBounds plain)
  | role =>
    obtain ⟨⟨p, info⟩, bound, h⟩ := bind_ok.mp h
    obtain ⟨⟨c, info'⟩, named, h⟩ := bind_ok.mp h
    obtain ⟨_, plain, h⟩ := bind_ok.mp h
    obtain ⟨_, h⟩ := check_ok h
    cases pure_ok h
    exact .roleBounds bound named (plain_of_checkBounds plain)
  | user =>
    obtain ⟨⟨p, info⟩, bound, h⟩ := bind_ok.mp h
    obtain ⟨⟨c, info'⟩, named, h⟩ := bind_ok.mp h
    obtain ⟨_, plain, h⟩ := bind_ok.mp h
    obtain ⟨_, h⟩ := check_ok h
    cases pure_ok h
    exact .userBounds bound named (plain_of_checkBounds plain)

theorem of_order {kind : OrderKind} {items : List String} (h : db.resolveOrder kind items site = .ok db') :
    db.Edit site (.order kind items) db' := by
  rw [Database.resolveOrder] at h
  obtain ⟨_, here, h⟩ := bind_ok.mp h
  cases here
  dsimp only at h
  split at h
  · obtain ⟨ids, found, h⟩ := bind_ok.mp h
    cases pure_ok h
    exact .unordered found
  · obtain ⟨ids, found, h⟩ := bind_ok.mp h
    cases pure_ok h
    cases kind with
    | cls => exact .classOrder found
    | sid => exact .sidOrder found
    | sensitivity => exact .sensitivityOrder found
    | category => exact .categoryOrder found

theorem of_mapping {map permission : String} {permissions : ClassPerms String}
    (h : db.resolveMapping map permission permissions site = .ok db') :
    db.Edit site (.classMapping map permission permissions) db' := by
  obtain ⟨⟨id, info⟩, named, h⟩ := bind_ok.mp h
  obtain ⟨isMap, h⟩ := check_ok h
  obtain ⟨own, part, h⟩ := bind_ok.mp h
  obtain ⟨p, found, h⟩ := bind_ok.mp h
  cases pure_ok h
  exact .classMapping named (by simpa using isMap) part found

theorem of_default {kind : DefaultKind} {classes : List String} {object : DefaultObject} {cls : String}
    (h : db.resolveDefault kind object cls site = .ok db') : db.Edit site (.defaults kind classes object) db' := by
  obtain ⟨id, named, h⟩ := bind_ok.mp h
  dsimp only at h
  split at h
  · obtain ⟨_, _, h⟩ := bind_ok.mp h
    obtain ⟨_, refused, _⟩ := bind_ok.mp h
    exact absurd refused not_violate
  · cases pure_ok h
    exact .default named

theorem of_defaultRange {classes : List String} {range : DefaultRange} {cls : String}
    (h : db.resolveDefaultRange range cls site = .ok db') : db.Edit site (.defaultRange classes range) db' := by
  obtain ⟨id, named, h⟩ := bind_ok.mp h
  dsimp only at h
  split at h
  · obtain ⟨_, _, h⟩ := bind_ok.mp h
    obtain ⟨_, refused, _⟩ := bind_ok.mp h
    exact absurd refused not_violate
  · cases pure_ok h
    exact .defaultRange named

/-- A label that has one context, put where `put` puts it. -/
theorem of_put {σ : Type} {clause : Clause} {context : ContextArg String} {selector : σ}
    {put : Label σ (ContextArg Id) → Labels} (h : db.label context selector put site = .ok db')
    (puts : ∀ (p : ContextArg Id → Prop) l, p l.context → db.labels.AllContexts p → (put l).AllContexts p) :
    db.Edit site clause db' := by
  obtain ⟨_, _, h⟩ := bind_ok.mp h
  obtain ⟨c, found, h⟩ := bind_ok.mp h
  cases pure_ok h
  exact .label fun p each => puts p _ (each _ _ found)

theorem of_label {clause : Clause} (h : db.resolveLabel clause site = .ok db') : db.Edit site clause db' := by
  unfold Database.resolveLabel at h
  split at h
  · rename_i selector context
    obtain ⟨_, _, h⟩ := bind_ok.mp h
    cases context with
    | none =>
      obtain ⟨_, hnone, h⟩ := bind_ok.mp h
      cases pure_ok hnone
      cases pure_ok h
      exact .label fun p _ old => { old with files := forall_mem_concat old.files fun _ hc => nomatch hc }
    | some given =>
      obtain ⟨_, hsome, h⟩ := bind_ok.mp h
      obtain ⟨c, found, rfl⟩ := map_ok.mp hsome
      cases pure_ok h
      exact .label fun p each old =>
        { old with files := forall_mem_concat old.files (forall_some (each _ _ found)) }
  · exact of_put h fun p l hl old => { old with filesystems := forall_mem_concat old.filesystems hl }
  · exact of_put h fun p l hl old => { old with genfs := forall_mem_concat old.genfs hl }
  · exact of_put h fun p l hl old => { old with ports := forall_mem_concat old.ports hl }
  · obtain ⟨address, _, h⟩ := bind_ok.mp h
    obtain ⟨mask, _, h⟩ := bind_ok.mp h
    obtain ⟨_, h⟩ := check_ok h
    exact of_put h fun p l hl old => { old with nodes := forall_mem_concat old.nodes hl }
  · obtain ⟨_, _, h⟩ := bind_ok.mp h
    obtain ⟨interface, found, h⟩ := bind_ok.mp h
    obtain ⟨packet, found', h⟩ := bind_ok.mp h
    cases pure_ok h
    exact .label fun p each old =>
      { old with interfaces := forall_mem_concat old.interfaces ⟨each _ _ found, each _ _ found'⟩ }
  · rename_i text keys context
    cases hsubnet : IpAddress.parseV6? text with
    | none =>
      simp only [hsubnet] at h
      exact absurd h not_violate
    | some address =>
      simp only [hsubnet] at h
      exact of_put h fun p l hl old => { old with partitionKeys := forall_mem_concat old.partitionKeys hl }
  · exact of_put h fun p l hl old => { old with endPorts := forall_mem_concat old.endPorts hl }
  · exact of_put h fun p l hl old => { old with interrupts := forall_mem_concat old.interrupts hl }
  · exact of_put h fun p l hl old => { old with ioMemory := forall_mem_concat old.ioMemory hl }
  · exact of_put h fun p l hl old => { old with ioPorts := forall_mem_concat old.ioPorts hl }
  · exact of_put h fun p l hl old => { old with pciDevices := forall_mem_concat old.pciDevices hl }
  · exact of_put h fun p l hl old => { old with deviceTrees := forall_mem_concat old.deviceTrees hl }
  · cases pure_ok h
    exact .label fun p _ old => old

theorem of_other {clause : Clause} (h : (db.rule? clause >>= fun
      | some r => pure { db.markUsed r with rules := db.rules ++ [⟨site.location, r⟩] }
      | none => db.resolveLabel clause : Resolve Database) site = .ok db') : db.Edit site clause db' := by
  obtain ⟨stated, found, h⟩ := bind_ok.mp h
  cases stated with
  | none => exact of_label h
  | some r =>
    cases pure_ok h
    exact .rule (stated_of_rule? found r rfl)

/-- Resolving a clause makes its changes one after the other. -/
theorem chain_of_clause {clause : Clause} (h : db.resolveClause clause site = .ok db') :
    Relation.ReflTransGen (Edit · site clause) db db' := by
  rw [Database.resolveClause] at h
  obtain ⟨_, here, h⟩ := bind_ok.mp h
  cases here
  cases clause with
  | attributeSet kind name members => exact .single (of_attributeSet h)
  | bounds kind parent child => exact .single (of_bounds h)
  | typePermissive type =>
    obtain ⟨id, named, h⟩ := bind_ok.mp h
    obtain ⟨plain, h⟩ := check_ok h
    cases pure_ok h
    exact .single (.typePermissive named plain)
  | roleType role type =>
    obtain ⟨⟨id, info⟩, named, h⟩ := bind_ok.mp h
    obtain ⟨t, found, h⟩ := bind_ok.mp h
    cases pure_ok h
    exact .single (.roleType named found)
  | userRole user role =>
    obtain ⟨⟨id, info⟩, named, h⟩ := bind_ok.mp h
    obtain ⟨⟨r, info'⟩, found, h⟩ := bind_ok.mp h
    cases pure_ok h
    exact .single (.userRole named found)
  | userLevel user level =>
    obtain ⟨⟨id, info⟩, named, h⟩ := bind_ok.mp h
    obtain ⟨plain, h⟩ := check_ok h
    obtain ⟨l, found, h⟩ := bind_ok.mp h
    cases pure_ok h
    exact .single (.userLevel named plain found)
  | userRange user range =>
    obtain ⟨⟨id, info⟩, named, h⟩ := bind_ok.mp h
    obtain ⟨plain, h⟩ := check_ok h
    obtain ⟨r, found, h⟩ := bind_ok.mp h
    cases pure_ok h
    exact .single (.userRange named plain found)
  | order kind items => exact .single (of_order h)
  | classPermissionSet name permissions =>
    obtain ⟨id, named, h⟩ := bind_ok.mp h
    obtain ⟨p, found, h⟩ := bind_ok.mp h
    cases pure_ok h
    exact .single (.classPermissionSet named found)
  | classMapping map permission permissions => exact .single (of_mapping h)
  | defaults kind classes object =>
    dsimp only at h
    rw [foldlM_apply] at h
    exact foldlM_invariant (Relation.ReflTransGen (Edit · site (.defaults kind classes object)) db)
      (fun _ _ _ _ made step => made.tail (of_default step)) .refl h
  | defaultRange classes range =>
    dsimp only at h
    rw [foldlM_apply] at h
    exact foldlM_invariant (Relation.ReflTransGen (Edit · site (.defaultRange classes range)) db)
      (fun _ _ _ _ made step => made.tail (of_defaultRange step)) .refl h
  | categorySet name categories =>
    obtain ⟨id, named, h⟩ := bind_ok.mp h
    obtain ⟨e, found, h⟩ := bind_ok.mp h
    cases pure_ok h
    exact .single (.categorySet named found)
  | sensitivityCategory sensitivity categories =>
    obtain ⟨id, named, h⟩ := bind_ok.mp h
    obtain ⟨e, found, h⟩ := bind_ok.mp h
    cases pure_ok h
    exact .single (.sensitivityCategory named found)
  | level name spec =>
    obtain ⟨l, found, h⟩ := bind_ok.mp h
    obtain ⟨id, named, h⟩ := bind_ok.mp h
    cases pure_ok h
    exact .single (.level found named)
  | levelRange name spec =>
    obtain ⟨r, found, h⟩ := bind_ok.mp h
    obtain ⟨id, named, h⟩ := bind_ok.mp h
    cases pure_ok h
    exact .single (.levelRange found named)
  | extendedSet name spec =>
    obtain ⟨x, found, h⟩ := bind_ok.mp h
    obtain ⟨id, named, h⟩ := bind_ok.mp h
    cases pure_ok h
    exact .single (.extendedSet found named)
  | context name spec =>
    obtain ⟨c, found, h⟩ := bind_ok.mp h
    obtain ⟨id, named, h⟩ := bind_ok.mp h
    cases pure_ok h
    exact .single (.context found named)
  | sidContext sid context =>
    obtain ⟨⟨id, known⟩, named, h⟩ := bind_ok.mp h
    obtain ⟨c, found, h⟩ := bind_ok.mp h
    obtain ⟨free, h⟩ := check_ok h
    cases pure_ok h
    obtain rfl : known = none := by simpa using free
    exact .single (.sidContext named found)
  | handleUnknown value =>
    cases pure_ok h
    exact .single .handleUnknown
  | mls value =>
    cases pure_ok h
    exact .single .mls
  | capability name =>
    cases pure_ok h
    exact .single .capability
  | _ => exact .single (of_other h)

end Edit

end Database

end CilPolicy
