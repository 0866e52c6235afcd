import CilPolicy.FileContexts
import CilPolicy.Proofs.Database.Closure
import CilPolicy.Proofs.Database.Order
import CilPolicy.Proofs.Graph.Chain
import CilPolicy.Proofs.Lowering.Permissions
import CilPolicy.Proofs.Verification.Passed

/-!
# What the checks look up

A closed database keeps only numbers of its own declarations. The stages before lowering
go on from these numbers: they merge orders, follow bounds and references, evaluate sets
and levels. What they come to is again the number of a declaration, so that none of their
lookups misses, whether or not the stage finds a fault.
-/

namespace CilPolicy

/-! ### Ordering -/

namespace Database

variable {db : Database}

/-- Items of fragments, and of the orders made of them, are declared; a fragment and the order
so far meet within both, and no cursor, slice or insertion of a merge is outside its list. -/
structure OrderInside (db : Database) : Prop where
  fragments : db.signature.FragmentsWithin db.fragments
  classes : ∀ ids, (mergeFragments .cls db.classes.nameOf db.fragments.classes
    db.fragments.unorderedClasses).Yields ids → ∀ id ∈ ids, db.signature.IsKernelClass id
  sids : ∀ ids, (mergeFragments .sid db.sids.nameOf db.fragments.sids []).Yields ids →
    ∀ id ∈ ids, id < db.sids.size
  sensitivities : ∀ ids, (mergeFragments .sensitivity db.sensitivities.nameOf
    db.fragments.sensitivities []).Yields ids → ∀ id ∈ ids, db.signature.IsSensitivity id
  categories : ∀ ids, (mergeFragments .category db.categories.nameOf
    db.fragments.categories []).Yields ids → ∀ id ∈ ids, db.signature.IsPlainCategory id
  anchors : ∀ (old new : List Id) (n o : Nat), Order.anchor? old new = some (n, o) →
    n < new.length ∧ o < old.length
  merges : ∀ old new : List Id, Order.mergeInPlace? old new = some (Order.merge old new)

theorem Closed.orderInside (closed : db.Closed) : db.OrderInside where
  fragments := closed.within.fragments
  classes := by
    intro ids yields id hid
    rcases mem_of_mergeFragments yields hid with ⟨f, hf, hid⟩ | ⟨f, hf, hid⟩
    · exact closed.within.fragments.classes f hf id hid
    · exact closed.within.fragments.unorderedClasses f hf id hid
  sids := by
    intro ids yields id hid
    rcases mem_of_mergeFragments yields hid with ⟨f, hf, hid⟩ | ⟨f, hf, _⟩
    · exact closed.within.fragments.sids f hf id hid
    · cases hf
  sensitivities := by
    intro ids yields id hid
    rcases mem_of_mergeFragments yields hid with ⟨f, hf, hid⟩ | ⟨f, hf, _⟩
    · exact closed.within.fragments.sensitivities f hf id hid
    · cases hf
  categories := by
    intro ids yields id hid
    rcases mem_of_mergeFragments yields hid with ⟨f, hf, hid⟩ | ⟨f, hf, _⟩
    · exact closed.within.fragments.categories f hf id hid
    · cases hf
  anchors := by
    intro old new n o found
    obtain ⟨a, ho, hn⟩ := Order.anchor?_eq_some found
    exact ⟨(List.getElem?_eq_some_iff.mp hn).1, (List.getElem?_eq_some_iff.mp ho).1⟩
  merges := Order.mergeInPlace?_eq

end Database

/-- The orders have declarations only, kernel classes, sensitivities and categories themselves. -/
structure OrderedDatabase.OrdersInside (db : OrderedDatabase) : Prop where
  classes : ∀ id ∈ db.orders.classes, db.signature.IsKernelClass id
  sids : ∀ id ∈ db.orders.sids, id < db.sids.size
  sensitivities : ∀ id ∈ db.orders.sensitivities, db.signature.IsSensitivity id
  categories : ∀ id ∈ db.orders.categories, db.signature.IsPlainCategory id

theorem Database.OrderInside.orders {db : Database} {ordered : OrderedDatabase} (inside : db.OrderInside)
    (run : db.order.Yields ordered) : ordered.OrdersInside := by
  rw [Database.order] at run
  obtain ⟨classes, hclasses, run⟩ := Report.yields_bind run
  obtain ⟨sids, hsids, run⟩ := Report.yields_bind run
  obtain ⟨sensitivities, hsensitivities, run⟩ := Report.yields_bind run
  obtain ⟨categories, hcategories, run⟩ := Report.yields_bind run
  obtain ⟨_, _, run⟩ := Report.yields_bind run
  cases Report.yields_pure run
  exact ⟨inside.classes classes hclasses, inside.sids sids hsids,
    inside.sensitivities sensitivities hsensitivities, inside.categories categories hcategories⟩

/-! ### Cycles -/

namespace Database

variable {db : Database}

/-- The node is a named set, or a permission that a map has. -/
def NodeInside (db : Database) : PermissionNode → Prop
  | .set id => id < db.classPermissions.size
  | .mapped cls p => ∃ c, db.classes.value? cls = some c ∧ c.isMap = true ∧ p < c.permissions.size

/-- Chains of bounds, sets within sets and references to permissions lead from
declarations to declarations. -/
structure CyclesInside (db : Database) : Prop where
  userBounds : ∀ start < db.users.size, ∀ steps place,
    Graph.walk (fun u => (db.users.value? u).bind (·.bounds)) steps start = some place →
      place < db.users.size
  roleBounds : ∀ start < db.roles.size, ∀ steps place,
    Graph.walk (fun r => (db.roles.value? r).bind (·.bounds)) steps start = some place →
      place < db.roles.size
  typeBounds : ∀ start < db.types.size, ∀ steps place,
    Graph.walk (fun t => (db.types.value? t).bind (·.bounds)) steps start = some place →
      place < db.types.size
  types : ∀ id, ∀ t ∈ db.typeNext id, db.signature.IsType t
  roles : ∀ id, ∀ r ∈ db.roleNext id, db.signature.IsRole r
  users : ∀ id, ∀ u ∈ db.userNext id, db.signature.IsUser u
  categories : ∀ id, ∀ c ∈ db.categoryNext id, db.signature.IsCategory c
  permissionNodes : ∀ node ∈ db.permissionNodes, db.NodeInside node
  permissionRefs : ∀ node, ∀ ref ∈ db.permissionRefs node, db.signature.PermissionsWithin ref
  permissionNext : ∀ node, ∀ next ∈ db.permissionNext node, db.NodeInside next

theorem Closed.value?_class (closed : db.Closed) {id : Id} {c : ClassInfo}
    (h : db.classes.value? id = some c) :
    (∀ k ∈ c.common, k < db.commons.size) ∧ (c.isMap = true → c.common = none) :=
  closed.commons id (db.classShape c) (congrArg (Option.map _) h)

/-- A map has only permissions of its own. -/
theorem Closed.permissionCount_map (closed : db.Closed) {id : Id} {c : ClassInfo}
    (h : db.classes.value? id = some c) (isMap : c.isMap = true) :
    db.permissionCount c = c.permissions.size := by
  have none := (closed.value?_class h).2 isMap
  rw [permissionCount, commonPermissions, none]
  exact Nat.zero_add _

theorem lt_permissionCount {cls : Id} {c : ClassInfo} {e : Expr Id} {p : Nat}
    (hc : db.classes.value? cls = some c) (within : db.signature.PermissionsWithin (.given cls e))
    (h : p ∈ db.permissionBits c e) : p < db.permissionCount c := by
  obtain ⟨shape, link, leaves⟩ := within
  cases (congrArg (Option.map db.classShape) hc).symm.trans link
  rcases Expr.Denotes.bounded e (mem_permissionBits.mp h) with whole | ⟨id, hid, rfl⟩
  · exact whole
  · exact leaves p hid

theorem Closed.permissionTargets_inside (closed : db.Closed) {ref : ClassPerms Id}
    (within : db.signature.PermissionsWithin ref) :
    ∀ node ∈ db.permissionTargets ref, db.NodeInside node := by
  intro node hnode
  cases ref with
  | named id =>
    cases List.mem_singleton.mp hnode
    exact within
  | given cls e =>
    rw [permissionTargets] at hnode
    cases hc : db.classes.value? cls with
    | none => simp [hc] at hnode
    | some c =>
      simp only [hc] at hnode
      split at hnode
      · rename_i isMap
        obtain ⟨p, hp, rfl⟩ := List.mem_map.mp hnode
        have selected := (BitSet.mem_toList (wellFormed_permissionBits c e)).mp hp
        have inside := lt_permissionCount hc within selected
        rw [closed.permissionCount_map hc isMap] at inside
        exact ⟨c, hc, isMap, inside⟩
      · cases hnode

theorem Closed.permissionRefs_within (closed : db.Closed) (node : PermissionNode) :
    ∀ ref ∈ db.permissionRefs node, db.signature.PermissionsWithin ref := by
  intro ref href
  cases node with
  | set id =>
    obtain ⟨refs, hrefs, href⟩ := mem_permissionRefs_set.mp href
    exact closed.within.classPermissions id refs hrefs ref href
  | mapped cls p =>
    cases hc : db.classes.value? cls with
    | none => simp [permissionRefs, hc] at href
    | some c =>
      obtain ⟨refs, hrefs, href⟩ := (mem_permissionRefs_mapped hc).mp href
      exact closed.within.mappings cls c hc p refs hrefs ref href

theorem mem_permissionNodes_inside {node : PermissionNode} (h : node ∈ db.permissionNodes) :
    db.NodeInside node := by
  rw [permissionNodes, List.mem_append] at h
  rcases h with h | h
  · obtain ⟨id, hid, rfl⟩ := List.mem_map.mp h
    exact List.mem_range.mp hid
  · obtain ⟨⟨cls, d⟩, hd, hnode⟩ := List.mem_flatMap.mp h
    obtain ⟨hd, isMap⟩ := List.mem_filter.mp hd
    obtain ⟨p, hp, rfl⟩ := List.mem_map.mp hnode
    have hc : db.classes.value? cls = some d.value :=
      Registry.value?_eq_some.mpr ⟨d, Registry.mem_indexed.mp hd, rfl⟩
    exact ⟨d.value, hc, isMap, List.mem_range.mp hp⟩

/-- The leaves of the sets of a declaration have what all leaves of sets have. -/
theorem mem_attributesIn {sets : List (Expr Id)} {isAttribute : Id → Bool} {p : Id → Prop} {id : Id}
    (leaves : ∀ e ∈ sets, ∀ id ∈ e.leaves, p id) (h : id ∈ attributesIn sets isAttribute) : p id := by
  obtain ⟨e, he, hid⟩ := List.mem_flatMap.mp (List.mem_filter.mp h).1
  exact leaves e he id hid

theorem Closed.cyclesInside (closed : db.Closed) : db.CyclesInside where
  userBounds := by
    intro start inside steps place
    refine Graph.walk_holds (p := (· < db.users.size)) (fun a b _ hb => ?_) inside
    obtain ⟨u, hu, hbounds⟩ := Option.bind_eq_some_iff.mp hb
    have bound := (closed.within.users a u hu).bounds b hbounds
    obtain ⟨v, hv, _⟩ := Option.map_eq_some_iff.mp bound
    exact Registry.lt_of_value? hv
  roleBounds := by
    intro start inside steps place
    refine Graph.walk_holds (p := (· < db.roles.size)) (fun a b _ hb => ?_) inside
    obtain ⟨r, hr, hbounds⟩ := Option.bind_eq_some_iff.mp hb
    have bound := (closed.within.roles a r hr).bounds b hbounds
    obtain ⟨v, hv, _⟩ := Option.map_eq_some_iff.mp bound
    exact Registry.lt_of_value? hv
  typeBounds := by
    intro start inside steps place
    refine Graph.walk_holds (p := (· < db.types.size)) (fun a b _ hb => ?_) inside
    obtain ⟨t, ht, hbounds⟩ := Option.bind_eq_some_iff.mp hb
    obtain ⟨actual, bound⟩ := (closed.within.types a t ht).bounds b hbounds
    obtain ⟨v, hv, _⟩ := Option.map_eq_some_iff.mp bound
    exact Registry.lt_of_value? hv
  types := by
    intro id t ht
    refine mem_attributesIn ?_ ht
    cases hinfo : db.types.value? id with
    | none => simp
    | some info => exact (closed.within.types id info hinfo).sets
  roles := by
    intro id r hr
    refine mem_attributesIn ?_ hr
    cases hinfo : db.roles.value? id with
    | none => simp
    | some info => exact (closed.within.roles id info hinfo).sets
  users := by
    intro id u hu
    refine mem_attributesIn ?_ hu
    cases hinfo : db.users.value? id with
    | none => simp
    | some info => exact (closed.within.users id info hinfo).sets
  categories := by
    intro id c hc
    refine mem_attributesIn ?_ hc
    cases hinfo : db.categories.value? id with
    | none => simp
    | some info =>
      intro e he
      exact closed.within.categories id info hinfo e (Option.mem_toList.mp he)
  permissionNodes := fun _ => mem_permissionNodes_inside
  permissionRefs := closed.permissionRefs_within
  permissionNext := by
    intro node next hnext
    obtain ⟨ref, href, hnext⟩ := List.mem_flatMap.mp hnext
    exact closed.permissionTargets_inside (closed.permissionRefs_within node ref href) next hnext

/-! ### Sets -/

/-- What types, roles and users stand for are concrete ones. -/
structure SetsInside (db : Database) : Prop where
  types : ∀ id, ∀ n ∈ (Member.expandAll db.typeMembers).getD id ∅, db.signature.IsConcreteType n
  roles : ∀ id, ∀ n ∈ (Member.expandAll db.roleMembers).getD id ∅, db.signature.roles n = some false
  users : ∀ id, ∀ n ∈ (Member.expandAll db.userMembers).getD id ∅, db.signature.users n = some false

theorem isConcreteType_of_mem {n : Id} (h : n ∈ Member.concretes db.typeMembers) :
    db.signature.IsConcreteType n := by
  have member := Member.mem_concretes.mp h
  rw [typeMembers, Array.getElem?_map] at member
  obtain ⟨d, hd, kind⟩ := Option.map_eq_some_iff.mp member
  have hvalue : db.types.value? n = some d.value := Registry.value?_eq_some.mpr ⟨d, hd, rfl⟩
  refine ⟨d.value.actual, (congrArg (Option.map _) hvalue).trans ?_⟩
  cases hkind : d.value.kind with
  | concrete => exact congrArg (fun k => some (k, d.value.actual)) hkind
  | aliasName => simp [hkind] at kind
  | attr => simp [hkind] at kind

theorem isConcreteRole_of_mem {n : Id} (h : n ∈ Member.concretes db.roleMembers) :
    db.signature.roles n = some false := by
  have member := Member.mem_concretes.mp h
  rw [roleMembers, Array.getElem?_map] at member
  obtain ⟨d, hd, kind⟩ := Option.map_eq_some_iff.mp member
  have hvalue : db.roles.value? n = some d.value := Registry.value?_eq_some.mpr ⟨d, hd, rfl⟩
  refine (congrArg (Option.map _) hvalue).trans ?_
  cases hattr : d.value.isAttribute with
  | false => exact congrArg some hattr
  | true => simp [hattr] at kind

theorem isConcreteUser_of_mem {n : Id} (h : n ∈ Member.concretes db.userMembers) :
    db.signature.users n = some false := by
  have member := Member.mem_concretes.mp h
  rw [userMembers, Array.getElem?_map] at member
  obtain ⟨d, hd, kind⟩ := Option.map_eq_some_iff.mp member
  have hvalue : db.users.value? n = some d.value := Registry.value?_eq_some.mpr ⟨d, hd, rfl⟩
  refine (congrArg (Option.map _) hvalue).trans ?_
  cases hattr : d.value.isAttribute with
  | false => exact congrArg some hattr
  | true => simp [hattr] at kind

theorem setsInside (db : Database) : db.SetsInside where
  types id n hn := isConcreteType_of_mem ((Member.allWithin_expandAll _ id).inside n hn)
  roles id n hn := isConcreteRole_of_mem ((Member.allWithin_expandAll _ id).inside n hn)
  users id n hn := isConcreteUser_of_mem ((Member.allWithin_expandAll _ id).inside n hn)

/-! ### Levels and contexts -/

theorem Closed.levelSpec (closed : db.Closed) {level : LevelArg Id} (within : db.signature.LevelWithin level)
    {spec : LevelSpec Id} (h : db.levelSpec? level = some spec) : db.signature.LevelSpecWithin spec := by
  cases level with
  | named id => exact closed.within.levels id (some spec) (Option.join_eq_some_iff.mp h) spec rfl
  | given given =>
    cases h
    exact within

theorem Closed.rangeSpec (closed : db.Closed) {range : RangeArg Id} (within : db.signature.RangeWithin range)
    {spec : RangeSpec Id} (h : db.rangeSpec? range = some spec) : db.signature.RangeSpecWithin spec := by
  cases range with
  | named id => exact closed.within.ranges id (some spec) (Option.join_eq_some_iff.mp h) spec rfl
  | given given =>
    cases h
    exact within

theorem Closed.contextSpec (closed : db.Closed) {context : ContextArg Id}
    (within : db.signature.ContextWithin context) {spec : ContextSpec Id}
    (h : db.contextSpec? context = some spec) : db.signature.ContextSpecWithin spec := by
  cases context with
  | named id => exact closed.within.contexts id (some spec) (Option.join_eq_some_iff.mp h) spec rfl
  | given given =>
    cases h
    exact within

theorem Closed.extendedSpec (closed : db.Closed) {permissions : ExtendedArg Id BitSet}
    (within : db.signature.ExtendedWithin permissions) {spec : ExtendedSpec Id BitSet}
    (h : db.extendedSpec? permissions = some spec) : db.signature.IsKernelClass spec.cls := by
  cases permissions with
  | named id => exact closed.within.extendedSets id (some spec) (Option.join_eq_some_iff.mp h) spec rfl
  | given given =>
    cases h
    exact within

/-- Sorting the labels leaves the database closed. -/
theorem Closed.evaluated {db : OrderedDatabase} {repeats : Bool} (closed : db.Closed) :
    Database.Closed { db.toDatabase with labels := (db.sortedLabels repeats).1 } where
  within := { closed.within with labels := sortedLabels_allContexts closed.within.labels }
  aliases := closed.aliases
  commons := closed.commons
  permissions := closed.permissions

end Database

/-- The runs of any numbers go upwards. -/
theorem runs_ascend {numbers : List Nat} : ∀ run ∈ runs numbers, run.1 ≤ run.2 := by
  induction numbers with
  | nil => simp [runs]
  | cons n ns ih =>
    rw [runs]
    split
    · rename_i first last rest found
      rw [found] at ih
      split
      · rename_i next
        intro run hrun
        rcases List.mem_cons.mp hrun with rfl | hrun
        · have upwards := ih (first, last) List.mem_cons_self
          dsimp only at upwards ⊢
          omega
        · exact ih run (List.mem_cons_of_mem _ hrun)
      · intro run hrun
        rcases List.mem_cons.mp hrun with rfl | hrun
        · exact Nat.le_refl n
        · exact ih run hrun
    · intro run hrun
      cases List.mem_singleton.mp hrun
      exact Nat.le_refl n

namespace EvaluatedDatabase

variable {db : EvaluatedDatabase}

/-- What a level comes to is declared: its sensitivity, and the categories at its positions. -/
structure LevelInside (db : EvaluatedDatabase) (v : LevelValue) : Prop where
  sensitivity : db.signature.IsSensitivity v.sensitivity
  categories : ∀ n ∈ v.categories, ∃ id, db.orders.categories[n]? = some id ∧
    db.signature.IsPlainCategory id

/-- References lead to what is declared, and evaluated levels and sets have declarations only. -/
structure ChecksInside (db : EvaluatedDatabase) : Prop where
  levelSpecs : ∀ level, db.signature.LevelWithin level → ∀ spec, db.levelSpec? level = some spec →
    db.signature.LevelSpecWithin spec
  rangeSpecs : ∀ range, db.signature.RangeWithin range → ∀ spec, db.rangeSpec? range = some spec →
    db.signature.RangeSpecWithin spec
  contextSpecs : ∀ context, db.signature.ContextWithin context → ∀ spec,
    db.contextSpec? context = some spec → db.signature.ContextSpecWithin spec
  extendedSpecs : ∀ permissions, db.signature.ExtendedWithin permissions → ∀ spec,
    db.extendedSpec? permissions = some spec → db.signature.IsKernelClass spec.cls
  levels : ∀ level, db.signature.LevelWithin level → ∀ v, db.evalLevel level = .ok v → db.LevelInside v
  ranges : ∀ range, db.signature.RangeWithin range → ∀ v, db.evalRange range = .ok v →
    db.LevelInside v.1 ∧ db.LevelInside v.2
  runs : ∀ v : LevelValue, ∀ run ∈ runs v.categories.toList, run.1 ≤ run.2
  types : ∀ id, ∀ n ∈ db.expandType id, db.signature.IsConcreteType n
  roles : ∀ id, ∀ n ∈ db.expandRole id, db.signature.roles n = some false
  roleTypes : ∀ role, ∀ n ∈ db.roleTypes.getD role ∅, db.signature.IsConcreteType n
  userRoles : ∀ user, ∀ n ∈ db.userRoles.getD user ∅, db.signature.roles n = some false

theorem levelInside (closed : db.Closed) (orders : db.OrdersInside)
    (known : KnownWithin db.categoryWhole db.categorySets) {level : LevelArg Id}
    (within : db.signature.LevelWithin level) {v : LevelValue} (h : db.evalLevel level = .ok v) :
    db.LevelInside v := by
  rw [evalLevel] at h
  split at h
  · cases h
  · rename_i hspec
    cases h
    exact ⟨(closed.levelSpec within hspec).sensitivity, by simp⟩
  · rename_i hspec
    obtain ⟨categories, hcategories, h⟩ := bind_eq_ok.mp h
    cases h
    refine ⟨(closed.levelSpec within hspec).sensitivity, fun n hn => ?_⟩
    have inside := BitSet.mem_below.mp ((OrderedDatabase.within_categoryBits known hcategories).inside n hn)
    have found := List.getElem?_eq_getElem inside
    exact ⟨_, found, orders.categories _ (List.mem_of_getElem? found)⟩

theorem checksInside (closed : db.Closed) (orders : db.OrdersInside) (evaluated : db.Evaluated)
    (known : KnownWithin db.categoryWhole db.categorySets) : db.ChecksInside where
  levelSpecs _ within _ := closed.levelSpec within
  rangeSpecs _ within _ := closed.rangeSpec within
  contextSpecs _ within _ := closed.contextSpec within
  extendedSpecs _ within _ := closed.extendedSpec within
  levels _ within _ := levelInside closed orders known within
  ranges := by
    intro range within v h
    rw [evalRange] at h
    split at h
    · cases h
    · rename_i hspec
      obtain ⟨low, high⟩ := closed.rangeSpec within hspec
      obtain ⟨first, hfirst, h⟩ := bind_eq_ok.mp h
      obtain ⟨second, hsecond, h⟩ := bind_eq_ok.mp h
      cases h
      exact ⟨levelInside closed orders known low hfirst, levelInside closed orders known high hsecond⟩
  runs _ := runs_ascend
  types id n hn := Database.isConcreteType_of_mem ((evaluated.within_expandType id).inside n hn)
  roles := by
    intro id n hn
    rw [expandRole, evaluated.roles] at hn
    exact Database.isConcreteRole_of_mem ((Member.allWithin_expandAll _ id).inside n hn)
  roleTypes role n hn := Database.isConcreteType_of_mem ((evaluated.within_roleTypes role).inside n hn)
  userRoles user n hn := Database.isConcreteRole_of_mem ((evaluated.within_userRoles user).inside n hn)

end EvaluatedDatabase

end CilPolicy
