import CilPolicy.Proofs.Evaluation.CategoryMeaning
import CilPolicy.Proofs.Evaluation.Demand
import CilPolicy.Proofs.Lowering.Inside

/-!
# Definitions that run in a circle

Class permissions lead to class permissions, and attributes and category sets stand in one
another. The checks before evaluation find a circle exactly when there is one. Without a
circle every evaluation comes to an end: no chain of calls is endless, the bounds of the
evaluations are never felt, and no attribute is asked for while it is evaluated.
-/

namespace CilPolicy

/-- The report gives the faults: the first is what it ends with, the others are left as
messages. -/
def Report.Rejects (r : Report Unit) (faults : List Diagnostic) : Prop :=
  r.outcome = match faults with
    | [] => (.ok (), [])
    | first :: others => (.error first, others.map fun d => ⟨.error, d.message⟩)

theorem Report.rejects_reject (faults : List Diagnostic) : (reject faults).Rejects faults := by
  cases faults with
  | nil => rfl
  | cons first others =>
    have messages : ∀ before : List Message, (others.forM fun d => error d.message).run.run before =
        (.ok (), before ++ others.map fun d => ⟨.error, d.message⟩) := by
      induction others with
      | nil =>
        intro before
        rw [List.map_nil, List.append_nil]
        rfl
      | cons d rest ih =>
        intro before
        refine (ih (before ++ [⟨.error, d.message⟩])).trans ?_
        rw [List.map_cons, List.append_assoc, List.singleton_append]
    have run := messages []
    simp only [Rejects, reject, outcome]
    rw [ExceptT.run_bind]
    change StateT.run (ExceptT.run (others.forM fun d => error d.message) >>= _) [] = _
    rw [StateT.run_bind, run]
    rfl

/-- The fault is a class permission that expands into itself. -/
def Diagnostic.TellsCircle : Diagnostic → Prop
  | .violation (.circularSet _) _ | .violation (.circularMap _ _) _ => True
  | _ => False

/-- The fault is an attribute or category set that contains itself. -/
def Diagnostic.TellsSelfReference : Diagnostic → Prop
  | .violation (.selfReference _) _ => True
  | _ => False

/-! ### Class permissions -/

namespace Database

/-- The reference names a set, or a permission of a map that its expression selects. -/
inductive RefersTo (db : Database) : ClassPerms Id → PermissionNode → Prop where
  | set (id : Id) : RefersTo db (.named id) (.set id)
  | mapped {map permission : Id} {c : ClassInfo} {e : Expr Id} (declared : db.classes.value? map = some c)
      (isMap : c.isMap = true) (selected : db.Selects c e permission) :
      RefersTo db (.given map e) (.mapped map permission)

/-- The reference is one of those given for a set, or for a permission of a map. -/
inductive Behind (db : Database) : PermissionNode → ClassPerms Id → Prop where
  | set {id : Id} {refs : List (ClassPerms Id)} {ref : ClassPerms Id}
      (declared : db.classPermissions.value? id = some refs) (member : ref ∈ refs) : Behind db (.set id) ref
  | mapped {map permission : Id} {c : ClassInfo} {refs : List (ClassPerms Id)} {ref : ClassPerms Id}
      (declared : db.classes.value? map = some c) (mapping : c.permissions.value? permission = some refs)
      (member : ref ∈ refs) : Behind db (.mapped map permission) ref

/-- A set or mapped permission leads to another through one of its references. -/
def Leads (db : Database) (a b : PermissionNode) : Prop :=
  ∃ ref, db.Behind a ref ∧ db.RefersTo ref b

/-- The expansion of a reference needs that of another. -/
def Needs (db : Database) (outer inner : ClassPerms Id) : Prop :=
  ∃ node, db.RefersTo outer node ∧ db.Behind node inner

variable {db : Database}

theorem refersTo_iff {ref : ClassPerms Id} {node : PermissionNode} :
    db.RefersTo ref node ↔ node ∈ db.permissionTargets ref := by
  cases ref with
  | named id =>
    rw [permissionTargets, List.mem_singleton]
    constructor
    · rintro ⟨⟩
      rfl
    · rintro rfl
      exact .set id
  | given map e =>
    constructor
    · rintro (_ | ⟨declared, isMap, selected⟩)
      exact (mem_permissionTargets_map declared isMap).mpr ⟨_, selected, rfl⟩
    · intro h
      cases declared : db.classes.value? map with
      | none => simp [permissionTargets, declared] at h
      | some c =>
        cases isMap : c.isMap with
        | false => simp [permissionTargets, declared, isMap] at h
        | true =>
          obtain ⟨permission, selected, rfl⟩ := (mem_permissionTargets_map declared isMap).mp h
          exact .mapped declared isMap selected

theorem behind_iff {node : PermissionNode} {ref : ClassPerms Id} :
    db.Behind node ref ↔ ref ∈ db.permissionRefs node := by
  cases node with
  | set id =>
    rw [mem_permissionRefs_set]
    constructor
    · rintro ⟨declared, member⟩
      exact ⟨_, declared, member⟩
    · rintro ⟨refs, declared, member⟩
      exact .set declared member
  | mapped map permission =>
    constructor
    · rintro (_ | ⟨declared, mapping, member⟩)
      exact (mem_permissionRefs_mapped declared).mpr ⟨_, mapping, member⟩
    · intro h
      cases declared : db.classes.value? map with
      | none => simp [permissionRefs, declared] at h
      | some c =>
        obtain ⟨refs, mapping, member⟩ := (mem_permissionRefs_mapped declared).mp h
        exact .mapped declared mapping member

theorem leads_iff {a b : PermissionNode} : db.Leads a b ↔ b ∈ db.permissionNext a := by
  simp only [Leads, behind_iff, refersTo_iff, permissionNext, List.mem_flatMap]

theorem needs_iff {outer inner : ClassPerms Id} :
    db.Needs outer inner ↔ ∃ node ∈ db.permissionTargets outer, inner ∈ db.permissionRefs node := by
  simp only [Needs, behind_iff, refersTo_iff]

end Database

/-! ### Containment -/

/-- One of the sets of the declaration `outer` names the group `inner`. -/
def Registry.Contains {α : Type} (r : Registry α) (sets : α → List (Expr Id)) (isGroup : α → Bool)
    (outer inner : Id) : Prop :=
  ∃ a b, r.value? outer = some a ∧ (∃ e ∈ sets a, inner ∈ e.leaves) ∧ r.value? inner = some b ∧ isGroup b = true

section Containment

variable {α : Type} {r : Registry α} {sets : α → List (Expr Id)} {isGroup : α → Bool} {next : Id → List Id}

/-- The search follows the groups that stand in the sets of a declaration. -/
def FollowsGroups (r : Registry α) (sets : α → List (Expr Id)) (isGroup : α → Bool) (next : Id → List Id) : Prop :=
  ∀ id, next id = Database.attributesIn (((r.value? id).map sets).getD []) fun g => r.test g isGroup

theorem FollowsGroups.contains_iff (follows : FollowsGroups r sets isGroup next) {outer inner : Id} :
    r.Contains sets isGroup outer inner ↔ inner ∈ next outer := by
  rw [follows, Database.attributesIn, List.mem_filter, List.mem_flatMap, Registry.test_iff]
  constructor
  · rintro ⟨a, b, ha, hinner, hb, group⟩
    exact ⟨by simpa [ha] using hinner, b, hb, group⟩
  · rintro ⟨hinner, b, hb, group⟩
    cases ha : r.value? outer with
    | none => simp [ha] at hinner
    | some a => exact ⟨a, b, ha, by simpa [ha] using hinner, hb, group⟩

theorem FollowsGroups.reached (follows : FollowsGroups r sets isGroup next) (a : Id) :
    ∀ child ∈ next a, next child ≠ [] → child ∈ List.range r.size := by
  intro child hchild _
  obtain ⟨_, b, _, _, hb, _⟩ := follows.contains_iff.mpr hchild
  exact List.mem_range.mpr (Registry.lt_of_value? hb)

theorem FollowsGroups.exists_layered (follows : FollowsGroups r sets isGroup next)
    (acyclic : Graph.findCycle (List.range r.size) next = none) (member : α → Member)
    (attrs : ∀ a s, member a = .attr s → s = sets a ∧ isGroup a = true)
    (plain : ∀ id a, r.value? id = some a → ∀ e ∈ sets a, ∀ leaf ∈ e.leaves, ∀ b,
      r.value? leaf = some b → ∀ actual, member b ≠ .aliasName actual)
    (aliases : ∀ id a actual, r.value? id = some a → member a = .aliasName actual →
      ∃ x b, actual = some x ∧ r.value? x = some b ∧ (member b = .concrete ∨ ∃ s, member b = .attr s)) :
    ∃ layer, Member.Layered (r.entries.map fun d => member d.value) layer := by
  have entry : ∀ id : Nat, (r.entries.map fun d => member d.value)[id]? = (r.value? id).map member := by
    intro id
    rw [Array.getElem?_map, Registry.value?, Registry.get?, Option.map_map]
    rfl
  obtain ⟨layer, bounded, below⟩ := Graph.exists_level_of_findCycle (fun a _ => follows.reached a) acyclic
  rw [List.length_range] at bounded
  refine ⟨layer, ?_, ?_, ?_, ?_⟩
  · intro id s h
    rw [entry] at h
    obtain ⟨a, ha, _⟩ := Option.map_eq_some_iff.mp h
    rw [Array.size_map]
    exact bounded id (List.mem_range.mpr (Registry.lt_of_value? ha))
  · intro id s h e he leaf hleaf inner found
    rw [entry] at h found
    obtain ⟨a, ha, hs⟩ := Option.map_eq_some_iff.mp h
    obtain ⟨b, hb, hinner⟩ := Option.map_eq_some_iff.mp found
    cases (attrs a s hs).1
    have contained : r.Contains sets isGroup id leaf := ⟨a, b, ha, ⟨e, he, hleaf⟩, hb, (attrs b inner hinner).2⟩
    exact below id (List.mem_range.mpr (Registry.lt_of_value? ha)) leaf (follows.contains_iff.mp contained)
      (List.mem_range.mpr (Registry.lt_of_value? hb))
  · intro id s h e he leaf hleaf actual found
    rw [entry] at h found
    obtain ⟨a, ha, hs⟩ := Option.map_eq_some_iff.mp h
    obtain ⟨b, hb, named⟩ := Option.map_eq_some_iff.mp found
    cases (attrs a s hs).1
    exact plain id a ha e he leaf hleaf b hb actual named
  · intro id actual h
    rw [entry] at h
    obtain ⟨a, ha, named⟩ := Option.map_eq_some_iff.mp h
    obtain ⟨x, b, hx, hb, kind⟩ := aliases id a actual ha named
    refine ⟨x, hx, ?_⟩
    rw [entry, hb]
    exact kind.imp (congrArg some) fun group => group.imp fun _ hs => congrArg some hs

/-- A self-reference is found exactly when groups contain one another in a circle. -/
theorem FollowsGroups.selfReference_eq_nil_iff (follows : FollowsGroups r sets isGroup next) :
    Database.selfReference r next = [] ↔ ¬ Graph.Circular (r.Contains sets isGroup) := by
  have same : r.Contains sets isGroup = fun a b => b ∈ next a := by
    funext a b
    exact propext follows.contains_iff
  rw [same, ← Graph.findCycle_eq_none_iff follows.reached, Database.selfReference]
  split
  · rename_i found
    simp [found]
  · rename_i found
    simp [found]

end Containment

namespace Database

variable {db : Database}

theorem followsGroups_types : FollowsGroups db.types (·.sets) (·.isAttribute) db.typeNext := fun _ => rfl

theorem followsGroups_roles : FollowsGroups db.roles (·.sets) (·.isAttribute) db.roleNext := fun _ => rfl

theorem followsGroups_users : FollowsGroups db.users (·.sets) (·.isAttribute) db.userNext := fun _ => rfl

theorem followsGroups_categories :
    FollowsGroups db.categories (·.members.toList) (·.kind == .set) db.categoryNext := by
  intro id
  rw [categoryNext]
  cases db.categories.value? id <;> rfl

/-- Class permissions lead to one another in a circle. -/
def PermissionsCircular (db : Database) : Prop :=
  Graph.Circular db.Leads

/-- Attributes of types, roles or users, or category sets, contain one another in a circle. -/
def SetsCircular (db : Database) : Prop :=
  Graph.Circular (db.types.Contains (·.sets) (·.isAttribute)) ∨
    Graph.Circular (db.roles.Contains (·.sets) (·.isAttribute)) ∨
    Graph.Circular (db.users.Contains (·.sets) (·.isAttribute)) ∨
    Graph.Circular (db.categories.Contains (·.members.toList) (·.kind == .set))

theorem mem_permissionNodes_of_next (a : PermissionNode) :
    ∀ child ∈ db.permissionNext a, db.permissionNext child ≠ [] → child ∈ db.permissionNodes := by
  intro child hchild used
  obtain ⟨ref, _, target⟩ := List.mem_flatMap.mp hchild
  refine mem_permissionTargets target fun none => used ?_
  rw [permissionNext, none]
  rfl

theorem findCycle_permissions_iff :
    Graph.findCycle db.permissionNodes db.permissionNext = none ↔ ¬ db.PermissionsCircular := by
  have same : db.Leads = fun a b => b ∈ db.permissionNext a := by
    funext a b
    exact propext leads_iff
  rw [Graph.findCycle_eq_none_iff mem_permissionNodes_of_next, PermissionsCircular, same]

theorem permissionCycle_eq_nil_iff : db.permissionCycle = [] ↔ ¬ db.PermissionsCircular := by
  rw [← findCycle_permissions_iff, permissionCycle]
  split <;> simp_all

/-- The faults of the sets of all kinds. -/
def selfReferences (db : Database) : List Diagnostic :=
  selfReference db.types db.typeNext ++ selfReference db.roles db.roleNext
    ++ selfReference db.users db.userNext ++ selfReference db.categories db.categoryNext

theorem selfReferences_eq_nil_iff : db.selfReferences = [] ↔ ¬ db.SetsCircular := by
  simp only [selfReferences, List.append_eq_nil_iff, followsGroups_types.selfReference_eq_nil_iff,
    followsGroups_roles.selfReference_eq_nil_iff, followsGroups_users.selfReference_eq_nil_iff,
    followsGroups_categories.selfReference_eq_nil_iff, SetsCircular, not_or, and_assoc]

/-! ### Faults -/

theorem tells_of_mem_permissionCycle {d : Diagnostic} (h : d ∈ db.permissionCycle) :
    d.TellsCircle ∧ ¬ d.TellsSelfReference := by
  rw [permissionCycle] at h
  split at h
  · cases h
  · cases List.mem_singleton.mp h
    exact ⟨trivial, not_false⟩
  · cases List.mem_singleton.mp h
    exact ⟨trivial, not_false⟩

theorem tells_of_mem_selfReference {α : Type} {r : Registry α} {next : Id → List Id} {d : Diagnostic}
    (h : d ∈ selfReference r next) : ¬ d.TellsCircle ∧ d.TellsSelfReference := by
  rw [selfReference] at h
  split at h
  · cases h
  · cases List.mem_singleton.mp h
    exact ⟨not_false, trivial⟩

theorem tells_of_mem_selfReferences {d : Diagnostic} (h : d ∈ db.selfReferences) :
    ¬ d.TellsCircle ∧ d.TellsSelfReference := by
  simp only [selfReferences, List.mem_append] at h
  rcases h with ((h | h) | h) | h <;> exact tells_of_mem_selfReference h

/-- Faults of users, of maps and of empty sets tell of no circle between definitions. -/
theorem tells_nothing {d : Diagnostic} (h : d ∈ db.userFaults ++ db.mapFaults ++ db.emptySetFaults) :
    ¬ d.TellsCircle ∧ ¬ d.TellsSelfReference := by
  rw [List.mem_append, List.mem_append] at h
  rcases h with (h | h) | h
  · obtain ⟨⟨id, u⟩, _, h⟩ := List.mem_flatMap.mp h
    simp only [List.mem_append] at h
    rcases h with (h | h) | h <;> split at h <;> simp at h <;> subst h <;> exact ⟨not_false, not_false⟩
  · obtain ⟨c, _, h⟩ := List.mem_flatMap.mp h
    obtain ⟨p, _, rfl⟩ := List.mem_map.mp h
    exact ⟨not_false, not_false⟩
  · obtain ⟨c, _, rfl⟩ := List.mem_map.mp h
    exact ⟨not_false, not_false⟩

/-- A fault tells of a circle between class permissions, of one between sets, or of neither. -/
theorem mem_preliminaryFaults {d : Diagnostic} (h : d ∈ db.preliminaryFaults) :
    (¬ d.TellsCircle ∧ ¬ d.TellsSelfReference) ∨
      (d.TellsCircle ∧ ¬ d.TellsSelfReference ∧ db.PermissionsCircular) ∨
      (¬ d.TellsCircle ∧ d.TellsSelfReference ∧ db.SetsCircular) := by
  have parts : db.preliminaryFaults = (db.userFaults ++ db.mapFaults ++ db.emptySetFaults) ++
      (db.permissionCycle ++ db.selfReferences) := by
    simp only [preliminaryFaults, selfReferences, List.append_assoc]
  rw [parts] at h
  rcases List.mem_append.mp h with h | h
  · exact Or.inl (tells_nothing h)
  rcases List.mem_append.mp h with h | h
  · have circular : db.PermissionsCircular := by
      by_contra none
      exact List.ne_nil_of_mem h (permissionCycle_eq_nil_iff.mpr none)
    obtain ⟨tells, other⟩ := tells_of_mem_permissionCycle h
    exact Or.inr (Or.inl ⟨tells, other, circular⟩)
  · have circular : db.SetsCircular := by
      by_contra none
      exact List.ne_nil_of_mem h (selfReferences_eq_nil_iff.mpr none)
    obtain ⟨other, tells⟩ := tells_of_mem_selfReferences h
    exact Or.inr (Or.inr ⟨other, tells, circular⟩)

theorem exists_tellsCircle_iff : (∃ d ∈ db.preliminaryFaults, d.TellsCircle) ↔ db.PermissionsCircular := by
  constructor
  · rintro ⟨d, hd, tells⟩
    rcases mem_preliminaryFaults hd with ⟨quiet, _⟩ | ⟨_, _, circular⟩ | ⟨other, _⟩
    · exact absurd tells quiet
    · exact circular
    · exact absurd tells other
  · intro circular
    obtain ⟨d, hd⟩ := List.exists_mem_of_ne_nil _ (mt permissionCycle_eq_nil_iff.mp (not_not_intro circular))
    refine ⟨d, ?_, (tells_of_mem_permissionCycle hd).1⟩
    simp only [preliminaryFaults, List.mem_append]
    tauto

theorem exists_tellsSelfReference_iff :
    (∃ d ∈ db.preliminaryFaults, d.TellsSelfReference) ↔ db.SetsCircular := by
  constructor
  · rintro ⟨d, hd, tells⟩
    rcases mem_preliminaryFaults hd with ⟨_, quiet⟩ | ⟨_, other, _⟩ | ⟨_, _, circular⟩
    · exact absurd tells quiet
    · exact absurd tells other
    · exact circular
  · intro circular
    obtain ⟨d, hd⟩ := List.exists_mem_of_ne_nil _ (mt selfReferences_eq_nil_iff.mp (not_not_intro circular))
    refine ⟨d, ?_, (tells_of_mem_selfReferences hd).2⟩
    simp only [preliminaryFaults, selfReferences, List.mem_append] at hd ⊢
    tauto

/-! ### Evaluation -/

/-- What a reference expands to, given what others expand to. -/
def expandOnce (db : Database) (inner : ClassPerms Id → List ClassGrant) : ClassPerms Id → List ClassGrant
  | .given cls permissions =>
    if db.classes.test cls (·.isMap) then
      (db.permissionTargets (.given cls permissions)).flatMap fun node => (db.permissionRefs node).flatMap inner
    else [⟨cls, permissionWord (db.permissionBitsOf cls permissions)⟩]
  | .named id => (db.permissionRefs (.set id)).flatMap inner

theorem leafGrants_succ (fuel : Nat) : db.leafGrants (fuel + 1) = db.expandOnce (db.leafGrants fuel) := by
  funext ref
  cases ref <;> rfl

theorem expandOnce_congr {a b : ClassPerms Id → List ClassGrant} {ref : ClassPerms Id}
    (same : ∀ inner, db.Needs ref inner → a inner = b inner) : db.expandOnce a ref = db.expandOnce b ref := by
  have eachNode : ∀ node ∈ db.permissionTargets ref,
      (db.permissionRefs node).flatMap a = (db.permissionRefs node).flatMap b := by
    intro node target
    exact List.flatMap_congr fun inner member => same inner (needs_iff.mpr ⟨node, target, member⟩)
  cases ref with
  | named id => exact eachNode (.set id) (List.mem_singleton.mpr rfl)
  | given cls e =>
    unfold expandOnce
    dsimp only
    split
    · exact List.flatMap_congr eachNode
    · rfl

/-- The bound of an expansion is not felt. -/
theorem leafGrants_eq {level : PermissionNode → Nat}
    (down : ∀ node ∈ db.permissionNodes, ∀ child ∈ db.permissionNext node,
      child ∈ db.permissionNodes → level child < level node)
    {fuel : Nat} {ref : ClassPerms Id} (enough : db.Reaches level fuel ref) :
    db.leafGrants fuel ref = db.leafGrants (fuel + 1) ref := by
  induction fuel generalizing ref with
  | zero => exact absurd enough.1 (Nat.lt_irrefl 0)
  | succ fuel ih =>
    rw [leafGrants_succ, leafGrants_succ (fuel + 1)]
    refine expandOnce_congr fun inner needed => ih ?_
    obtain ⟨node, target, member⟩ := needs_iff.mp needed
    have listed := mem_permissionTargets target (List.ne_nil_of_mem member)
    have bound := enough.2 node target listed
    refine ⟨by omega, fun child hchild inside => ?_⟩
    have lower := down node listed child (List.mem_flatMap.mpr ⟨inner, member, hchild⟩) inside
    omega

theorem leafGrants_eq_expandOnce (acyclic : Graph.findCycle db.permissionNodes db.permissionNext = none) :
    db.leafGrants (db.permissionNodes.length + 1) =
      db.expandOnce (db.leafGrants (db.permissionNodes.length + 1)) := by
  obtain ⟨level, bounded, down⟩ := Graph.exists_level_of_findCycle closedUnder_permissionNext acyclic
  funext ref
  rw [← leafGrants_succ]
  exact leafGrants_eq down ⟨Nat.succ_pos _, fun node _ listed => Nat.succ_lt_succ (bounded node listed)⟩

/-- No chain of expansions is endless. -/
theorem wellFounded_needs (acyclic : Graph.findCycle db.permissionNodes db.permissionNext = none) :
    WellFounded fun inner outer => db.Needs outer inner := by
  have nodes := Graph.wellFounded_of_findCycle mem_permissionNodes_of_next acyclic
  have behind : ∀ node, ∀ ref ∈ db.permissionRefs node, Acc (fun inner outer => db.Needs outer inner) ref := by
    intro node
    induction node using nodes.induction with
    | _ node ih =>
      refine fun ref member => Acc.intro ref fun inner needed => ?_
      obtain ⟨child, target, member'⟩ := needs_iff.mp needed
      exact ih child (List.mem_flatMap.mpr ⟨ref, member, target⟩) inner member'
  refine ⟨fun ref => Acc.intro ref fun inner needed => ?_⟩
  obtain ⟨node, _, member⟩ := needs_iff.mp needed
  exact behind node inner member

theorem findCycle_eq_none {α : Type} {r : Registry α} {next : Id → List Id} (acyclic : selfReference r next = []) :
    Graph.findCycle (List.range r.size) next = none := by
  rw [selfReference] at acyclic
  split at acyclic
  · assumption
  · cases acyclic

theorem closed_of_resolve {repeats : Bool} {statements : List Statement} {resolved : Database}
    (run : (resolve repeats statements).outcome.1 = .ok resolved) : resolved.Closed := by
  obtain ⟨_, built, run⟩ := Report.yields_bind (Report.yields_of_outcome run)
  obtain ⟨_, _, run⟩ := Report.yields_bind run
  cases Report.yields_pure run
  exact closed_of_ofStatements (Report.yields_lift built)

/-- A type as a member of attributes. -/
def asMember (t : TypeInfo) : Member :=
  match t.kind with
  | .concrete => .concrete
  | .aliasName => .aliasName t.actual
  | .attr => .attr t.sets

theorem exists_layered_types (closed : db.Closed) (acyclic : selfReference db.types db.typeNext = []) :
    ∃ layer, Member.Layered db.typeMembers layer := by
  refine followsGroups_types.exists_layered (findCycle_eq_none acyclic) asMember ?_ ?_ ?_
  · intro a s h
    rw [asMember] at h
    split at h
    · cases h
    · cases h
    · rename_i kind
      cases h
      exact ⟨rfl, by simp [TypeInfo.isAttribute, kind]⟩
  · intro id a ha e he leaf hleaf b hb actual h
    obtain ⟨kind, x, link, plain⟩ := (closed.within.types id a ha).sets e he leaf hleaf
    cases (congrArg (Option.map TypeInfo.link) hb).symm.trans link
    rw [asMember] at h
    split at h
    · cases h
    · rename_i named
      exact plain named
    · cases h
  · intro id a actual ha h
    rw [asMember] at h
    split at h
    · cases h
    · rename_i kind
      cases h
      have named : db.signature.types id = some (.aliasName, a.actual) := by
        rw [← kind]
        exact congrArg (Option.map TypeInfo.link) ha
      obtain ⟨x, hx, kind', y, link, plain⟩ := closed.aliases.types id _ named
      obtain ⟨b, hb, hlink⟩ := Option.map_eq_some_iff.mp link
      cases hlink
      refine ⟨x, b, hx, hb, ?_⟩
      rw [asMember]
      split
      · exact Or.inl rfl
      · rename_i named
        exact absurd named plain
      · exact Or.inr ⟨_, rfl⟩
    · cases h

/-- Roles and users have no aliases. -/
theorem exists_layered_plain {α : Type} {r : Registry α} {sets : α → List (Expr Id)} {isGroup : α → Bool}
    {next : Id → List Id} (follows : FollowsGroups r sets isGroup next) (acyclic : selfReference r next = []) :
    ∃ layer, Member.Layered
      (r.entries.map fun d => if isGroup d.value then .attr (sets d.value) else .concrete) layer := by
  refine follows.exists_layered (findCycle_eq_none acyclic)
    (fun a => if isGroup a then .attr (sets a) else .concrete) ?_ ?_ ?_
  · intro a s h
    split at h
    · rename_i group
      cases h
      exact ⟨rfl, group⟩
    · cases h
  · intro _ _ _ _ _ _ _ b _ actual h
    split at h <;> cases h
  · intro _ _ _ _ h
    split at h <;> cases h

end Database

namespace Expr

section

variable {whole : BitSet} {leaf other : Id → Except LevelFault BitSet} {position : Id → Except LevelFault Nat}

mutual

/-- The positions of an expression depend on its leaves only. -/
theorem categoryPositions_congr : (e : Expr Id) → (∀ id ∈ e.leaves, leaf id = other id) →
    e.categoryPositions whole leaf position = e.categoryPositions whole other position
  | item id, same => same id (List.mem_singleton.mpr rfl)
  | list members, same => categoryUnion_congr members same
  | apply op operands, same => by
    by_cases range : op = .range
    · subst range
      unfold categoryPositions
      rfl
    · rw [categoryPositions, categoryPositions, categoryOperands_congr operands same]
      · exact range
      · exact range

theorem categoryUnion_congr : (es : List (Expr Id)) → {acc : BitSet} →
    (∀ id ∈ leavesAll es, leaf id = other id) →
    categoryUnion whole leaf position acc es = categoryUnion whole other position acc es
  | [], _, _ => rfl
  | e :: es, acc, same => by
    rw [categoryUnion, categoryUnion, categoryPositions_congr e fun id hid => same id (List.mem_append_left _ hid)]
    exact congrArg _ (funext fun _ => categoryUnion_congr es fun id hid => same id (List.mem_append_right _ hid))

theorem categoryOperands_congr : (es : List (Expr Id)) → (∀ id ∈ leavesAll es, leaf id = other id) →
    categoryOperands whole leaf position es = categoryOperands whole other position es
  | [], _ => rfl
  | e :: es, same => by
    rw [categoryOperands, categoryOperands,
      categoryPositions_congr e fun id hid => same id (List.mem_append_left _ hid),
      categoryOperands_congr es fun id hid => same id (List.mem_append_right _ hid)]

end

end

end Expr

namespace OrderedDatabase

variable {db : OrderedDatabase}

/-- The positions of a category or category set, given those of others. -/
def categoryOnce (db : OrderedDatabase) (known : Array (Option BitSet)) (inner : Id → Except LevelFault BitSet)
    (id : Id) : Except LevelFault BitSet :=
  match db.categories.value? id with
  | some { kind := .set, members, .. } =>
    match (known[id]?).join, members with
    | some positions, _ => .ok positions
    | none, some e => e.categoryPositions db.categoryWhole inner db.categoryPosition
    | none, none => .ok ∅
  | _ => .singleton <$> db.categoryPosition id

/-- The evaluation of a category set needs that of what its expression names. -/
def CategoryNeeds (db : OrderedDatabase) (outer inner : Id) : Prop :=
  ∃ c e, db.categories.value? outer = some c ∧ c.kind = .set ∧ c.members = some e ∧ inner ∈ e.leaves

theorem categoryLeaf_succ (known : Array (Option BitSet)) (fuel : Nat) :
    db.categoryLeaf known (fuel + 1) = db.categoryOnce known (db.categoryLeaf known fuel) := by
  funext id
  rfl

theorem categoryOnce_congr {known : Array (Option BitSet)} {a b : Id → Except LevelFault BitSet} {id : Id}
    (same : ∀ inner, db.CategoryNeeds id inner → a inner = b inner) :
    db.categoryOnce known a id = db.categoryOnce known b id := by
  unfold categoryOnce
  split
  · rename_i hc
    split
    · rfl
    · exact Expr.categoryPositions_congr _ fun inner hinner => same inner ⟨_, _, hc, rfl, rfl, hinner⟩
    · rfl
  · rfl

theorem below_of_needs {depth : Id → Nat} (nested : db.Nested depth) {outer inner : Id}
    (needed : db.CategoryNeeds outer inner) : depth inner < depth outer := by
  obtain ⟨c, e, hc, kind, members, hinner⟩ := needed
  exact nested.below outer c e hc kind members inner hinner

/-- The bound of an evaluation of category sets is not felt. -/
theorem categoryLeaf_eq {depth : Id → Nat} (nested : db.Nested depth) {known : Array (Option BitSet)}
    {fuel : Nat} {id : Id} (enough : depth id < fuel) :
    db.categoryLeaf known fuel id = db.categoryLeaf known (fuel + 1) id := by
  induction fuel generalizing id with
  | zero => exact absurd enough (Nat.not_lt_zero _)
  | succ fuel ih =>
    rw [categoryLeaf_succ, categoryLeaf_succ known (fuel + 1)]
    refine categoryOnce_congr fun inner needed => ih ?_
    have := below_of_needs nested needed
    omega

/-- What the evaluation of a policy goes through comes to an end. No chain of class permissions
or of category sets is endless, and the evaluations with a bound come to what they would
come to without one. Attributes may be asked for in any order: none is asked for while its own
set is evaluated, and each comes to its set. -/
structure Terminates (db : OrderedDatabase) : Prop where
  permissionChains : WellFounded fun inner outer => db.Needs outer inner
  permissions : db.leafGrants (db.permissionNodes.length + 1) =
    db.expandOnce (db.leafGrants (db.permissionNodes.length + 1))
  categoryChains : WellFounded fun inner outer => db.CategoryNeeds outer inner
  categories : ∀ known, db.categoryLeaf known (db.categories.size + 1) =
    db.categoryOnce known (db.categoryLeaf known (db.categories.size + 1))
  types : ∀ ids, ∃ table, Member.demandAll db.typeMembers ids =
    .ok (ids.map fun id => (Member.expandAll db.typeMembers).getD id ∅, table)
  roles : ∀ ids, ∃ table, Member.demandAll db.roleMembers ids =
    .ok (ids.map fun id => (Member.expandAll db.roleMembers).getD id ∅, table)
  users : ∀ ids, ∃ table, Member.demandAll db.userMembers ids =
    .ok (ids.map fun id => (Member.expandAll db.userMembers).getD id ∅, table)

theorem terminates (closed : db.Closed) (faultless : db.preliminaryFaults = []) : db.Terminates := by
  simp only [Database.preliminaryFaults, List.append_eq_nil_iff] at faultless
  obtain ⟨⟨⟨⟨⟨_, permissions⟩, types⟩, roles⟩, users⟩, categories⟩ := faultless
  have acyclic := Database.findCycle_permissions_iff.mpr (Database.permissionCycle_eq_nil_iff.mp permissions)
  obtain ⟨depth, nested⟩ := Database.exists_nested categories
  obtain ⟨_, types⟩ := Database.exists_layered_types closed types
  obtain ⟨_, roles⟩ := Database.exists_layered_plain Database.followsGroups_roles roles
  obtain ⟨_, users⟩ := Database.exists_layered_plain Database.followsGroups_users users
  refine ⟨Database.wellFounded_needs acyclic, Database.leafGrants_eq_expandOnce acyclic, ?_, fun known => ?_,
    types.demandAll_ok, roles.demandAll_ok, users.demandAll_ok⟩
  · exact Subrelation.wf (below_of_needs nested) (measure depth).wf
  · funext id
    rw [← categoryLeaf_succ]
    exact categoryLeaf_eq nested (Nat.lt_succ_of_le (nested.bounded id))

/-- The checks before evaluation find the circles there are, and if they find nothing then
evaluation comes to an end. -/
theorem preVerify_exact {repeats : Bool} {statements : List Statement} {resolved : Database}
    {ordered : OrderedDatabase} (resolve : (Database.resolve repeats statements).outcome.1 = .ok resolved)
    (order : resolved.order.outcome.1 = .ok ordered) :
    (∃ faults, ordered.preVerify.Rejects faults ∧
      ((∃ d ∈ faults, d.TellsCircle) ↔ ordered.PermissionsCircular) ∧
      ((∃ d ∈ faults, d.TellsSelfReference) ↔ ordered.SetsCircular)) ∧
    (ordered.preVerify.outcome.1 = .ok () → ordered.Terminates) := by
  refine ⟨⟨ordered.preliminaryFaults, Report.rejects_reject _, Database.exists_tellsCircle_iff,
    Database.exists_tellsSelfReference_iff⟩, fun passed => ?_⟩
  have closed := Database.closed_of_resolve resolve
  obtain ⟨rfl, _⟩ := Database.order_spec (Report.yields_of_outcome order)
  exact terminates closed (Report.yields_reject (Report.yields_of_outcome passed))

/-- A policy in which an attribute stands in its own set. -/
def circularPolicy : List Statement :=
  smallPolicy ([.declare (.attr .type) "x", .attributeSet .type "x" (.apply .not [.item "x"])].map
    (Statement.plain {}))

/-- The statements pass up to the checks before evaluation, which end with a self-reference. -/
def stopsAtSelfReference (statements : List Statement) : Bool :=
  let passed : Except Diagnostic OrderedDatabase := do
    let resolved ← (Database.resolve false statements).outcome.1
    resolved.order.outcome.1
  match passed with
  | .ok ordered =>
    match ordered.preVerify.outcome.1 with
    | .error (.violation (.selfReference _) _) => true
    | _ => false
  | .error _ => false

theorem stages_of_stopsAtSelfReference {statements : List Statement} (h : stopsAtSelfReference statements = true) :
    ∃ resolved ordered d, (Database.resolve false statements).outcome.1 = .ok resolved ∧
      resolved.order.outcome.1 = .ok ordered ∧ ordered.preVerify.outcome.1 = .error d ∧
      d.TellsSelfReference := by
  unfold stopsAtSelfReference at h
  dsimp only at h
  split at h
  · rename_i ordered run
    obtain ⟨resolved, resolve, order⟩ := bind_eq_ok.mp run
    split at h
    · rename_i found
      exact ⟨resolved, ordered, _, resolve, order, found, trivial⟩
    · cases h
  · cases h

/-- Both happen: a policy without circles, and one that is refused for a circle. -/
theorem preVerify_exact_linked :
    (∃ resolved ordered, (Database.resolve false linkedPolicy).outcome.1 = .ok resolved ∧
      resolved.order.outcome.1 = .ok ordered ∧ ¬ ordered.PermissionsCircular ∧ ¬ ordered.SetsCircular ∧
      ordered.Terminates) ∧
    ∃ resolved ordered, (Database.resolve false circularPolicy).outcome.1 = .ok resolved ∧
      resolved.order.outcome.1 = .ok ordered ∧ ordered.SetsCircular := by
  constructor
  · obtain ⟨resolved, ordered, _, _, _, resolve, order, passed, _⟩ := stages_of_lowersTo linkedPolicy_lowers
    obtain ⟨⟨faults, rejects, circles, references⟩, terminates⟩ := preVerify_exact resolve order
    have none : faults = [] := by
      cases faults with
      | nil => rfl
      | cons first others => cases (congrArg Prod.fst rejects).symm.trans passed
    subst none
    exact ⟨resolved, ordered, resolve, order, by simpa using circles, by simpa using references, terminates passed⟩
  · have stops : stopsAtSelfReference circularPolicy = true := by decide +kernel
    obtain ⟨resolved, ordered, d, resolve, order, refused, tells⟩ := stages_of_stopsAtSelfReference stops
    obtain ⟨⟨faults, rejects, _, references⟩, _⟩ := preVerify_exact resolve order
    refine ⟨resolved, ordered, resolve, order, references.mp ⟨d, ?_, tells⟩⟩
    cases faults with
    | nil => cases (congrArg Prod.fst rejects).symm.trans refused
    | cons first others =>
      cases (congrArg Prod.fst rejects).symm.trans refused
      exact List.mem_cons_self

end OrderedDatabase

end CilPolicy
