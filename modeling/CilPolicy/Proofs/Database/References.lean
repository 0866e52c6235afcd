import CilPolicy.Proofs.Database.Names

/-!
# Compound references by name

Levels, ranges, contexts, permissions and rules are resolved to numbers whose names are what
resolving by name gives.
-/

namespace CilPolicy

namespace Registry

variable {α : Type} {r : Registry α}

theorem mem_names {name : String} : name ∈ r.names ↔ ∃ id, r.find? name = some id := by
  rw [names, List.mem_map, ← Option.isSome_iff_exists, find?_isSome]
  constructor
  · rintro ⟨d, hd, rfl⟩
    obtain ⟨id, hid⟩ := exists_get?_of_mem hd
    exact ⟨id, d, hid, rfl⟩
  · rintro ⟨id, d, hd, rfl⟩
    exact ⟨d, mem_toList_of_get? hd, rfl⟩

end Registry

namespace Database

open Resolve

variable {db : Database} {site : Citation}

/-! ### Categories -/


theorem isRangeSet_eq (sound : db.skeleton.Sound) (e : Expr Id)
    (declared : ∀ id ∈ e.leaves, id < db.categories.size) :
    db.isRangeSet e = db.skeleton.names.isRangeSet (e.map db.categories.nameOf) := by
  cases e with
  | item id =>
    have named := Registry.named_nameOf (declared id (List.mem_singleton.mpr rfl))
    have distinct := (Registry.distinct_outline _).mp sound.categories
    rw [Expr.map, isRangeSet, Names.isRangeSet, names_categories, distinct.look_eq named, Registry.test]
    cases db.categories.value? id <;> rfl
  | list members => rfl
  | apply op operands => rfl

mutual

theorem rangesFit_eq (sound : db.skeleton.Sound) : (e : Expr Id) → (∀ id ∈ e.leaves, id < db.categories.size) →
    db.rangesFit e = db.skeleton.names.rangesFit (e.map db.categories.nameOf)
  | .item _, _ => rfl
  | .list members, declared => rangesFitAll_eq sound members declared
  | .apply op operands, declared => by
    cases op with
    | range =>
      have each : ∀ es : List (Expr Id), (∀ id ∈ Expr.leavesAll es, id < db.categories.size) →
          es.any db.isRangeSet = (Expr.mapAll db.categories.nameOf es).any db.skeleton.names.isRangeSet := by
        intro es
        induction es with
        | nil => exact fun _ => rfl
        | cons e es ih =>
          intro inside
          rw [Expr.mapAll, List.any_cons, List.any_cons, ih fun id hid => inside id (List.mem_append_right _ hid),
            isRangeSet_eq sound e fun id hid => inside id (List.mem_append_left _ hid)]
      exact congrArg (!·) (each operands declared)
    | _ => exact rangesFitAll_eq sound operands declared

theorem rangesFitAll_eq (sound : db.skeleton.Sound) : (es : List (Expr Id)) →
    (∀ id ∈ Expr.leavesAll es, id < db.categories.size) →
    db.rangesFitAll es = db.skeleton.names.rangesFitAll (Expr.mapAll db.categories.nameOf es)
  | [], _ => rfl
  | e :: es, declared => by
    rw [rangesFitAll, Expr.mapAll, Names.rangesFitAll,
      rangesFit_eq sound e fun id hid => declared id (List.mem_append_left _ hid),
      rangesFitAll_eq sound es fun id hid => declared id (List.mem_append_right _ hid)]

end

theorem tells_categoryExpr (sound : db.skeleton.Sound) {e : Expr String} :
    Tells (fun x y => x.map db.skeleton.categories.nameOf = y) (db.categoryExpr e site)
      (db.skeleton.names.categoryExpr e) := by
  rw [categoryExpr, Names.categoryExpr, show db.skeleton.categories.nameOf = db.categories.nameOf from
    funext (Registry.nameOf_outline _)]
  have each := fun name => (tells_findCategory sound : Tells _ (db.findCategory name site) _).mono
    fun id _ (named : db.categories.Named id _) => And.intro named.nameOf named.lt
  refine tells_bind (m := expr e db.findCategory) (Expr.tells_traverse each e) ?_
  rintro x _ ⟨rfl, declared⟩
  rw [rangesFit_eq sound x declared, require]
  cases db.skeleton.names.rangesFit (x.map db.categories.nameOf) with
  | true => exact rfl
  | false => trivial

/-! ### Permissions -/

/-- The common of a class is found under its name. -/
theorem look_common (sound : db.skeleton.Sound) {id : Id} {info : ClassInfo}
    (value : db.classes.value? id = some info) :
    (info.common.map db.commons.nameOf).bind db.skeleton.names.commons =
      (info.common.bind db.commons.value?).map (·.names) := by
  cases hcommon : info.common with
  | none => rfl
  | some a =>
    have inside := sound.common id info.outline (by simp [skeleton, value]) a hcommon
    exact congrArg (Option.map _) (sound.commons.look_eq (Registry.named_nameOf inside))

/-- What the class has under the number of a permission that is found in it. -/
theorem permissionName_find {id : Id} {info : ClassInfo} (value : db.classes.value? id = some info)
    {name : String} {p : Nat}
    (found : db.findPermission? info name = some p) : db.skeleton.permissionName id p = name := by
  have known : db.skeleton.classes.value? id = some info.outline := by simp [skeleton, value]
  rw [Skeleton.permissionName, known]
  rw [findPermission?] at found
  change (if p < (db.commonPermissions info).size then _ else _) = name
  cases hown : info.permissions.find? name with
  | some own =>
    rw [hown] at found
    cases found
    rw [if_neg (by omega)]
    change Registry.nameOf _ ((db.commonPermissions info).size + own - (db.commonPermissions info).size) = name
    rw [Nat.add_sub_cancel_left]
    exact (Registry.named_of_find? hown).nameOf_outline _
  | none =>
    rw [hown] at found
    rw [if_pos (Registry.lt_of_find? found)]
    exact (Registry.named_of_find? found).nameOf

/-- A permission is found in a class exactly when it is one of the class by name. -/
theorem hasPermission_eq (sound : db.skeleton.Sound) {id : Id} {info : ClassInfo}
    (value : db.classes.value? id = some info)
    (name : String) : db.skeleton.names.hasPermission
        ⟨info.isMap, info.permissions.names, info.common.map db.commons.nameOf⟩ name =
      (db.findPermission? info name).isSome := by
  have contains : ∀ {α : Type} (r : Registry α), r.names.contains name = (r.find? name).isSome := fun r => by
    rw [Bool.eq_iff_iff, List.contains_iff_mem, Registry.mem_names, Option.isSome_iff_exists]
  have fromCommon : ((info.common.bind db.commons.value?).map (·.names)).any (·.contains name) =
      ((db.commonPermissions info).find? name).isSome := by
    rw [commonPermissions]
    cases info.common.bind db.commons.value? with
    | none => exact (contains (α := Unit) {})
    | some common => exact contains common
  rw [Names.hasPermission, look_common sound value, fromCommon, contains, findPermission?]
  cases info.permissions.find? name <;> rfl

theorem tells_classPerms (sound : db.skeleton.Sound) (c : ClassPerms String) :
    Tells (fun x y => db.skeleton.classPerms x = y) (db.classPerms c site) (db.skeleton.names.classPerms c) := by
  cases c with
  | named set =>
    refine tells_bind (tells_findId fun _ => ()) ?_
    intro id _ named
    exact congrArg ClassPerms.named (named.nameOf_outline _)
  | given cls permissions =>
    refine tells_bind tells_findClass ?_
    rintro ⟨id, info⟩ _ ⟨named, value, rfl⟩
    refine tells_bind (m := expr permissions _) (Expr.tells_traverse (ν := db.skeleton.permissionName id)
      (P := fun _ => True) (fun name => ?_) permissions) ?_
    · rw [hasPermission_eq sound value]
      dsimp only
      cases hfound : db.findPermission? info name with
      | none => exact True.intro
      | some p => exact And.intro (permissionName_find value hfound) True.intro
    · rintro x _ ⟨rfl, -⟩
      exact congrArg (ClassPerms.given · _) (named.nameOf_outline _)

/-! ### Levels, ranges and contexts -/

theorem tells_levelSpec (sound : db.skeleton.Sound) (l : LevelSpec String) :
    Tells (fun x y => db.skeleton.levelSpec x = y) (db.levelSpec l site) (db.skeleton.names.levelSpec l) := by
  refine tells_bind (tells_findSensitivity sound) ?_
  intro id name named
  cases l.categories with
  | none => exact congrArg (LevelSpec.mk · none) (named.nameOf_outline _)
  | some e =>
    refine tells_bind (tells_categoryExpr sound) ?_
    rintro x _ rfl
    exact (LevelSpec.mk.injEq ..).mpr ⟨named.nameOf_outline _, rfl⟩

theorem tells_levelArg (sound : db.skeleton.Sound) (l : LevelArg String) :
    Tells (fun x y => db.skeleton.levelArg x = y) (db.levelArg l site) (db.skeleton.names.levelArg l) := by
  cases l with
  | named name =>
    refine tells_bind (tells_findId fun _ => ()) ?_
    intro id _ named
    exact congrArg LevelArg.named (named.nameOf_outline _)
  | given spec => exact tells_bind (tells_levelSpec sound spec) fun _ _ same => congrArg LevelArg.given same

theorem tells_rangeSpec (sound : db.skeleton.Sound) (r : RangeSpec String) :
    Tells (fun x y => db.skeleton.rangeSpec x = y) (db.rangeSpec r site) (db.skeleton.names.rangeSpec r) := by
  refine tells_bind (tells_levelArg sound r.low) ?_
  rintro low _ rfl
  refine tells_bind (tells_levelArg sound r.high) ?_
  rintro high _ rfl
  exact rfl

theorem tells_rangeArg (sound : db.skeleton.Sound) (r : RangeArg String) :
    Tells (fun x y => db.skeleton.rangeArg x = y) (db.rangeArg r site) (db.skeleton.names.rangeArg r) := by
  cases r with
  | named name =>
    refine tells_bind (tells_findId fun _ => ()) ?_
    intro id _ named
    exact congrArg RangeArg.named (named.nameOf_outline _)
  | given spec => exact tells_bind (tells_rangeSpec sound spec) fun _ _ same => congrArg RangeArg.given same

theorem tells_contextSpec (sound : db.skeleton.Sound) (c : ContextSpec String) :
    Tells (fun x y => db.skeleton.contextSpec x = y) (db.contextSpec c site) (db.skeleton.names.contextSpec c) := by
  refine tells_bind tells_findUser ?_
  rintro ⟨user, userInfo⟩ _ ⟨namedUser, -, rfl⟩
  refine tells_check ⟨_, rfl⟩ (by simp) ?_
  refine tells_bind tells_findRole ?_
  rintro ⟨role, roleInfo⟩ _ ⟨namedRole, -, rfl⟩
  refine tells_check ⟨_, rfl⟩ (by simp) ?_
  refine tells_bind (tells_findType sound) ?_
  intro type _ namedType
  refine tells_check ⟨_, rfl⟩ (by simp [isTypeAttribute_eq sound namedType]) ?_
  refine tells_bind (tells_rangeArg sound c.range) ?_
  rintro range _ rfl
  exact (ContextSpec.mk.injEq ..).mpr ⟨namedUser.nameOf_outline _, namedRole.nameOf_outline _,
    namedType.nameOf_outline _, rfl⟩

theorem tells_contextArg (sound : db.skeleton.Sound) (c : ContextArg String) :
    Tells (fun x y => db.skeleton.contextArg x = y) (db.contextArg c site) (db.skeleton.names.contextArg c) := by
  cases c with
  | named name =>
    refine tells_bind (tells_findId fun _ => ()) ?_
    intro id _ named
    exact congrArg ContextArg.named (named.nameOf_outline _)
  | given spec => exact tells_bind (tells_contextSpec sound spec) fun _ _ same => congrArg ContextArg.given same

/-! ### Extended permissions and addresses -/

theorem tells_extendedSpec (x : ExtendedSpec String (Expr String)) :
    Tells (fun y z => db.skeleton.extendedSpec y = z) (db.extendedSpec x site)
      (db.skeleton.names.extendedSpec x) := by
  refine tells_bind tells_findKernelClass ?_
  intro cls _ named
  cases x.numbers.extendedNumbers with
  | error fault => exact True.intro
  | ok numbers => exact congrArg (ExtendedSpec.mk · numbers) (named.nameOf_outline _)

theorem tells_extendedArg (x : ExtendedArg String (Expr String)) :
    Tells (fun y z => db.skeleton.extendedArg y = z) (db.extendedArg x site) (db.skeleton.names.extendedArg x) := by
  cases x with
  | named name =>
    refine tells_bind (tells_findId fun _ => ()) ?_
    intro id _ named
    exact congrArg ExtendedArg.named (named.nameOf_outline _)
  | given spec => exact tells_bind (tells_extendedSpec spec) fun _ _ same => congrArg ExtendedArg.given same

theorem tells_addressArg (a : AddressArg) :
    Tells (fun x y => x = y) (db.addressArg a site) (db.skeleton.names.addressArg a) := by
  cases a with
  | named name =>
    have found : Tells _ (find db.addresses "ipaddr" name site) _ := tells_find id
    rw [Option.map_id_apply] at found
    exact Tells.map_left (found.mono fun _ _ h => h.2.2.symm)
  | given address => exact rfl

/-! ### Rules -/

/-- The names of a rule, whose types are declared. -/
def RuleNamed (db : Database) (rule : Rule) (named : NamedRule) : Prop :=
  db.skeleton.rule rule = named ∧
    match rule, named with
    | .access _ source target _, .access _ source' target' _
    | .extended _ source target _, .extended _ source' target' _ =>
      db.types.Named source source' ∧ db.TargetNamed target target'
    | _, _ => True

theorem tells_rule? (sound : db.skeleton.Sound) (c : Clause) :
    Tells (Option.Rel db.RuleNamed) (db.rule? c site) (db.skeleton.names.rule? c) := by
  cases c with
  | access kind source target permissions =>
    refine tells_bind (tells_findType sound) ?_
    intro s _ namedSource
    refine tells_bind (tells_findTarget sound) ?_
    intro t _ namedTarget
    refine tells_bind (tells_classPerms sound permissions) ?_
    rintro p _ rfl
    exact .some ⟨(NamedRule.access.injEq ..).mpr ⟨rfl, namedSource.nameOf_outline _, namedTarget.eq, rfl⟩,
      namedSource, namedTarget⟩
  | extended kind source target permissions =>
    refine tells_bind (tells_findType sound) ?_
    intro s _ namedSource
    refine tells_bind (tells_findTarget sound) ?_
    intro t _ namedTarget
    refine tells_bind (tells_extendedArg permissions) ?_
    rintro p _ rfl
    exact .some ⟨(NamedRule.extended.injEq ..).mpr ⟨rfl, namedSource.nameOf_outline _, namedTarget.eq, rfl⟩,
      namedSource, namedTarget⟩
  | typeRule kind source target cls result =>
    refine tells_bind (tells_findType sound) ?_
    intro r _ namedResult
    refine tells_check ⟨_, rfl⟩ (by simp [isTypeAttribute_eq sound namedResult]) ?_
    refine tells_bind (tells_findType sound) ?_
    intro s _ namedSource
    refine tells_bind (tells_findTarget sound) ?_
    intro t _ namedTarget
    refine tells_bind tells_findKernelClass ?_
    intro c _ namedClass
    exact .some ⟨(NamedRule.type.injEq ..).mpr ⟨rfl, namedSource.nameOf_outline _, namedTarget.eq,
      namedClass.nameOf_outline _, namedResult.nameOf_outline _⟩, True.intro⟩
  | namedTransition source target cls name result =>
    refine tells_bind (tells_findType sound) ?_
    intro r _ namedResult
    refine tells_check ⟨_, rfl⟩ (by simp [isTypeAttribute_eq sound namedResult]) ?_
    refine tells_bind (tells_findType sound) ?_
    intro s _ namedSource
    refine tells_bind (tells_findTarget sound) ?_
    intro t _ namedTarget
    refine tells_bind tells_findKernelClass ?_
    intro c _ namedClass
    exact .some ⟨(NamedRule.namedTransition.injEq ..).mpr ⟨namedSource.nameOf_outline _, namedTarget.eq,
      namedClass.nameOf_outline _, rfl, namedResult.nameOf_outline _⟩, True.intro⟩
  | roleTransition source target cls result =>
    refine tells_bind tells_findRole ?_
    rintro ⟨r, info⟩ _ ⟨namedResult, -, rfl⟩
    refine tells_check ⟨_, rfl⟩ (by simp) ?_
    refine tells_bind tells_findRole ?_
    rintro ⟨s, _⟩ _ ⟨namedSource, -, rfl⟩
    refine tells_bind (tells_findType sound) ?_
    intro t _ namedTarget
    refine tells_bind tells_findKernelClass ?_
    intro c _ namedClass
    exact .some ⟨(NamedRule.roleTransition.injEq ..).mpr ⟨namedSource.nameOf_outline _, namedTarget.nameOf_outline _,
      namedClass.nameOf_outline _, namedResult.nameOf_outline _⟩, True.intro⟩
  | roleAllow source target =>
    refine tells_bind tells_findRole ?_
    rintro ⟨s, _⟩ _ ⟨namedSource, -, rfl⟩
    refine tells_bind tells_findRole ?_
    rintro ⟨t, _⟩ _ ⟨namedTarget, -, rfl⟩
    exact .some ⟨(NamedRule.roleAllow.injEq ..).mpr ⟨namedSource.nameOf_outline _, namedTarget.nameOf_outline _⟩,
      True.intro⟩
  | rangeTransition source target cls range =>
    refine tells_bind (tells_findType sound) ?_
    intro s _ namedSource
    refine tells_bind (tells_findType sound) ?_
    intro t _ namedTarget
    refine tells_bind tells_findKernelClass ?_
    intro c _ namedClass
    refine tells_bind (tells_rangeArg sound range) ?_
    rintro r _ rfl
    exact .some ⟨(NamedRule.rangeTransition.injEq ..).mpr ⟨namedSource.nameOf_outline _, namedTarget.nameOf_outline _,
      namedClass.nameOf_outline _, rfl⟩, True.intro⟩
  | _ => exact .none

end Database

end CilPolicy
