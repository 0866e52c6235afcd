import CilPolicy.Proofs.Database.Signature

/-!
# Resolution closes the database

Resolving a statement changes no declaration, so the signature stays the same from the
second pass on, and every number that a statement leaves comes from a lookup in it. So a
resolved database keeps only numbers of its own declarations, none of an alias, and each
alias stands for something that is none.
-/

namespace CilPolicy

namespace Database

open Resolve

variable {db db' : Database} {s : Signature} {site : Citation}

theorem of_mapM {α β : Type} {f : α → Resolve β} {items : List α} {results : List β}
    (h : (items.mapM f) site = .ok results) {b : β} (hb : b ∈ results) : ∃ a, f a site = .ok b := by
  induction items generalizing results with
  | nil =>
    rw [List.mapM_nil] at h
    cases pure_ok h
    cases hb
  | cons a rest ih =>
    rw [List.mapM_cons] at h
    obtain ⟨first, hfirst, h⟩ := bind_ok.mp h
    obtain ⟨others, hothers, h⟩ := bind_ok.mp h
    cases pure_ok h
    rcases List.mem_cons.mp hb with rfl | hb
    · exact ⟨a, hfirst⟩
    · exact ih hothers hb

/-! ### Changes that keep the signature -/

theorem signature_modifyTypes {id : Id} {f : TypeInfo → TypeInfo} (kept : ∀ t, (f t).link = t.link) :
    ({ db with types := db.types.modify id f } : Database).signature = db.signature :=
  congrArg (fun types => { db.signature with types })
    (funext ((Registry.sameUnder_refl TypeInfo.link db.types).modify kept))

theorem signature_modifyRoles {id : Id} {f : RoleInfo → RoleInfo}
    (kept : ∀ r, (f r).isAttribute = r.isAttribute) :
    ({ db with roles := db.roles.modify id f } : Database).signature = db.signature :=
  congrArg (fun roles => { db.signature with roles })
    (funext ((Registry.sameUnder_refl RoleInfo.isAttribute db.roles).modify kept))

theorem signature_modifyUsers {id : Id} {f : UserInfo → UserInfo}
    (kept : ∀ u, (f u).isAttribute = u.isAttribute) :
    ({ db with users := db.users.modify id f } : Database).signature = db.signature :=
  congrArg (fun users => { db.signature with users })
    (funext ((Registry.sameUnder_refl UserInfo.isAttribute db.users).modify kept))

theorem signature_modifySensitivities {id : Id} {f : SensitivityInfo → SensitivityInfo}
    (kept : ∀ i, (f i).link = i.link) :
    ({ db with sensitivities := db.sensitivities.modify id f } : Database).signature = db.signature :=
  congrArg (fun sensitivities => { db.signature with sensitivities })
    (funext ((Registry.sameUnder_refl SensitivityInfo.link db.sensitivities).modify kept))

theorem signature_modifyCategories {id : Id} {f : CategoryInfo → CategoryInfo}
    (kept : ∀ c, (f c).link = c.link) :
    ({ db with categories := db.categories.modify id f } : Database).signature = db.signature :=
  congrArg (fun categories => { db.signature with categories })
    (funext ((Registry.sameUnder_refl CategoryInfo.link db.categories).modify kept))

theorem classShape_congr {c c' : ClassInfo} (same : c.shape = c'.shape) :
    db.classShape c = db.classShape c' := by
  have count : db.permissionCount c = db.permissionCount c' := permissionCount_congr rfl same
  simp only [ClassInfo.shape, Prod.mk.injEq] at same
  rw [classShape, classShape, count, same.1, same.2.1, same.2.2]

theorem signature_modifyClasses {id : Id} {f : ClassInfo → ClassInfo} (kept : ∀ c, (f c).shape = c.shape) :
    ({ db with classes := db.classes.modify id f } : Database).signature = db.signature :=
  congrArg (fun classes => { db.signature with classes })
    (funext ((Registry.sameUnder_refl db.classShape db.classes).modify
      fun c => classShape_congr (kept c)))

/-! ### What lookups find -/

/-- The declarations are those of the signature, and all that is said of them is within it. -/
structure Confined (s : Signature) (db : Database) : Prop where
  signature : db.signature = s
  within : db.Within s

namespace Confined

variable {id : Id}

theorem lt_size {α : Type} {r : Registry α} {kind name : String} (h : findId r kind name site = .ok id) :
    id < r.size := by
  obtain ⟨_, found⟩ := value?_of_findId h
  exact Registry.lt_of_value? found

section Lookups

variable (confined : Confined s db)

include confined

theorem types {t : TypeInfo} (h : db.types.value? id = some t) : s.types id = some t.link := by
  rw [← confined.signature]
  exact congrArg (Option.map _) h

theorem roles {r : RoleInfo} (h : db.roles.value? id = some r) : s.roles id = some r.isAttribute := by
  rw [← confined.signature]
  exact congrArg (Option.map _) h

theorem users {u : UserInfo} (h : db.users.value? id = some u) : s.users id = some u.isAttribute := by
  rw [← confined.signature]
  exact congrArg (Option.map _) h

theorem sensitivities {i : SensitivityInfo} (h : db.sensitivities.value? id = some i) :
    s.sensitivities id = some i.link := by
  rw [← confined.signature]
  exact congrArg (Option.map _) h

theorem categories {c : CategoryInfo} (h : db.categories.value? id = some c) :
    s.categories id = some c.link := by
  rw [← confined.signature]
  exact congrArg (Option.map _) h

theorem classes {c : ClassInfo} (h : db.classes.value? id = some c) :
    s.classes id = some (db.classShape c) := by
  rw [← confined.signature]
  exact congrArg (Option.map _) h

theorem findRole {name : String} {r : RoleInfo} (h : db.findRole name site = .ok (id, r)) :
    s.roles id = some r.isAttribute :=
  confined.roles (value?_of_find h)

theorem findUser {name : String} {u : UserInfo} (h : db.findUser name site = .ok (id, u)) :
    s.users id = some u.isAttribute :=
  confined.users (value?_of_find h)

theorem findKernelClass {name : String} (h : db.findKernelClass name site = .ok id) :
    s.IsKernelClass id := by
  obtain ⟨⟨found, info⟩, hfind, h⟩ := bind_ok.mp h
  dsimp only at h
  split at h
  · exact absurd h not_violate
  · rename_i kernel
    cases pure_ok h
    exact ⟨_, confined.classes (value?_of_find hfind), by simpa [classShape] using kernel⟩

theorem classPerms {arg : ClassPerms String} {ref : ClassPerms Id}
    (h : db.classPerms arg site = .ok ref) : s.PermissionsWithin ref := by
  cases arg with
  | named name =>
    obtain ⟨id, found, h⟩ := bind_ok.mp h
    cases pure_ok h
    have inside := lt_size found
    rw [← confined.signature]
    exact inside
  | given cls permissions =>
    obtain ⟨⟨id, info⟩, hfind, h⟩ := bind_ok.mp h
    obtain ⟨e, he, h⟩ := bind_ok.mp h
    cases pure_ok h
    refine ⟨_, confined.classes (value?_of_find hfind), ?_⟩
    refine Expr.mem_leaves_traverse (fun name p hp => ?_) permissions he
    cases found : db.findPermission? info name with
    | none =>
      simp only [found] at hp
      exact absurd hp not_unresolved
    | some q =>
      simp only [found] at hp
      cases pure_ok hp
      exact lt_of_findPermission? found

theorem extendedSpec {arg : ExtendedSpec String (Expr String)} {spec : ExtendedSpec Id BitSet}
    (h : db.extendedSpec arg site = .ok spec) : s.IsKernelClass spec.cls := by
  obtain ⟨cls, hcls, h⟩ := bind_ok.mp h
  cases hnumbers : arg.numbers.extendedNumbers with
  | error fault =>
    simp only [hnumbers] at h
    exact absurd h not_violate
  | ok numbers =>
    simp only [hnumbers] at h
    cases pure_ok h
    exact confined.findKernelClass hcls

theorem extendedArg {arg : ExtendedArg String (Expr String)} {permissions : ExtendedArg Id BitSet}
    (h : db.extendedArg arg site = .ok permissions) : s.ExtendedWithin permissions := by
  cases arg with
  | named name =>
    obtain ⟨id, found, h⟩ := bind_ok.mp h
    cases pure_ok h
    have inside := lt_size found
    rw [← confined.signature]
    exact inside
  | given spec =>
    obtain ⟨spec', hspec, h⟩ := bind_ok.mp h
    cases pure_ok h
    exact confined.extendedSpec hspec

variable (ends : s.AliasesEnd)

include ends

theorem findType {name : String} (h : db.findType name site = .ok id) : s.IsType id := by
  obtain ⟨⟨found, info⟩, hfind, h⟩ := bind_ok.mp h
  have link := confined.types (value?_of_find hfind)
  cases pure_ok h
  split
  · rename_i aliased
    have kind : info.kind = .aliasName := by simpa [TypeInfo.isAlias] using aliased
    rw [TypeInfo.link, kind] at link
    obtain ⟨a, hactual, plain⟩ := ends.types found info.actual link
    rwa [hactual]
  · rename_i plain
    exact ⟨info.kind, info.actual, link, by simpa [TypeInfo.isAlias] using plain⟩

theorem concreteType {name : String} (h : db.findType name site = .ok id)
    (plain : ¬ db.isTypeAttribute id = true) : s.IsConcreteType id := by
  obtain ⟨kind, actual, link, noAlias⟩ := confined.findType ends h
  have found : (db.types.value? id).map (·.link) = some (kind, actual) := by
    rw [← link, ← confined.signature]
    rfl
  obtain ⟨t, ht, same⟩ := Option.map_eq_some_iff.mp found
  refine ⟨actual, link.trans ?_⟩
  cases kind with
  | concrete => rfl
  | aliasName => exact absurd rfl noAlias
  | attr =>
    refine absurd (Registry.test_iff.mpr ⟨t, ht, ?_⟩) plain
    simp only [TypeInfo.link, Prod.mk.injEq] at same
    simp [TypeInfo.isAttribute, same.1]

theorem findTarget {name : String} {target : RuleTarget} (h : db.findTarget name site = .ok target) :
    s.TargetWithin target := by
  rw [Database.findTarget] at h
  split at h
  · cases pure_ok h
    trivial
  · obtain ⟨id, hid, h⟩ := bind_ok.mp h
    cases pure_ok h
    exact confined.findType ends hid

theorem findSensitivity {name : String} (h : db.findSensitivity name site = .ok id) :
    s.IsSensitivity id := by
  obtain ⟨⟨found, info⟩, hfind, h⟩ := bind_ok.mp h
  have link := confined.sensitivities (value?_of_find hfind)
  cases pure_ok h
  cases aliased : info.isAlias with
  | false =>
    rw [SensitivityInfo.link, aliased] at link
    exact ends.plain found info.actual link
  | true =>
    rw [SensitivityInfo.link, aliased] at link
    obtain ⟨a, hactual, plain⟩ := ends.sensitivities found info.actual link
    rwa [hactual]

theorem findCategory {name : String} (h : db.findCategory name site = .ok id) : s.IsCategory id := by
  obtain ⟨⟨found, info⟩, hfind, h⟩ := bind_ok.mp h
  have link := confined.categories (value?_of_find hfind)
  cases pure_ok h
  split
  · rename_i aliased
    rw [CategoryInfo.link, eq_of_beq aliased] at link
    obtain ⟨a, hactual, plain⟩ := ends.categories found info.actual link
    rwa [hactual]
  · rename_i plain
    exact ⟨info.kind, info.actual, link, by simpa using plain⟩

theorem categoryExpr {arg : Expr String} {e : Expr Id} (h : db.categoryExpr arg site = .ok e) :
    s.CategoriesWithin e := by
  obtain ⟨e', he, h⟩ := bind_ok.mp h
  split at h
  · cases pure_ok h
    exact Expr.mem_leaves_traverse (fun _ _ => confined.findCategory ends) arg he
  · exact absurd h not_violate

theorem levelSpec {arg : LevelSpec String} {spec : LevelSpec Id}
    (h : db.levelSpec arg site = .ok spec) : s.LevelSpecWithin spec := by
  obtain ⟨id, hid, h⟩ := bind_ok.mp h
  have sensitivity := confined.findSensitivity ends hid
  cases hcategories : arg.categories with
  | none =>
    simp only [hcategories] at h
    cases pure_ok h
    exact ⟨sensitivity, by simp⟩
  | some e =>
    simp only [hcategories] at h
    obtain ⟨e', he, h⟩ := bind_ok.mp h
    cases pure_ok h
    have categories := confined.categoryExpr ends he
    exact ⟨sensitivity, by simpa using categories⟩

theorem levelArg {arg : LevelArg String} {level : LevelArg Id}
    (h : db.levelArg arg site = .ok level) : s.LevelWithin level := by
  cases arg with
  | named name =>
    obtain ⟨id, found, h⟩ := bind_ok.mp h
    cases pure_ok h
    have inside := lt_size found
    rw [← confined.signature]
    exact inside
  | given spec =>
    obtain ⟨spec', hspec, h⟩ := bind_ok.mp h
    cases pure_ok h
    exact confined.levelSpec ends hspec

theorem rangeSpec {arg : RangeSpec String} {spec : RangeSpec Id}
    (h : db.rangeSpec arg site = .ok spec) : s.RangeSpecWithin spec := by
  obtain ⟨low, hlow, h⟩ := bind_ok.mp h
  obtain ⟨high, hhigh, h⟩ := bind_ok.mp h
  cases pure_ok h
  exact ⟨confined.levelArg ends hlow, confined.levelArg ends hhigh⟩

theorem rangeArg {arg : RangeArg String} {range : RangeArg Id}
    (h : db.rangeArg arg site = .ok range) : s.RangeWithin range := by
  cases arg with
  | named name =>
    obtain ⟨id, found, h⟩ := bind_ok.mp h
    cases pure_ok h
    have inside := lt_size found
    rw [← confined.signature]
    exact inside
  | given spec =>
    obtain ⟨spec', hspec, h⟩ := bind_ok.mp h
    cases pure_ok h
    exact confined.rangeSpec ends hspec

theorem contextSpec {arg : ContextSpec String} {spec : ContextSpec Id}
    (h : db.contextSpec arg site = .ok spec) : s.ContextSpecWithin spec := by
  rw [Database.contextSpec] at h
  obtain ⟨⟨user, userInfo⟩, huser, h⟩ := bind_ok.mp h
  obtain ⟨plainUser, h⟩ := check_ok h
  obtain ⟨⟨role, roleInfo⟩, hrole, h⟩ := bind_ok.mp h
  obtain ⟨plainRole, h⟩ := check_ok h
  obtain ⟨type, htype, h⟩ := bind_ok.mp h
  obtain ⟨plainType, h⟩ := check_ok h
  obtain ⟨range, hrange, h⟩ := bind_ok.mp h
  cases pure_ok h
  have user := confined.findUser huser
  have role := confined.findRole hrole
  rw [Bool.not_eq_true] at plainUser plainRole
  rw [plainUser] at user
  rw [plainRole] at role
  exact ⟨user, role, confined.concreteType ends htype plainType, confined.rangeArg ends hrange⟩

theorem contextArg {arg : ContextArg String} {context : ContextArg Id}
    (h : db.contextArg arg site = .ok context) : s.ContextWithin context := by
  cases arg with
  | named name =>
    obtain ⟨id, found, h⟩ := bind_ok.mp h
    cases pure_ok h
    have inside := lt_size found
    rw [← confined.signature]
    exact inside
  | given spec =>
    obtain ⟨spec', hspec, h⟩ := bind_ok.mp h
    cases pure_ok h
    exact confined.contextSpec ends hspec

theorem stated {clause : Clause} {rule : Rule} (stated : db.Stated site clause rule) : s.RuleWithin rule := by
  cases stated with
  | access start aim grant =>
    exact ⟨confined.findType ends start, confined.findTarget ends aim, confined.classPerms grant⟩
  | extended start aim grant =>
    exact ⟨confined.findType ends start, confined.findTarget ends aim, confined.extendedArg grant⟩
  | type outcome plain start aim kernel
  | namedTransition outcome plain start aim kernel =>
    exact ⟨confined.findType ends start, confined.findTarget ends aim, confined.findKernelClass kernel,
      confined.concreteType ends outcome plain⟩
  | roleTransition outcome plain start aim kernel =>
    have role := confined.findRole outcome
    rw [Bool.eq_false_iff.mpr plain] at role
    exact ⟨⟨_, confined.findRole start⟩, confined.findType ends aim, confined.findKernelClass kernel, role⟩
  | roleAllow start aim => exact ⟨⟨_, confined.findRole start⟩, ⟨_, confined.findRole aim⟩⟩
  | rangeTransition start aim kernel outcome =>
    exact ⟨confined.findType ends start, confined.findType ends aim, confined.findKernelClass kernel,
      confined.rangeArg ends outcome⟩

end Lookups

/-! ### Statements -/

section Statements

variable (confined : Confined s db)

include confined

theorem modifyTypes {f : TypeInfo → TypeInfo} (kept : ∀ t, (f t).link = t.link)
    (fits : ∀ t, db.types.value? id = some t → s.TypeWithin t → s.TypeWithin (f t)) :
    Confined s { db with types := db.types.modify id f } :=
  ⟨(signature_modifyTypes kept).trans confined.signature,
    { confined.within with types := confined.within.types.modify fits }⟩

theorem modifyRoles {f : RoleInfo → RoleInfo} (kept : ∀ r, (f r).isAttribute = r.isAttribute)
    (fits : ∀ r, db.roles.value? id = some r → s.RoleWithin r → s.RoleWithin (f r)) :
    Confined s { db with roles := db.roles.modify id f } :=
  ⟨(signature_modifyRoles kept).trans confined.signature,
    { confined.within with roles := confined.within.roles.modify fits }⟩

theorem modifyUsers {f : UserInfo → UserInfo} (kept : ∀ u, (f u).isAttribute = u.isAttribute)
    (fits : ∀ u, db.users.value? id = some u → s.UserWithin u → s.UserWithin (f u)) :
    Confined s { db with users := db.users.modify id f } :=
  ⟨(signature_modifyUsers kept).trans confined.signature,
    { confined.within with users := confined.within.users.modify fits }⟩

theorem modifyCategories {f : CategoryInfo → CategoryInfo} (kept : ∀ c, (f c).link = c.link)
    (fits : ∀ c, db.categories.value? id = some c → (∀ e ∈ c.members, s.CategoriesWithin e) →
      ∀ e ∈ (f c).members, s.CategoriesWithin e) :
    Confined s { db with categories := db.categories.modify id f } :=
  ⟨(signature_modifyCategories kept).trans confined.signature,
    { confined.within with categories := confined.within.categories.modify fits }⟩

theorem modifySensitivities {f : SensitivityInfo → SensitivityInfo} (kept : ∀ i, (f i).link = i.link)
    (fits : ∀ i, db.sensitivities.value? id = some i → (∀ e ∈ i.categories, s.CategoriesWithin e) →
      ∀ e ∈ (f i).categories, s.CategoriesWithin e) :
    Confined s { db with sensitivities := db.sensitivities.modify id f } :=
  ⟨(signature_modifySensitivities kept).trans confined.signature,
    { confined.within with sensitivities := confined.within.sensitivities.modify fits }⟩

theorem modifyClassPermissions {ref : ClassPerms Id} (new : s.PermissionsWithin ref) :
    Confined s { db with classPermissions := db.classPermissions.modify id (· ++ [ref]) } := by
  have same := congrArg (fun classPermissions => { db.signature with classPermissions })
    (db.classPermissions.size_modify id (· ++ [ref]))
  refine ⟨same.trans confined.signature, { confined.within with classPermissions := ?_ }⟩
  exact confined.within.classPermissions.modify fun _ _ old => forall_mem_concat old new

theorem setLevel {spec : LevelSpec Id} (new : s.LevelSpecWithin spec) :
    Confined s { db with levels := db.levels.modify id fun _ => some spec } := by
  have same := congrArg (fun levels => { db.signature with levels })
    (db.levels.size_modify id fun _ => some spec)
  exact ⟨same.trans confined.signature, { confined.within with
    levels := confined.within.levels.modify fun _ _ _ => forall_some new }⟩

theorem setRange {spec : RangeSpec Id} (new : s.RangeSpecWithin spec) :
    Confined s { db with ranges := db.ranges.modify id fun _ => some spec } := by
  have same := congrArg (fun ranges => { db.signature with ranges })
    (db.ranges.size_modify id fun _ => some spec)
  exact ⟨same.trans confined.signature, { confined.within with
    ranges := confined.within.ranges.modify fun _ _ _ => forall_some new }⟩

theorem setExtended {spec : ExtendedSpec Id BitSet} (new : s.IsKernelClass spec.cls) :
    Confined s { db with extendedSets := db.extendedSets.modify id fun _ => some spec } := by
  have same := congrArg (fun extendedSets => { db.signature with extendedSets })
    (db.extendedSets.size_modify id fun _ => some spec)
  exact ⟨same.trans confined.signature, { confined.within with
    extendedSets := confined.within.extendedSets.modify fun _ _ _ => forall_some new }⟩

theorem setContext {spec : ContextSpec Id} (new : s.ContextSpecWithin spec) :
    Confined s { db with contexts := db.contexts.modify id fun _ => some spec } := by
  have same := congrArg (fun contexts => { db.signature with contexts })
    (db.contexts.size_modify id fun _ => some spec)
  exact ⟨same.trans confined.signature, { confined.within with
    contexts := confined.within.contexts.modify fun _ _ _ => forall_some new }⟩

theorem setSid {context : ContextArg Id} (new : s.ContextWithin context) :
    Confined s { db with sids := db.sids.modify id fun _ => some context } := by
  have same := congrArg (fun sids => { db.signature with sids })
    (db.sids.size_modify id fun _ => some context)
  exact ⟨same.trans confined.signature, { confined.within with
    sids := confined.within.sids.modify fun _ _ _ => forall_some new }⟩

/-- Rules change no numbers when they mark types. -/
theorem markType (kind : AccessKind) :
    Confined s { db with types := Database.markType kind db.types id } := by
  refine confined.modifyTypes (fun t => ?_) fun t _ old => ?_
  · split
    · rfl
    · split
      · rfl
      · rfl
  · split
    · exact old
    · split
      · exact ⟨old.bounds, old.sets⟩
      · exact ⟨old.bounds, old.sets⟩

theorem markUsed (rule : Rule) : Confined s (db.markUsed rule) := by
  simp only [Database.markUsed]
  split
  · exact (confined.markType _).markType _
  · exact (confined.markType _).markType _
  · exact confined

/-- The classes may change in all but their shapes and mappings. -/
theorem modifyClasses {f : ClassInfo → ClassInfo} (kept : ∀ c, (f c).shape = c.shape)
    (fits : ∀ c, db.classes.value? id = some c →
      (c.permissions.All fun refs => ∀ ref ∈ refs, s.PermissionsWithin ref) →
      (f c).permissions.All fun refs => ∀ ref ∈ refs, s.PermissionsWithin ref) :
    Confined s { db with classes := db.classes.modify id f } :=
  ⟨(signature_modifyClasses kept).trans confined.signature,
    { confined.within with mappings := confined.within.mappings.modify fits }⟩

theorem orderItems {names : List String} {kind : OrderKind} {ids : List Id}
    (h : db.orderItems names kind site = .ok ids) : ∀ id ∈ ids, match kind with
      | .cls => s.IsKernelClass id
      | .sid => id < s.sids
      | .sensitivity => s.IsSensitivity id
      | .category => s.IsPlainCategory id := by
  intro id hid
  cases kind with
  | cls =>
    obtain ⟨name, found⟩ := of_mapM h hid
    obtain ⟨⟨found, info⟩, hfind, h⟩ := bind_ok.mp found
    dsimp only at h
    split at h
    · exact absurd h not_violate
    · rename_i kernel
      cases pure_ok h
      exact ⟨_, confined.classes (value?_of_find hfind), by simpa [classShape] using kernel⟩
  | sid =>
    obtain ⟨name, found⟩ := of_mapM h hid
    have inside := lt_size found
    rw [← confined.signature]
    exact inside
  | sensitivity =>
    obtain ⟨name, found⟩ := of_mapM h hid
    obtain ⟨⟨found, info⟩, hfind, h⟩ := bind_ok.mp found
    dsimp only at h
    split at h
    · exact absurd h not_violate
    · rename_i plain
      cases pure_ok h
      have link := confined.sensitivities (value?_of_find hfind)
      rw [SensitivityInfo.link, Bool.eq_false_iff.mpr plain] at link
      exact ⟨_, link⟩
  | category =>
    obtain ⟨name, found⟩ := of_mapM h hid
    obtain ⟨⟨found, info⟩, hfind, h⟩ := bind_ok.mp found
    dsimp only at h
    split at h
    · exact absurd h not_violate
    · rename_i plain
      cases pure_ok h
      have link := confined.categories (value?_of_find hfind)
      rw [CategoryInfo.link, show info.kind = .category by simpa using plain] at link
      exact ⟨_, link⟩

variable (ends : s.AliasesEnd)

include ends

/-- What is put into the database was found there, so each change stays within the signature. -/
theorem edit {clause : Clause} (edit : db.Edit site clause db') : Confined s db' := by
  have fragments := confined.within.fragments
  cases edit with
  | typeSet _ _ found =>
    have new := Expr.mem_leaves_traverse (fun _ _ => confined.findType ends) _ found
    exact confined.modifyTypes (fun _ => rfl) fun t _ old => ⟨old.bounds, forall_mem_concat old.sets new⟩
  | roleSet _ _ found =>
    have new := Expr.mem_leaves_traverse (p := s.IsRole) (fun _ _ found => by
      obtain ⟨⟨role, _⟩, hrole, rfl⟩ := map_ok.mp found
      exact ⟨_, confined.findRole hrole⟩) _ found
    exact confined.modifyRoles (fun _ => rfl)
      fun r _ old => ⟨old.bounds, old.types, forall_mem_concat old.sets new⟩
  | userSet _ _ found =>
    have new := Expr.mem_leaves_traverse (p := s.IsUser) (fun _ _ found => by
      obtain ⟨⟨user, _⟩, huser, rfl⟩ := map_ok.mp found
      exact ⟨_, confined.findUser huser⟩) _ found
    exact confined.modifyUsers (fun _ => rfl)
      fun u _ old => ⟨old.bounds, old.roles, old.level, old.range, forall_mem_concat old.sets new⟩
  | typeBounds bound _ plain =>
    have new := confined.concreteType ends bound (Bool.eq_false_iff.mp plain.1)
    exact confined.modifyTypes (fun _ => rfl) fun t _ old => ⟨forall_some new, old.sets⟩
  | roleBounds bound _ plain =>
    have new := confined.findRole bound
    rw [plain.1] at new
    exact confined.modifyRoles (fun _ => rfl) fun r _ old => ⟨forall_some new, old.types, old.sets⟩
  | userBounds bound _ plain =>
    have new := confined.findUser bound
    rw [plain.1] at new
    exact confined.modifyUsers (fun _ => rfl)
      fun u _ old => ⟨forall_some new, old.roles, old.level, old.range, old.sets⟩
  | typePermissive => exact confined.modifyTypes (fun _ => rfl) fun t _ old => ⟨old.bounds, old.sets⟩
  | roleType _ found =>
    have new := confined.findType ends found
    exact confined.modifyRoles (fun _ => rfl)
      fun r _ old => ⟨old.bounds, forall_mem_concat old.types new, old.sets⟩
  | userRole _ found =>
    have new : s.IsRole _ := ⟨_, confined.findRole found⟩
    exact confined.modifyUsers (fun _ => rfl)
      fun u _ old => ⟨old.bounds, forall_mem_concat old.roles new, old.level, old.range, old.sets⟩
  | userLevel _ _ found =>
    have new := confined.levelArg ends found
    exact confined.modifyUsers (fun _ => rfl)
      fun u _ old => ⟨old.bounds, old.roles, forall_some new, old.range, old.sets⟩
  | userRange _ _ found =>
    have new := confined.rangeArg ends found
    exact confined.modifyUsers (fun _ => rfl)
      fun u _ old => ⟨old.bounds, old.roles, old.level, forall_some new, old.sets⟩
  | unordered found =>
    have new := confined.orderItems found
    exact ⟨confined.signature, { confined.within with fragments := { fragments with
      unorderedClasses := forall_mem_concat fragments.unorderedClasses new } }⟩
  | classOrder found =>
    have new := confined.orderItems found
    exact ⟨confined.signature, { confined.within with fragments := { fragments with
      classes := forall_mem_concat fragments.classes new } }⟩
  | sidOrder found =>
    have new := confined.orderItems found
    exact ⟨confined.signature, { confined.within with fragments := { fragments with
      sids := forall_mem_concat fragments.sids new } }⟩
  | sensitivityOrder found =>
    have new := confined.orderItems found
    exact ⟨confined.signature, { confined.within with fragments := { fragments with
      sensitivities := forall_mem_concat fragments.sensitivities new } }⟩
  | categoryOrder found =>
    have new := confined.orderItems found
    exact ⟨confined.signature, { confined.within with fragments := { fragments with
      categories := forall_mem_concat fragments.categories new } }⟩
  | classPermissionSet _ found => exact confined.modifyClassPermissions (confined.classPerms found)
  | classMapping _ _ _ found =>
    have new := confined.classPerms found
    refine confined.modifyClasses (fun c => ?_) fun c _ old => ?_
    · simp only [ClassInfo.shape, Registry.size_modify]
    · exact old.modify fun refs _ holds => forall_mem_concat holds new
  | @default kind =>
    exact confined.modifyClasses (fun c => by cases kind <;> rfl) fun c _ old => by cases kind <;> exact old
  | defaultRange => exact confined.modifyClasses (fun _ => rfl) fun _ _ old => old
  | categorySet _ found =>
    have new := confined.categoryExpr ends found
    exact confined.modifyCategories (fun _ => rfl) fun _ _ _ => forall_some new
  | sensitivityCategory _ found =>
    have new := confined.categoryExpr ends found
    exact confined.modifySensitivities (fun _ => rfl) fun _ _ old => forall_mem_concat old new
  | level found => exact confined.setLevel (confined.levelSpec ends found)
  | levelRange found => exact confined.setRange (confined.rangeSpec ends found)
  | extendedSet found => exact confined.setExtended (confined.extendedSpec found)
  | context found => exact confined.setContext (confined.contextSpec ends found)
  | sidContext _ found => exact confined.setSid (confined.contextArg ends found)
  | handleUnknown | mls | capability => exact ⟨confined.signature, { confined.within with }⟩
  | @rule _ rule stated =>
    have new := confined.stated ends stated
    have marked := confined.markUsed rule
    exact ⟨marked.signature, { marked.within with rules := forall_mem_concat confined.within.rules new }⟩
  | label found =>
    have labels := found _ (fun _ _ => confined.contextArg ends) confined.within.labels
    exact ⟨confined.signature, { confined.within with labels }⟩

theorem chain {clause : Clause} (chain : Relation.ReflTransGen (Edit · site clause) db db') : Confined s db' := by
  induction chain with
  | refl => exact confined
  | tail _ edit held => exact held.edit ends edit

theorem resolveBody {body : List Statement} {rules : List PlacedRule}
    (h : db.resolveBody body = .ok (db', rules)) :
    Confined s db' ∧ ∀ r ∈ rules, s.RuleWithin r.rule := by
  have start : Confined s db ∧ ∀ r ∈ ([] : List PlacedRule), s.RuleWithin r.rule :=
    ⟨confined, by simp⟩
  refine foldlM_invariant (fun state : Database × List PlacedRule =>
    Confined s state.1 ∧ ∀ r ∈ state.2, s.RuleWithin r.rule) ?_ start h
  rintro ⟨db, rules⟩ statement next _ ⟨held, inside⟩ step
  cases statement with
  | conditional location condition branches =>
    cases step
    exact ⟨held, inside⟩
  | plain location clause =>
    obtain ⟨r, hrule, step⟩ := bind_eq_ok.mp step
    cases r with
    | none =>
      cases step
      exact ⟨held, inside⟩
    | some rule =>
      cases step
      exact ⟨held.markUsed rule, forall_mem_concat inside (held.stated ends (stated_of_rule? hrule rule rfl))⟩

theorem resolveStatement {statement : Statement} (h : db.resolveStatement statement = .ok db') :
    Confined s db' := by
  cases statement with
  | plain location clause => exact confined.chain ends (Edit.chain_of_clause h)
  | conditional location condition branches =>
    obtain ⟨e, he, h⟩ := bind_eq_ok.mp h
    obtain ⟨⟨marked, blocks⟩, hblocks, h⟩ := bind_eq_ok.mp h
    cases h
    have booleans : ∀ id ∈ e.leaves, id < s.booleans := by
      rw [← confined.signature]
      exact Expr.mem_leaves_traverse (fun _ _ => lt_size) condition he
    have start : Confined s db ∧ ∀ b ∈ ([] : List Block), ∀ r ∈ b.rules, s.RuleWithin r.rule :=
      ⟨confined, by simp⟩
    obtain ⟨held, rules⟩ := foldlM_invariant (fun state : Database × List Block =>
      Confined s state.1 ∧ ∀ b ∈ state.2, ∀ r ∈ b.rules, s.RuleWithin r.rule)
      (by
        rintro ⟨db, blocks⟩ branch next _ ⟨held, inside⟩ step
        obtain ⟨⟨marked, rules⟩, hbody, step⟩ := bind_eq_ok.mp step
        cases step
        obtain ⟨held, new⟩ := held.resolveBody ends hbody
        exact ⟨held, forall_mem_concat inside new⟩) start hblocks
    exact ⟨held.signature, { held.within with
      conditionals := forall_mem_concat held.within.conditionals ⟨booleans, rules⟩ }⟩

end Statements

end Confined

/-! ### The closed database -/

theorem Ready.aliasesEnd (ready : db.Ready) (categories : db.CategoryAliasesEnd) :
    db.signature.AliasesEnd where
  types := by
    intro id actual link
    obtain ⟨t, ht, same⟩ := Option.map_eq_some_iff.mp link
    simp only [TypeInfo.link, Prod.mk.injEq] at same
    obtain ⟨a, t', hactual, ht', plain⟩ := ready.types id t ht (by simp [TypeInfo.isAlias, same.1])
    refine ⟨a, same.2.symm.trans hactual, t'.kind, t'.actual, congrArg (Option.map _) ht', ?_⟩
    simpa [TypeInfo.isAlias] using plain
  sensitivities := by
    intro id actual link
    obtain ⟨i, hi, same⟩ := Option.map_eq_some_iff.mp link
    simp only [SensitivityInfo.link, Prod.mk.injEq] at same
    obtain ⟨i', hi', plain⟩ := ready.sensitivities id i hi
    rw [same.2] at hi'
    cases actual with
    | none =>
      cases hi.symm.trans hi'
      cases same.1.symm.trans plain
    | some a => exact ⟨a, rfl, i'.actual, (congrArg (Option.map _) hi').trans (by rw [← plain]; rfl)⟩
  categories := by
    intro id actual link
    obtain ⟨c, hc, same⟩ := Option.map_eq_some_iff.mp link
    simp only [CategoryInfo.link, Prod.mk.injEq] at same
    obtain ⟨a, c', hactual, hc', plain⟩ := categories id c hc same.1
    exact ⟨a, same.2.symm.trans hactual, c'.kind, c'.actual, congrArg (Option.map _) hc', plain⟩
  plain := by
    intro id actual link
    obtain ⟨i, hi, same⟩ := Option.map_eq_some_iff.mp link
    simp only [SensitivityInfo.link, Prod.mk.injEq] at same
    obtain ⟨i', hi', plain⟩ := ready.sensitivities id i hi
    rw [same.2] at hi'
    exact ⟨i'.actual, (congrArg (Option.map _) hi').trans (by rw [← plain]; rfl)⟩

/-- Every number in the database is that of a declaration and of no alias, aliases stand for
what is none, and the permissions of a kernel class fit into a word. -/
structure Closed (db : Database) : Prop where
  within : db.Within db.signature
  aliases : db.signature.AliasesEnd
  commons : ∀ id shape, db.signature.classes id = some shape →
    (∀ k ∈ shape.common, k < db.commons.size) ∧ (shape.isMap = true → shape.common = none)
  permissions : ∀ id shape, db.signature.classes id = some shape → shape.isMap = false →
    shape.total ≤ 32

theorem closed_of_ofStatements {repeats : Bool} {statements : List Statement}
    (h : ofStatements repeats statements = .ok db) : db.Closed := by
  obtain ⟨declared, first, h⟩ := bind_eq_ok.mp h
  obtain ⟨bound, second, h⟩ := bind_eq_ok.mp h
  obtain ⟨base, third, h⟩ := bind_eq_ok.mp h
  have ready := ready_of_passes first second third
  have fresh := foldlM_invariant Fresh (fun _ _ _ _ held step => held.entry (.of_declare step)) fresh_empty first
  have none : ({} : Database).CategoriesUnbound := Registry.all_empty _
  have unbound := foldlM_invariant CategoriesUnbound (fun _ _ _ _ held step => held.entry (.of_declare step)) none first
  have linked := foldlM_invariant Linked (fun _ _ _ _ held step => held.bond (.of_bind step)) (fresh.linked unbound) second
  obtain ⟨classes, commons, categories⟩ := linked.followAliases third
  have ends := ready.aliasesEnd categories
  -- No number is kept before the third pass, so the signature may be that of its end.
  have within := foldlM_invariant (Within · base.signature)
    (fun _ _ _ _ held step => held.entry (.of_declare step)) (within_empty _) first
  have within := foldlM_invariant (Within · base.signature)
    (fun _ _ _ _ held step => held.bond (.of_bind step)) within second
  have confined := foldlM_invariant (Confined base.signature)
    (fun _ _ _ _ held => held.resolveStatement ends) ⟨rfl, within.followAliases third⟩ h
  have size : db.commons.size = base.commons.size := congrArg Signature.commons confined.signature
  refine ⟨?_, ?_, ?_, ?_⟩
  · rw [confined.signature]
    exact confined.within
  · rw [confined.signature]
    exact ends
  · intro id shape hshape
    rw [confined.signature] at hshape
    obtain ⟨c, hc, rfl⟩ := Option.map_eq_some_iff.mp hshape
    rw [size, commons]
    rw [classes] at hc
    exact linked.commons id c hc
  · intro id shape hshape kernel
    rw [confined.signature] at hshape
    obtain ⟨c, hc, rfl⟩ := Option.map_eq_some_iff.mp hshape
    exact ready.classes id c hc kernel

end Database

end CilPolicy
