import CilPolicy.Proofs.Database.Edits
import CilPolicy.Proofs.Database.Extended

/-!
# What resolved statements refer to

While statements are resolved, the shape of classes and the aliases of sensitivities
stay as they are. So every reference that is kept fits the declarations: a permission
has a number below the count of its class, and the sensitivity of a level is no alias.
-/

namespace CilPolicy

/-! ### References that fit -/

namespace Expr

mutual

theorem mem_leaves_traverse {α β ε : Type} {find : α → Except ε β} {p : β → Prop}
    (found : ∀ a b, find a = .ok b → p b) : (e : Expr α) → {e' : Expr β} →
    e.traverse find = .ok e' → ∀ b ∈ e'.leaves, p b
  | item a, _, h => by
    obtain ⟨b, hb, rfl⟩ := map_eq_ok.mp h
    simpa [leaves] using found a b hb
  | list members, _, h => by
    obtain ⟨es, hes, rfl⟩ := map_eq_ok.mp h
    exact mem_leaves_traverseAll found members hes
  | apply op operands, _, h => by
    obtain ⟨es, hes, rfl⟩ := map_eq_ok.mp h
    exact mem_leaves_traverseAll found operands hes

theorem mem_leaves_traverseAll {α β ε : Type} {find : α → Except ε β} {p : β → Prop}
    (found : ∀ a b, find a = .ok b → p b) : (es : List (Expr α)) → {es' : List (Expr β)} →
    traverseAll find es = .ok es' → ∀ b ∈ leavesAll es', p b
  | [], _, h => by
    cases h
    simp [leavesAll]
  | e :: es, _, h => by
    obtain ⟨e', he, h⟩ := bind_eq_ok.mp h
    obtain ⟨es', hes, h⟩ := bind_eq_ok.mp h
    cases h
    intro b hb
    rcases List.mem_append.mp hb with hb | hb
    · exact mem_leaves_traverse found e he b hb
    · exact mem_leaves_traverseAll found es hes b hb

end

end Expr

/-- What resolving leaves of a class: whether it is a map, its common and the number of
its own permissions. -/
def ClassInfo.shape (c : ClassInfo) : Bool × Option Id × Nat :=
  (c.isMap, c.common, c.permissions.size)

/-- What resolving leaves of a type. -/
def TypeInfo.link (t : TypeInfo) : TypeKind × Option Id :=
  (t.kind, t.actual)

/-- What resolving leaves of a sensitivity. -/
def SensitivityInfo.link (s : SensitivityInfo) : Bool × Option Id :=
  (s.isAlias, s.actual)

namespace Database

open Resolve

/-- The permissions of a reference are permissions of its class. -/
def RefFits (db : Database) : ClassPerms Id → Prop
  | .named _ => True
  | .given cls e => ∀ c, db.classes.value? cls = some c → ∀ p ∈ e.leaves, p < db.permissionCount c

/-- The class is one of the kernel. -/
def IsKernelClass (db : Database) (id : Id) : Prop :=
  ∃ c, db.classes.value? id = some c ∧ c.isMap = false

/-- Extended permissions are those of a kernel class, and their numbers are a proper set. -/
def SpecFits (db : Database) (spec : ExtendedSpec Id BitSet) : Prop :=
  db.IsKernelClass spec.cls ∧ spec.numbers.WellFormed

/-- Extended permissions that are written out fit. -/
def ExtendedFits (db : Database) : ExtendedArg Id BitSet → Prop
  | .named _ => True
  | .given spec => db.SpecFits spec

def RuleFits (db : Database) : Rule → Prop
  | .access _ _ _ permissions => db.RefFits permissions
  | .extended _ _ _ permissions => db.ExtendedFits permissions
  | _ => True

/-- The sensitivity of a level that is written out is no alias. -/
def LevelFits (db : Database) : LevelArg Id → Prop
  | .named _ => True
  | .given spec => db.IsSensitivity spec.sensitivity

def RangeFits (db : Database) : RangeArg Id → Prop
  | .named _ => True
  | .given spec => db.LevelFits spec.low ∧ db.LevelFits spec.high

/-- The type is declared, and is neither an alias nor an attribute. -/
def IsConcreteType (db : Database) (id : Id) : Prop :=
  ∃ t, db.types.value? id = some t ∧ t.kind = .concrete

/-- A context that is written out has a concrete type and a range that fits. -/
def ContextFits (db : Database) : ContextArg Id → Prop
  | .named _ => True
  | .given spec => db.IsConcreteType spec.type ∧ db.RangeFits spec.range

/-- What holds of the database while its statements are resolved; `base` is the
database before. -/
structure Resolving (base db : Database) : Prop where
  commons : db.commons = base.commons
  classes : Registry.SameUnder ClassInfo.shape db.classes base.classes
  types : Registry.SameUnder TypeInfo.link db.types base.types
  sensitivities : Registry.SameUnder SensitivityInfo.link db.sensitivities base.sensitivities
  mappings : db.classes.All fun c => c.permissions.All fun refs => ∀ ref ∈ refs, base.RefFits ref
  sets : db.classPermissions.All fun refs => ∀ ref ∈ refs, base.RefFits ref
  extendedSets : db.extendedSets.All fun spec? => ∀ spec ∈ spec?, base.SpecFits spec
  rules : ∀ r ∈ db.rules, base.RuleFits r.rule
  conditionals : ∀ c ∈ db.conditionals, ∀ b ∈ c.blocks, ∀ r ∈ b.rules, base.RuleFits r.rule
  levels : db.levels.All fun spec? => ∀ spec ∈ spec?, base.LevelFits (.given spec)
  ranges : db.ranges.All fun spec? => ∀ spec ∈ spec?, base.RangeFits (.given spec)
  contexts : db.contexts.All fun spec? => ∀ spec ∈ spec?, base.ContextFits (.given spec)
  sids : db.sids.All fun context? => ∀ context ∈ context?, base.ContextFits context
  users : db.users.All fun u => ∀ range ∈ u.range, base.RangeFits range
  labels : db.labels.AllContexts base.ContextFits

theorem Ready.resolving {db : Database} (ready : db.Ready) : Resolving db db where
  commons := rfl
  classes := Registry.sameUnder_refl _ _
  types := Registry.sameUnder_refl _ _
  sensitivities := Registry.sameUnder_refl _ _
  mappings id c hc n refs hrefs := by
    rw [ready.mappings id c hc n refs hrefs]
    simp
  sets id refs hrefs := by
    rw [ready.sets id refs hrefs]
    simp
  extendedSets id spec? h := by simp [ready.extendedSets id spec? h]
  rules := by simp [ready.rules]
  conditionals := by simp [ready.conditionals]
  levels id spec? h := by simp [ready.levels id spec? h]
  ranges id spec? h := by simp [ready.ranges id spec? h]
  contexts id spec? h := by simp [ready.contexts id spec? h]
  sids id context? h := by simp [ready.sids id context? h]
  users id u h := by simp [ready.users id u h]
  labels := by
    rw [ready.labels]
    exact Labels.allContexts_empty _

theorem lt_of_findPermission? {db : Database} {c : ClassInfo} {name : String} {p : Nat}
    (h : db.findPermission? c name = some p) : p < db.permissionCount c := by
  unfold findPermission? at h
  dsimp only at h
  rw [permissionCount]
  split at h
  · rename_i own hown
    cases h
    have := Registry.lt_of_find? hown
    omega
  · have := Registry.lt_of_find? h
    omega

theorem permissionCount_congr {db db' : Database} {c c' : ClassInfo} (commons : db.commons = db'.commons)
    (shape : c.shape = c'.shape) : db.permissionCount c = db'.permissionCount c' := by
  simp only [ClassInfo.shape, Prod.mk.injEq] at shape
  simp only [permissionCount, commonPermissions, commons, shape]

namespace Resolving

variable {base db db' : Database} {site : Citation}

/-! ### Arguments -/

theorem classPerms (resolving : Resolving base db) {arg : ClassPerms String} {ref : ClassPerms Id}
    (h : db.classPerms arg site = .ok ref) : base.RefFits ref := by
  cases arg with
  | named set =>
    obtain ⟨id, _, h⟩ := bind_ok.mp h
    cases pure_ok h
    trivial
  | given cls permissions =>
    obtain ⟨⟨id, info⟩, hfind, h⟩ := bind_ok.mp h
    obtain ⟨e, he, h⟩ := bind_ok.mp h
    cases pure_ok h
    intro c hc
    obtain ⟨info', hinfo', shape⟩ := resolving.classes.exists_left hc
    cases (value?_of_find hfind).symm.trans hinfo'
    rw [← permissionCount_congr resolving.commons shape]
    refine Expr.mem_leaves_traverse (fun name p hp => ?_) permissions he
    cases found : db.findPermission? info name with
    | none =>
      simp only [found] at hp
      exact absurd hp not_unresolved
    | some q =>
      simp only [found] at hp
      cases pure_ok hp
      exact lt_of_findPermission? found

theorem findKernelClass (resolving : Resolving base db) {name : String} {id : Id}
    (h : db.findKernelClass name site = .ok id) : base.IsKernelClass id := by
  obtain ⟨⟨found, info⟩, hfind, h⟩ := bind_ok.mp h
  dsimp only at h
  split at h
  · exact absurd h not_violate
  · rename_i kernel
    cases pure_ok h
    obtain ⟨c, hc, shape⟩ := resolving.classes.exists_right (value?_of_find hfind)
    simp only [ClassInfo.shape, Prod.mk.injEq] at shape
    exact ⟨c, hc, by simpa [← shape.1] using kernel⟩

theorem extendedSpec (resolving : Resolving base db) {arg : ExtendedSpec String (Expr String)}
    {spec : ExtendedSpec Id BitSet} (h : db.extendedSpec arg site = .ok spec) : base.SpecFits spec := by
  obtain ⟨cls, hcls, h⟩ := bind_ok.mp h
  cases hnumbers : arg.numbers.extendedNumbers with
  | error fault =>
    simp only [hnumbers] at h
    exact absurd h not_violate
  | ok numbers =>
    simp only [hnumbers] at h
    cases pure_ok h
    exact ⟨resolving.findKernelClass hcls, (Expr.represents_extendedNumbers arg.numbers hnumbers).1⟩

theorem extendedArg (resolving : Resolving base db) {arg : ExtendedArg String (Expr String)}
    {permissions : ExtendedArg Id BitSet} (h : db.extendedArg arg site = .ok permissions) :
    base.ExtendedFits permissions := by
  cases arg with
  | named name =>
    obtain ⟨id, _, h⟩ := bind_ok.mp h
    cases pure_ok h
    trivial
  | given spec =>
    obtain ⟨spec', hspec, h⟩ := bind_ok.mp h
    cases pure_ok h
    exact resolving.extendedSpec hspec

theorem findSensitivity (ready : base.Ready) (resolving : Resolving base db) {name : String} {id : Id}
    (h : db.findSensitivity name site = .ok id) : base.IsSensitivity id := by
  obtain ⟨⟨found, info⟩, hfind, h⟩ := bind_ok.mp h
  cases pure_ok h
  obtain ⟨s, hs, link⟩ := resolving.sensitivities.exists_right (value?_of_find hfind)
  have target := ready.sensitivities found s hs
  simp only [SensitivityInfo.link, Prod.mk.injEq] at link
  rwa [link.2] at target

theorem levelSpec (ready : base.Ready) (resolving : Resolving base db) {arg : LevelSpec String}
    {spec : LevelSpec Id} (h : db.levelSpec arg site = .ok spec) : base.LevelFits (.given spec) := by
  obtain ⟨id, hid, h⟩ := bind_ok.mp h
  have fits := resolving.findSensitivity ready hid
  cases hcategories : arg.categories with
  | none =>
    simp only [hcategories] at h
    cases pure_ok h
    exact fits
  | some e =>
    simp only [hcategories] at h
    obtain ⟨e', _, h⟩ := bind_ok.mp h
    cases pure_ok h
    exact fits

theorem levelArg (ready : base.Ready) (resolving : Resolving base db) {arg : LevelArg String}
    {level : LevelArg Id} (h : db.levelArg arg site = .ok level) : base.LevelFits level := by
  cases arg with
  | named name =>
    obtain ⟨id, _, h⟩ := bind_ok.mp h
    cases pure_ok h
    trivial
  | given spec =>
    obtain ⟨spec', hspec, h⟩ := bind_ok.mp h
    cases pure_ok h
    exact resolving.levelSpec ready hspec

theorem rangeSpec (ready : base.Ready) (resolving : Resolving base db) {arg : RangeSpec String}
    {spec : RangeSpec Id} (h : db.rangeSpec arg site = .ok spec) : base.RangeFits (.given spec) := by
  obtain ⟨low, hlow, h⟩ := bind_ok.mp h
  obtain ⟨high, hhigh, h⟩ := bind_ok.mp h
  cases pure_ok h
  exact ⟨resolving.levelArg ready hlow, resolving.levelArg ready hhigh⟩

theorem rangeArg (ready : base.Ready) (resolving : Resolving base db) {arg : RangeArg String}
    {range : RangeArg Id} (h : db.rangeArg arg site = .ok range) : base.RangeFits range := by
  cases arg with
  | named name =>
    obtain ⟨id, _, h⟩ := bind_ok.mp h
    cases pure_ok h
    trivial
  | given spec =>
    obtain ⟨spec', hspec, h⟩ := bind_ok.mp h
    cases pure_ok h
    exact resolving.rangeSpec ready hspec

/-- What is found under the name of a type is no alias. -/
theorem findType (ready : base.Ready) (resolving : Resolving base db) {name : String} {id : Id}
    (h : db.findType name site = .ok id) : ∃ t, db.types.value? id = some t ∧ t.isAlias = false := by
  obtain ⟨⟨found, info⟩, hfind, h⟩ := bind_ok.mp h
  have hfound := value?_of_find hfind
  cases pure_ok h
  split
  · rename_i aliased
    obtain ⟨t, ht, link⟩ := resolving.types.exists_right hfound
    simp only [TypeInfo.link, Prod.mk.injEq] at link
    have aliased' : t.isAlias = true := by rwa [TypeInfo.isAlias, link.1]
    obtain ⟨a, target, hactual, htarget, plain⟩ := ready.types found t ht aliased'
    obtain ⟨target', htarget', link'⟩ := resolving.types.exists_left htarget
    simp only [TypeInfo.link, Prod.mk.injEq] at link'
    rw [← link.2, hactual]
    exact ⟨target', htarget', by rwa [TypeInfo.isAlias, link'.1]⟩
  · rename_i plain
    exact ⟨info, hfound, by simpa using plain⟩

theorem concreteType (ready : base.Ready) (resolving : Resolving base db) {name : String} {id : Id}
    (h : db.findType name site = .ok id) (plain : ¬ db.isTypeAttribute id = true) :
    base.IsConcreteType id := by
  obtain ⟨t, ht, noAlias⟩ := resolving.findType ready h
  obtain ⟨t', ht', link⟩ := resolving.types.exists_right ht
  simp only [TypeInfo.link, Prod.mk.injEq] at link
  refine ⟨t', ht', link.1.trans ?_⟩
  cases hkind : t.kind with
  | concrete => rfl
  | aliasName => simp [TypeInfo.isAlias, hkind] at noAlias
  | attr => exact absurd (Registry.test_iff.mpr ⟨t, ht, by simp [TypeInfo.isAttribute, hkind]⟩) plain

theorem contextSpec (ready : base.Ready) (resolving : Resolving base db) {arg : ContextSpec String}
    {spec : ContextSpec Id} (h : db.contextSpec arg site = .ok spec) :
    base.ContextFits (.given spec) := by
  rw [Database.contextSpec] at h
  obtain ⟨⟨user, userInfo⟩, _, h⟩ := bind_ok.mp h
  obtain ⟨_, h⟩ := check_ok h
  obtain ⟨⟨role, roleInfo⟩, _, h⟩ := bind_ok.mp h
  obtain ⟨_, h⟩ := check_ok h
  obtain ⟨type, htype, h⟩ := bind_ok.mp h
  obtain ⟨plain, h⟩ := check_ok h
  obtain ⟨range, hrange, h⟩ := bind_ok.mp h
  cases pure_ok h
  exact ⟨resolving.concreteType ready htype plain, resolving.rangeArg ready hrange⟩

theorem contextArg (ready : base.Ready) (resolving : Resolving base db) {arg : ContextArg String}
    {context : ContextArg Id} (h : db.contextArg arg site = .ok context) : base.ContextFits context := by
  cases arg with
  | named name =>
    obtain ⟨id, _, h⟩ := bind_ok.mp h
    cases pure_ok h
    trivial
  | given spec =>
    obtain ⟨spec', hspec, h⟩ := bind_ok.mp h
    cases pure_ok h
    exact resolving.contextSpec ready hspec

theorem stated (resolving : Resolving base db) {clause : Clause} {rule : Rule}
    (stated : db.Stated site clause rule) : base.RuleFits rule := by
  cases stated with
  | access _ _ grant => exact resolving.classPerms grant
  | extended _ _ grant => exact resolving.extendedArg grant
  | _ => trivial

/-! ### Statements -/

theorem link_mark (kind : AccessKind) (types base : Registry TypeInfo)
    (same : Registry.SameUnder TypeInfo.link types base) (id : Id) :
    Registry.SameUnder TypeInfo.link (markType kind types id) base := by
  refine same.modify fun t => ?_
  split
  · rfl
  · split
    · rfl
    · rfl

theorem markUsed (resolving : Resolving base db) (rule : Rule) : Resolving base (db.markUsed rule) := by
  simp only [Database.markUsed]
  split
  · exact { resolving with types := link_mark _ _ _ (link_mark _ _ _ resolving.types _) _ }
  · exact { resolving with types := link_mark _ _ _ (link_mark _ _ _ resolving.types _) _ }
  · exact resolving

/-- No change touches the shapes of classes or where aliases lead, and what it puts fits. -/
theorem edit (ready : base.Ready) (resolving : Resolving base db) {clause : Clause}
    (edit : db.Edit site clause db') : Resolving base db' := by
  cases edit with
  | typeSet | typeBounds | typePermissive =>
    exact { resolving with types := resolving.types.modify fun _ => rfl }
  | userSet | userBounds | userRole | userLevel =>
    exact { resolving with users := resolving.users.modify fun _ _ fits => fits }
  | userRange _ _ found =>
    have fits := resolving.rangeArg ready found
    exact { resolving with users := resolving.users.modify fun _ _ _ => forall_some fits }
  | classPermissionSet _ found =>
    have new := resolving.classPerms found
    exact { resolving with sets := resolving.sets.modify fun _ _ old => forall_mem_concat old new }
  | classMapping _ _ _ found =>
    have new := resolving.classPerms found
    refine { resolving with classes := resolving.classes.modify fun c => ?_, mappings := ?_ }
    · simp only [ClassInfo.shape, Registry.size_modify]
    · exact resolving.mappings.modify fun c _ old => old.modify fun refs _ holds => forall_mem_concat holds new
  | @default kind =>
    exact { resolving with
      classes := resolving.classes.modify fun c => by cases kind <;> rfl
      mappings := resolving.mappings.modify fun c _ fits => by cases kind <;> exact fits }
  | defaultRange =>
    exact { resolving with
      classes := resolving.classes.modify fun c => rfl
      mappings := resolving.mappings.modify fun c _ fits => fits }
  | sensitivityCategory =>
    exact { resolving with sensitivities := resolving.sensitivities.modify fun _ => rfl }
  | level found =>
    have fits := resolving.levelSpec ready found
    exact { resolving with levels := resolving.levels.modify fun _ _ _ => forall_some fits }
  | levelRange found =>
    have fits := resolving.rangeSpec ready found
    exact { resolving with ranges := resolving.ranges.modify fun _ _ _ => forall_some fits }
  | extendedSet found =>
    have fits := resolving.extendedSpec found
    exact { resolving with extendedSets := resolving.extendedSets.modify fun _ _ _ => forall_some fits }
  | context found =>
    have fits := resolving.contextSpec ready found
    exact { resolving with contexts := resolving.contexts.modify fun _ _ _ => forall_some fits }
  | sidContext _ found =>
    have fits := resolving.contextArg ready found
    exact { resolving with sids := resolving.sids.modify fun _ _ _ => forall_some fits }
  | rule stated =>
    have fits := resolving.stated stated
    exact { resolving.markUsed _ with rules := forall_mem_concat resolving.rules fits }
  | label found =>
    exact { resolving with labels := found _ (fun _ _ => resolving.contextArg ready) resolving.labels }
  | _ => exact { resolving with }

theorem chain (ready : base.Ready) (resolving : Resolving base db) {clause : Clause}
    (chain : Relation.ReflTransGen (Edit · site clause) db db') : Resolving base db' := by
  induction chain with
  | refl => exact resolving
  | tail _ edit held => exact held.edit ready edit

/-- The rules of an arm fit, and only types are marked on the way. -/
theorem resolveBody (resolving : Resolving base db) {body : List Statement} {rules : List PlacedRule}
    (h : db.resolveBody body = .ok (db', rules)) :
    Resolving base db' ∧ ∀ r ∈ rules, base.RuleFits r.rule := by
  have start : Resolving base db ∧ ∀ r ∈ ([] : List PlacedRule), base.RuleFits r.rule :=
    ⟨resolving, by simp⟩
  refine foldlM_invariant (fun state : Database × List PlacedRule =>
    Resolving base state.1 ∧ ∀ r ∈ state.2, base.RuleFits r.rule) ?_ start h
  rintro ⟨db, rules⟩ s next _ ⟨held, fits⟩ step
  cases s with
  | conditional location condition branches =>
    cases step
    exact ⟨held, fits⟩
  | plain location clause =>
    obtain ⟨r, hrule, step⟩ := bind_eq_ok.mp step
    cases r with
    | none =>
      cases step
      exact ⟨held, fits⟩
    | some rule =>
      cases step
      exact ⟨held.markUsed rule, forall_mem_concat fits (held.stated (stated_of_rule? hrule rule rfl))⟩

theorem resolveStatement (ready : base.Ready) (resolving : Resolving base db) {s : Statement}
    (h : db.resolveStatement s = .ok db') : Resolving base db' := by
  cases s with
  | plain location clause => exact resolving.chain ready (Edit.chain_of_clause h)
  | conditional location condition branches =>
    obtain ⟨e, _, h⟩ := bind_eq_ok.mp h
    obtain ⟨⟨marked, blocks⟩, hblocks, h⟩ := bind_eq_ok.mp h
    cases h
    have start : Resolving base db ∧ ∀ b ∈ ([] : List Block), ∀ r ∈ b.rules, base.RuleFits r.rule :=
      ⟨resolving, by simp⟩
    obtain ⟨held, fits⟩ := foldlM_invariant (fun state : Database × List Block =>
      Resolving base state.1 ∧ ∀ b ∈ state.2, ∀ r ∈ b.rules, base.RuleFits r.rule)
      (by
        rintro ⟨db, blocks⟩ branch next _ ⟨held, fits⟩ step
        obtain ⟨⟨marked, rules⟩, hbody, step⟩ := bind_eq_ok.mp step
        cases step
        obtain ⟨held, new⟩ := held.resolveBody hbody
        exact ⟨held, forall_mem_concat fits new⟩) start hblocks
    exact { held with conditionals := forall_mem_concat held.conditionals fits }

/-! ### The resolved database -/

theorem refFits (resolving : Resolving base db) {ref : ClassPerms Id} (fits : base.RefFits ref) :
    db.RefFits ref := by
  cases ref with
  | named set => trivial
  | given cls e =>
    intro c hc p hp
    obtain ⟨c', hc', shape⟩ := resolving.classes.exists_right hc
    rw [permissionCount_congr resolving.commons shape.symm]
    exact fits c' hc' p hp

theorem isKernelClass (resolving : Resolving base db) {id : Id} (kernel : base.IsKernelClass id) :
    db.IsKernelClass id := by
  obtain ⟨c, hc, plain⟩ := kernel
  obtain ⟨c', hc', shape⟩ := resolving.classes.exists_left hc
  simp only [ClassInfo.shape, Prod.mk.injEq] at shape
  exact ⟨c', hc', shape.1.trans plain⟩

theorem specFits (resolving : Resolving base db) {spec : ExtendedSpec Id BitSet} (fits : base.SpecFits spec) :
    db.SpecFits spec :=
  ⟨resolving.isKernelClass fits.1, fits.2⟩

theorem extendedFits (resolving : Resolving base db) {permissions : ExtendedArg Id BitSet}
    (fits : base.ExtendedFits permissions) : db.ExtendedFits permissions := by
  cases permissions with
  | named name => trivial
  | given spec => exact resolving.specFits fits

theorem ruleFits (resolving : Resolving base db) {rule : Rule} (fits : base.RuleFits rule) :
    db.RuleFits rule := by
  cases rule with
  | access kind source target permissions => exact resolving.refFits fits
  | extended kind source target permissions => exact resolving.extendedFits fits
  | _ => trivial

theorem levelFits (resolving : Resolving base db) {level : LevelArg Id} (fits : base.LevelFits level) :
    db.LevelFits level := by
  cases level with
  | named name => trivial
  | given spec =>
    obtain ⟨s, hs, plain⟩ := fits
    obtain ⟨s', hs', link⟩ := resolving.sensitivities.exists_left hs
    simp only [SensitivityInfo.link, Prod.mk.injEq] at link
    exact ⟨s', hs', link.1.trans plain⟩

theorem rangeFits (resolving : Resolving base db) {range : RangeArg Id} (fits : base.RangeFits range) :
    db.RangeFits range := by
  cases range with
  | named name => trivial
  | given spec => exact ⟨resolving.levelFits fits.1, resolving.levelFits fits.2⟩

theorem contextFits (resolving : Resolving base db) {context : ContextArg Id}
    (fits : base.ContextFits context) : db.ContextFits context := by
  cases context with
  | named name => trivial
  | given spec =>
    obtain ⟨⟨t, ht, concrete⟩, range⟩ := fits
    obtain ⟨t', ht', link⟩ := resolving.types.exists_left ht
    simp only [TypeInfo.link, Prod.mk.injEq] at link
    exact ⟨⟨t', ht', link.1.trans concrete⟩, resolving.rangeFits range⟩

end Resolving

/-- What a resolved database refers to fits its declarations. -/
structure Resolved (db : Database) : Prop where
  classes : db.ClassesFit
  mappings : db.classes.All fun c => c.permissions.All fun refs => ∀ ref ∈ refs, db.RefFits ref
  sets : db.classPermissions.All fun refs => ∀ ref ∈ refs, db.RefFits ref
  extendedSets : db.extendedSets.All fun spec? => ∀ spec ∈ spec?, db.SpecFits spec
  rules : ∀ r ∈ db.rules, db.RuleFits r.rule
  conditionals : ∀ c ∈ db.conditionals, ∀ b ∈ c.blocks, ∀ r ∈ b.rules, db.RuleFits r.rule
  levels : db.levels.All fun spec? => ∀ spec ∈ spec?, db.LevelFits (.given spec)
  ranges : db.ranges.All fun spec? => ∀ spec ∈ spec?, db.RangeFits (.given spec)
  contexts : db.contexts.All fun spec? => ∀ spec ∈ spec?, db.ContextFits (.given spec)
  sids : db.sids.All fun context? => ∀ context ∈ context?, db.ContextFits context
  users : db.users.All fun u => ∀ range ∈ u.range, db.RangeFits range
  labels : db.labels.AllContexts db.ContextFits

/-- The numbers that a rule refers to fit, named or given. -/
theorem Resolved.specFits {db : Database} (resolved : db.Resolved) {permissions : ExtendedArg Id BitSet}
    (fits : db.ExtendedFits permissions) {spec : ExtendedSpec Id BitSet}
    (hspec : db.extendedSpec? permissions = some spec) : db.SpecFits spec := by
  cases permissions with
  | named id => exact resolved.extendedSets id (some spec) (Option.join_eq_some_iff.mp hspec) spec rfl
  | given spec' =>
    cases hspec
    exact fits

theorem Resolving.resolved {base db : Database} (ready : base.Ready) (resolving : Resolving base db) :
    db.Resolved where
  classes id c hc kernel := by
    obtain ⟨c', hc', shape⟩ := resolving.classes.exists_right hc
    rw [permissionCount_congr resolving.commons shape.symm]
    simp only [ClassInfo.shape, Prod.mk.injEq] at shape
    exact ready.classes id c' hc' (shape.1.trans kernel)
  mappings id c hc n refs hrefs ref href :=
    resolving.refFits (resolving.mappings id c hc n refs hrefs ref href)
  sets id refs hrefs ref href := resolving.refFits (resolving.sets id refs hrefs ref href)
  extendedSets id spec? h spec hspec :=
    resolving.specFits (resolving.extendedSets id spec? h spec hspec)
  rules r hr := resolving.ruleFits (resolving.rules r hr)
  conditionals c hc b hb r hr := resolving.ruleFits (resolving.conditionals c hc b hb r hr)
  levels id spec? h spec hspec := resolving.levelFits (resolving.levels id spec? h spec hspec)
  ranges id spec? h spec hspec := resolving.rangeFits (resolving.ranges id spec? h spec hspec)
  contexts id spec? h spec hspec := resolving.contextFits (resolving.contexts id spec? h spec hspec)
  sids id context? h context hcontext :=
    resolving.contextFits (resolving.sids id context? h context hcontext)
  users id u h range hrange := resolving.rangeFits (resolving.users id u h range hrange)
  labels := resolving.labels.imp fun _ => resolving.contextFits

/-- What the statements of a policy come to refers to its declarations properly. -/
theorem resolved_of_ofStatements {repeats : Bool} {statements : List Statement} {db : Database}
    (h : ofStatements repeats statements = .ok db) : db.Resolved := by
  obtain ⟨declared, first, h⟩ := bind_eq_ok.mp h
  obtain ⟨bound, second, h⟩ := bind_eq_ok.mp h
  obtain ⟨base, third, h⟩ := bind_eq_ok.mp h
  have ready := ready_of_passes first second third
  have resolving := foldlM_invariant (Resolving base)
    (fun _ _ _ _ held => held.resolveStatement ready) ready.resolving h
  exact resolving.resolved ready

end Database

end CilPolicy
