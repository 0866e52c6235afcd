import CilPolicy.Proofs.Lowering.TypeRules
import CilPolicy.Proofs.Verification.Inside

/-!
# What lowering looks up

Lowering goes from the numbers of declarations to kernel values and back. Every value that
it takes one from is positive and within its numbering, every permission that it shifts by
or names is one of a kernel class, and every word that it reads as a result is the value of
a type. This holds at each step, whether or not a later one has a fault.
-/

namespace CilPolicy

namespace Numbering

/-- The value is handed out. -/
def Holds (n : Numbering) (v : Nat) : Prop :=
  0 < v ∧ v ≤ n.size

theorem holds_of_value? {n : Numbering} {id : Id} {v : Nat} (h : n.value? id = some v) : n.Holds v := by
  obtain ⟨i, hi, rfl⟩ := value?_eq_some.mp h
  obtain ⟨inside, _⟩ := List.idxOf?_eq_some_iff.mp hi
  exact ⟨Nat.succ_pos i, inside⟩

end Numbering

/-! ### Permissions -/

namespace Database

variable {db : Database}

/-- The permissions are some of a kernel class. -/
def GrantInside (db : Database) (g : ClassGrant) : Prop :=
  ∃ c, db.classes.value? g.cls = some c ∧ c.isMap = false ∧
    ∀ p, g.word.getLsbD p = true → p < db.permissionCount c

theorem Closed.permissionCount_le (closed : db.Closed) {cls : Id} {c : ClassInfo}
    (hc : db.classes.value? cls = some c) (kernel : c.isMap = false) : db.permissionCount c ≤ 32 :=
  closed.permissions cls (db.classShape c) (congrArg (Option.map _) hc) kernel

theorem grantInside_own {cls : Id} {e : Expr Id} (within : db.signature.PermissionsWithin (.given cls e))
    (noMap : ¬ db.classes.test cls (·.isMap) = true) :
    db.GrantInside ⟨cls, permissionWord (db.permissionBitsOf cls e)⟩ := by
  obtain ⟨shape, link, _⟩ := id within
  obtain ⟨c, hc, _⟩ := Option.map_eq_some_iff.mp link
  refine ⟨c, hc, by simpa [Registry.test, hc] using noMap, fun p bit => ?_⟩
  rw [permissionBitsOf, hc] at bit
  have word : p < 32 := BitVec.lt_of_getLsbD bit
  exact lt_permissionCount hc within
    ((getLsbD_permissionWord (wellFormed_permissionBits c e) word).mp bit)

theorem Closed.leafGrants_inside (closed : db.Closed) {fuel : Nat} {ref : ClassPerms Id}
    (within : db.signature.PermissionsWithin ref) : ∀ g ∈ db.leafGrants fuel ref, db.GrantInside g := by
  induction fuel generalizing ref with
  | zero => simp [leafGrants]
  | succ fuel ih =>
    intro g hg
    cases ref with
    | named id =>
      obtain ⟨inner, hinner, hg⟩ := List.mem_flatMap.mp hg
      exact ih (closed.permissionRefs_within _ inner hinner) g hg
    | given cls e =>
      rw [leafGrants] at hg
      split at hg
      · obtain ⟨node, _, hg⟩ := List.mem_flatMap.mp hg
        obtain ⟨inner, hinner, hg⟩ := List.mem_flatMap.mp hg
        exact ih (closed.permissionRefs_within node inner hinner) g hg
      · rename_i noMap
        cases List.mem_singleton.mp hg
        exact grantInside_own within noMap

theorem addGrant_inside {grant : ClassGrant} {grants : List ClassGrant} (new : db.GrantInside grant)
    (old : ∀ g ∈ grants, db.GrantInside g) : ∀ g ∈ addGrant grant grants, db.GrantInside g := by
  induction grants with
  | nil =>
    intro g hg
    exact List.mem_singleton.mp hg ▸ new
  | cons first rest ih =>
    have others := fun g hg => old g (List.mem_cons_of_mem first hg)
    intro g hg
    rw [addGrant] at hg
    split at hg
    · rename_i same
      rcases List.mem_cons.mp hg with rfl | hg
      · obtain ⟨c, hc, kernel, bits⟩ := old first List.mem_cons_self
        obtain ⟨c', hc', _, bits'⟩ := new
        rw [← same] at hc'
        cases hc.symm.trans hc'
        refine ⟨c, hc, kernel, fun p bit => ?_⟩
        rw [BitVec.getLsbD_or, Bool.or_eq_true] at bit
        exact bit.elim (bits p) (bits' p)
      · exact others g hg
    · rcases List.mem_cons.mp hg with rfl | hg
      · exact old g List.mem_cons_self
      · exact ih others g hg

theorem Closed.grants_inside (closed : db.Closed) {ref : ClassPerms Id}
    (within : db.signature.PermissionsWithin ref) : ∀ g ∈ db.grants ref, db.GrantInside g := by
  refine List.foldlRecOn (motive := fun all => ∀ g ∈ all, db.GrantInside g) _ _ (by simp) ?_
  intro all held grant hgrant
  exact addGrant_inside (closed.leafGrants_inside within grant hgrant) held

end Database

/-! ### Rules -/

namespace Lowering

variable {l : Lowering} {location : Location} {base : AccessRules}

/-- Every part of the key is a value that is handed out. -/
structure KeyInside (l : Lowering) (key : AccessKey) : Prop where
  source : l.types.Holds key.source.toNat
  target : l.types.Holds key.target.toNat
  cls : l.classes.Holds key.cls.toNat

/-- Keys are made of values, and the word of a type rule is the value of a type. -/
structure AccessInside (l : Lowering) (rules : AccessRules) : Prop where
  words : ∀ key word, (key, word) ∈ rules.words → l.KeyInside key ∧
    (key.kinds ∈ RuleKinds.resultKinds → ∃ v, word = BitVec.ofNat 32 v ∧ l.types.Holds v)
  extended : ∀ key numbers, (key, numbers) ∈ rules.extended → l.KeyInside key

/-- The same of gathered rules, with what they forbid. -/
structure TablesInside (l : Lowering) (t : RuleTables) : Prop where
  access : l.AccessInside t.access
  neverAllows : ∀ rule ∈ t.neverAllows, ∀ g ∈ rule.grants, l.db.GrantInside g

theorem accessInside_empty : l.AccessInside {} :=
  ⟨by simp, by simp⟩

theorem tablesInside_empty : l.TablesInside {} :=
  ⟨accessInside_empty, by simp⟩

theorem holds_typeValue {id : Id} {v : Nat} (h : l.typeValue? id = some v) : l.types.Holds v := by
  rw [typeValue?] at h
  split at h
  · obtain ⟨actual, _, hactual⟩ := Option.bind_eq_some_iff.mp h
    exact Numbering.holds_of_value? hactual
  · exact Numbering.holds_of_value? h

theorem holds_concreteTypes {id : Id} : ∀ v ∈ l.concreteTypes id, l.types.Holds v := by
  intro v hv
  obtain ⟨s, _, hs⟩ := List.mem_filterMap.mp hv
  exact Numbering.holds_of_value? hs

theorem holds_ruleTypes {id : Id} : ∀ v ∈ l.ruleTypes id, l.types.Holds v := by
  intro v hv
  rw [ruleTypes] at hv
  split at hv
  · exact Numbering.holds_of_value? (Option.mem_toList.mp hv)
  · exact holds_concreteTypes v hv

theorem holds_pairsWith {types : Id → List Nat} (holds : ∀ id, ∀ v ∈ types id, l.types.Holds v)
    {source : Id} {target : RuleTarget} :
    ∀ pair ∈ l.pairsWith types source target, l.types.Holds pair.1 ∧ l.types.Holds pair.2 := by
  intro pair hpair
  cases target with
  | self =>
    obtain ⟨s, hs, rfl⟩ := List.mem_map.mp hpair
    exact ⟨holds_concreteTypes s hs, holds_concreteTypes s hs⟩
  | type id =>
    obtain ⟨s, hs, hpair⟩ := List.mem_flatMap.mp hpair
    obtain ⟨t, ht, rfl⟩ := List.mem_map.mp hpair
    exact ⟨holds source s hs, holds id t ht⟩

theorem keyInside_of_accessKey {pair : Nat × Nat} {cls : Id} {kinds : RuleKinds} {key : AccessKey}
    (holds : l.types.Holds pair.1 ∧ l.types.Holds pair.2)
    (h : l.accessKey location pair cls kinds = .ok key) : l.KeyInside key := by
  obtain ⟨hsource, htarget, hcls, _⟩ := accessKey_ok h
  exact ⟨hsource ▸ holds.1, htarget ▸ holds.2, Numbering.holds_of_value? hcls⟩

theorem AccessInside.grant {rules : AccessRules} (inside : l.AccessInside rules) {key : AccessKey}
    (new : l.KeyInside key) (vector : key.kinds ∈ RuleKinds.vectorKinds) (permissions : BitVec 32) :
    l.AccessInside (rules.grant key permissions) where
  words := by
    intro k word hword
    by_cases same : k = key
    · subst same
      exact ⟨new, fun result => absurd rfl (RuleKinds.result_ne_vector result vector)⟩
    · exact inside.words k word ((mem_upsert_of_ne same).mp hword)
  extended := inside.extended

theorem AccessInside.extend {rules : AccessRules} (inside : l.AccessInside rules) {key : AccessKey}
    (new : l.KeyInside key) (numbers : BitSet) : l.AccessInside (rules.extend key numbers) where
  words := inside.words
  extended := by
    intro k w hw
    rcases key_of_mem_upsert hw with rfl | ⟨v, hv⟩
    · exact new
    · exact inside.extended k v hv

theorem AccessInside.setResult {rules : AccessRules} (inside : l.AccessInside rules) {key : AccessKey}
    (new : l.KeyInside key) {result : Nat} (holds : l.types.Holds result) :
    l.AccessInside (rules.setResult key result) where
  words := by
    intro k word hword
    rcases List.mem_append.mp hword with old | last
    · exact inside.words k word old
    · cases List.mem_singleton.mp last
      exact ⟨new, fun _ => ⟨result, rfl, holds⟩⟩
  extended := inside.extended

theorem addAccess_inside (closed : l.db.Closed) {t : RuleTables} (inside : l.TablesInside t)
    {kind : AccessKind} {source : Id} {target : RuleTarget} {permissions : ClassPerms Id}
    (within : l.db.signature.PermissionsWithin permissions) :
    l.TablesInside (l.addAccess t location kind source target permissions).table := by
  refine ⟨addAccess_keeps l.AccessInside (fun r key word grants held => ?_) inside.access, ?_⟩
  · have vector := grants.vector
    obtain ⟨pair, hpair, g, _, rfl, _, _, _, hkey⟩ := grants
    have holds := holds_pairsWith (fun _ => holds_ruleTypes) pair hpair
    exact held.grant (keyInside_of_accessKey holds hkey) vector g.word
  · have grants := closed.grants_inside within
    unfold addAccess
    dsimp only
    split
    · exact Database.forall_mem_concat inside.neverAllows grants
    · exact inside.neverAllows

theorem grantInside_ioctl {cls : Id} (kernel : l.db.signature.IsKernelClass cls) :
    l.db.GrantInside (l.ioctlGrant cls) := by
  obtain ⟨shape, link, plain⟩ := kernel
  obtain ⟨c, hc, rfl⟩ := Option.map_eq_some_iff.mp link
  refine ⟨c, hc, plain, fun p bit => ?_⟩
  simp only [ioctlGrant, hc, Option.bind_some] at bit
  cases found : l.db.findPermission? c "ioctl" with
  | none => simp [found] at bit
  | some ioctl =>
    simp only [found, BitVec.getLsbD_shiftLeft, BitVec.getLsbD_one] at bit
    have same : p = ioctl := by
      simp only [Bool.and_eq_true, decide_eq_true_eq, Bool.not_eq_eq_eq_not, Bool.not_true,
        decide_eq_false_iff_not] at bit
      omega
    exact same ▸ Database.lt_of_findPermission? found

theorem addExtended_inside (closed : l.db.Closed) {t : RuleTables} (inside : l.TablesInside t)
    {kind : AccessKind} {source : Id} {target : RuleTarget} {permissions : ExtendedArg Id BitSet}
    (within : l.db.signature.ExtendedWithin permissions) :
    l.TablesInside (l.addExtended t location kind source target permissions).table := by
  refine ⟨addExtended_keeps l.AccessInside (fun r key numbers added held => ?_) inside.access, ?_⟩
  · obtain ⟨_, pair, hpair, _, _, _, _, _, hkey⟩ := added
    have holds := holds_pairsWith (fun _ => holds_ruleTypes) pair hpair
    exact held.extend (keyInside_of_accessKey holds hkey) numbers
  · rw [addExtended]
    split
    · exact inside.neverAllows
    · rename_i spec hspec _
      have ioctl := grantInside_ioctl (closed.extendedSpec within hspec)
      refine Database.forall_mem_concat inside.neverAllows ?_
      intro g hg
      exact List.mem_singleton.mp hg ▸ ioctl
    · split
      · exact inside.neverAllows
      · exact inside.neverAllows

theorem addTypeRule_inside {t : RuleTables} (inside : l.TablesInside t) {kind : TypeRuleKind} {source : Id}
    {target : RuleTarget} {cls result : Id} :
    l.TablesInside (l.addTypeRule base t location kind source target cls result).table := by
  refine ⟨addTypeRule_keeps l.AccessInside (fun r key value sets _ _ held => ?_) inside.access, ?_⟩
  · obtain ⟨hvalue, pair, hpair, hkey⟩ := sets
    have holds := holds_pairsWith (fun _ => holds_concreteTypes) pair hpair
    exact held.setResult (keyInside_of_accessKey holds hkey) (holds_typeValue hvalue)
  · obtain ⟨_, same⟩ := l.addTypeRule_only t location base kind source target cls result
    rw [same]
    exact inside.neverAllows

theorem addRule_inside (closed : l.db.Closed) {t : RuleTables} (inside : l.TablesInside t) {r : PlacedRule}
    (within : l.db.signature.RuleWithin r.rule) : l.TablesInside (l.addRule t r).table := by
  rw [addRule]
  cases hrule : r.rule with
  | access kind source target permissions =>
    rw [hrule] at within
    exact addAccess_inside closed inside within.2.2
  | extended kind source target permissions =>
    rw [hrule] at within
    exact addExtended_inside closed inside within.2.2
  | type kind source target cls result => exact addTypeRule_inside inside
  | namedTransition source target cls name result =>
    obtain ⟨_, same⟩ := l.addNamedTransition_only t r.location source target cls name result
    dsimp only
    rw [same]
    exact ⟨inside.access, inside.neverAllows⟩
  | roleTransition source target cls result =>
    obtain ⟨_, same⟩ := l.addRoleTransition_only t r.location source target cls result
    dsimp only
    rw [same]
    exact ⟨inside.access, inside.neverAllows⟩
  | roleAllow source target => exact ⟨inside.access, inside.neverAllows⟩
  | rangeTransition source target cls range =>
    obtain ⟨_, same⟩ := l.addRangeTransition_only t r.location source target cls range
    dsimp only
    rw [same]
    exact ⟨inside.access, inside.neverAllows⟩

theorem addArmRule_inside (closed : l.db.Closed) {t : RuleTables} (inside : l.TablesInside t) {r : PlacedRule}
    (within : l.db.signature.RuleWithin r.rule) : l.TablesInside (l.addArmRule base t r).table := by
  rw [addArmRule]
  split
  · rename_i hrule
    rw [hrule] at within
    exact addAccess_inside closed inside within.2.2
  · exact addTypeRule_inside inside
  · exact inside
  · exact inside

/-! ### All of lowering -/

/-- What lowering looks up, shifts by and takes from. -/
structure Inside (l : Lowering) : Prop where
  types : ∀ id v, l.typeValue? id = some v → l.types.Holds v
  roles : ∀ id v, l.roles.value? id = some v → l.roles.Holds v
  users : ∀ id v, l.users.value? id = some v → l.users.Holds v
  classes : ∀ id v, l.classes.value? id = some v → l.classes.Holds v
  sensitivities : ∀ id v, l.sensitivities.value? id = some v → l.sensitivities.Holds v
  rulePairs : ∀ source target, ∀ pair ∈ l.rulePairs source target,
    l.types.Holds pair.1 ∧ l.types.Holds pair.2
  concretePairs : ∀ source target, ∀ pair ∈ l.concretePairs source target,
    l.types.Holds pair.1 ∧ l.types.Holds pair.2
  /-- Shifts of permissions, of classes that are no maps. -/
  shifts : ∀ cls e, l.db.signature.PermissionsWithin (.given cls e) → l.db.signature.IsKernelClass cls →
    ∀ p ∈ l.db.permissionBitsOf cls e, p < 32
  ioctl : ∀ cls c p, l.db.classes.value? cls = some c → c.isMap = false →
    l.db.findPermission? c "ioctl" = some p → p < 32
  grants : ∀ ref, l.db.signature.PermissionsWithin ref → ∀ g ∈ l.db.grants ref, l.db.GrantInside g
  rules : ∀ rules, rules <+: l.db.rules → l.TablesInside (Step.gather l.addRule {} rules).table
  arms : ∀ c ∈ l.db.conditionals, ∀ value rules, rules <+: c.rules value →
    l.TablesInside (Step.gather (l.addArmRule l.rules.table.access) {} rules).table
  breaches : ∀ rule, (∀ g ∈ rule.grants, l.db.GrantInside g) → ∀ table e g,
    l.breach? rule table e = some g → l.db.GrantInside g
  conditions : ∀ c ∈ l.db.conditionals, ∀ items, l.condition? c = some items →
    ∀ b, .bool b ∈ items → l.booleans.Holds b

theorem breach_inside {rule : NeverAllow} (grants : ∀ g ∈ rule.grants, l.db.GrantInside g)
    {table : AccessTable} {e : AccessEntry} {g : ClassGrant} (h : l.breach? rule table e = some g) :
    l.db.GrantInside g := by
  rw [breach?] at h
  split at h
  · cases h
  · obtain ⟨forbidden, hforbidden, h⟩ := Option.bind_eq_some_iff.mp h
    have listed := List.mem_of_find?_eq_some hforbidden
    obtain ⟨c, hc, kernel, bits⟩ := grants forbidden listed
    dsimp only at h
    split at h
    · cases h
    · split at h
      · cases h
        refine ⟨c, hc, kernel, fun p bit => bits p ?_⟩
        rw [BitVec.getLsbD_and, Bool.and_eq_true] at bit
        exact bit.2
      · cases h

theorem inside_new {db : EvaluatedDatabase} (closed : db.Closed) (settings : Settings)
    (options : LoweringOptions) : (Lowering.new db settings options).Inside where
  types _ _ := holds_typeValue
  roles _ _ := Numbering.holds_of_value?
  users _ _ := Numbering.holds_of_value?
  classes _ _ := Numbering.holds_of_value?
  sensitivities _ _ := Numbering.holds_of_value?
  rulePairs _ _ := holds_pairsWith fun _ => holds_ruleTypes
  concretePairs _ _ := holds_pairsWith fun _ => holds_concreteTypes
  shifts := by
    intro cls e within kernel p hp
    obtain ⟨shape, link, plain⟩ := kernel
    obtain ⟨c, hc, rfl⟩ := Option.map_eq_some_iff.mp link
    rw [Database.permissionBitsOf, hc] at hp
    exact Nat.lt_of_lt_of_le (Database.lt_permissionCount hc within hp) (closed.permissionCount_le hc plain)
  ioctl := by
    intro cls c p hc kernel found
    exact Nat.lt_of_lt_of_le (Database.lt_of_findPermission? found) (closed.permissionCount_le hc kernel)
  grants _ := closed.grants_inside
  rules := by
    intro rules ahead
    refine Step.gather_keeps _ (fun t r hr held => ?_) tablesInside_empty
    exact addRule_inside closed held (closed.within.rules r (ahead.subset hr))
  arms := by
    intro c hc value rules ahead
    refine Step.gather_keeps _ (fun t r hr held => ?_) tablesInside_empty
    obtain ⟨b, hb, hr⟩ := List.mem_flatMap.mp (ahead.subset hr)
    have listed := (List.mem_filter.mp hb).1
    exact addArmRule_inside closed held ((closed.within.conditionals c hc).rules b listed r hr)
  breaches _ grants _ _ _ := breach_inside grants
  conditions := by
    intro c hc items found b hb
    obtain ⟨id, hid, heq⟩ := Expr.bool_mem_conditionItems found b hb
    have declared : id < db.booleans.size := (closed.within.conditionals c hc).condition id hid
    obtain ⟨value, hvalue⟩ := Registry.exists_value? declared
    have listed : id ∈ (Lowering.new db settings options).booleans.ids :=
      Numbering.mem_ofRegistry.mpr ⟨value, hvalue, rfl⟩
    obtain ⟨v, hv⟩ := Numbering.exists_value? listed
    rw [hv] at heq
    exact heq ▸ Numbering.holds_of_value? hv

end Lowering

/-- Resolution closes the database, and from there on no stage looks up what is not declared:
every number and value that it goes on with is inside its registry, order or numbering. -/
theorem Database.closed_and_stages_inside {repeats : Bool} {statements : List Statement} {db : Database}
    (resolve : (Database.resolve repeats statements).outcome.1 = .ok db) :
    db.Closed ∧ db.OrderInside ∧
      ∀ ordered, db.order.outcome.1 = .ok ordered →
        ordered.OrdersInside ∧ ordered.CyclesInside ∧ ordered.SetsInside ∧
          ∀ evaluated, (ordered.evaluate repeats).outcome.1 = .ok evaluated →
            evaluated.Closed ∧ evaluated.ChecksInside ∧
              ∀ settings options, (Lowering.new evaluated settings options).Inside := by
  obtain ⟨_, hresolved, run⟩ := Report.yields_bind (Report.yields_of_outcome resolve)
  obtain ⟨_, _, run⟩ := Report.yields_bind run
  cases Report.yields_pure run
  have closed := closed_of_ofStatements (Report.yields_lift hresolved)
  refine ⟨closed, closed.orderInside, fun ordered order => ?_⟩
  have order := Report.yields_of_outcome order
  have orders := closed.orderInside.orders order
  obtain ⟨rfl, _⟩ := order_spec order
  refine ⟨orders, closed.cyclesInside, setsInside _, fun evaluated evaluate => ?_⟩
  have evaluate := Report.yields_of_outcome evaluate
  obtain ⟨sets, same⟩ := OrderedDatabase.evaluate_spec evaluate
  have closed' : evaluated.Closed := by
    rw [same]
    exact closed.evaluated
  have orders' : evaluated.OrdersInside := by
    rw [same]
    exact ⟨orders.classes, orders.sids, orders.sensitivities, orders.categories⟩
  have known := OrderedDatabase.knownWithin_evaluate evaluate
  exact ⟨closed', EvaluatedDatabase.checksInside closed' orders' sets known, Lowering.inside_new closed'⟩

/-- A policy with levels and labels, in which aliases, a common, a map and a category set stand between
names and what they come to. -/
def linkedPolicy : List Statement :=
  let level : LevelArg String := .given ⟨"t0", some (.item "all")⟩
  let low : LevelArg String := .given ⟨"t0", none⟩
  smallPolicy ([.mls true, .declare (.aliasName .type) "c", .bindAlias .type "c" "a",
    .declare (.aliasName .sensitivity) "t0", .bindAlias .sensitivity "t0" "s0",
    .declare .category "c0", .declare .category "c1", .order .category ["c0", "c1"],
    .declare (.aliasName .category) "d1", .bindAlias .category "d1" "c1",
    .categorySet "all" (.list [.item "c0", .item "d1"]), .sensitivityCategory "s0" (.item "all"),
    .permissions .common "base" ["write"], .classCommon "file" "base",
    .permissions .map "files" ["look"],
    .classMapping "files" "look" (.given "file" (.list [.item "write", .item "ioctl"])),
    .access .allow "both" "c" (.given "files" (.list [.item "look"])), .boolean "x" true,
    .namedTransition "b" "c" "file" "log" "c", .roleTransition "r" "b" "file" "r",
    .rangeTransition "a" "b" "file" (.given ⟨level, level⟩),
    .port ⟨.tcp, 5, 5⟩ (.given ⟨"u", "r", "c", .given ⟨low, low⟩⟩)].map (Statement.plain {}) ++
    [.conditional {} (.apply .not [.item "x"])
      [.mk {} .whenTrue [.plain {} (.typeRule .transition "b" "c" "file" "c")]]])

theorem linkedPolicy_lowers : lowersTo linkedPolicy {} (fun _ _ _ => true) = true := by
  decide +kernel

theorem stages_inside_linked : ∃ db ordered evaluated,
    (Database.resolve false linkedPolicy).outcome.1 = .ok db ∧ db.order.outcome.1 = .ok ordered ∧
    (ordered.evaluate false).outcome.1 = .ok evaluated ∧ db.Closed ∧ ordered.OrdersInside ∧
    ordered.CyclesInside ∧ evaluated.ChecksInside ∧ (Lowering.new evaluated default {}).Inside := by
  obtain ⟨db, ordered, evaluated, _, _, resolve, order, _, evaluate, _⟩ :=
    stages_of_lowersTo linkedPolicy_lowers
  obtain ⟨closed, _, stages⟩ := Database.closed_and_stages_inside resolve
  obtain ⟨orders, cycles, _, stages⟩ := stages ordered order
  obtain ⟨_, checks, inside⟩ := stages evaluated evaluate
  exact ⟨db, ordered, evaluated, resolve, order, evaluate, closed, orders, cycles, checks, inside default {}⟩

end CilPolicy
