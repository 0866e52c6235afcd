import CilPolicy.Proofs.Lowering.Sources

/-!
# One value for one name

Whatever part of a kernel policy has a value, it is the one that a symbol table gives for the
name that the policy has in this place: of a sensitivity or category in a level, of a
permission in the word of a key, of the class of a key and of a boolean in a condition.
-/

namespace CilPolicy

theorem Registry.get?_of_find? {α : Type} {r : Registry α} {name : String} {id : Id}
    (h : r.find? name = some id) : ∃ d, r.get? id = some d ∧ d.name = name := by
  obtain ⟨inside, same, _⟩ := Array.findIdx?_eq_some_iff_getElem.mp h
  exact ⟨r.entries[id], Array.getElem?_eq_getElem inside, by simpa using same⟩

/-! ### Permissions -/

namespace Database

variable {db : Database} {c : ClassInfo} {i : Id}

theorem permissionName_common {d : Declared Unit} (hd : (db.commonPermissions c).get? i = some d) :
    db.permissionName c i = d.name := by
  have inside : i < (db.commonPermissions c).size := Registry.lt_of_value? (v := d.value) (by
    rw [Registry.value?, hd, Option.map_some])
  rw [permissionName, if_pos inside, Registry.nameOf, hd]
  rfl

theorem permissionName_own {d : Declared (List (ClassPerms Id))} (hd : c.permissions.get? i = some d) :
    db.permissionName c ((db.commonPermissions c).size + i) = d.name := by
  rw [permissionName, if_neg (Nat.not_lt.mpr (Nat.le_add_right _ _)), Nat.add_sub_cancel_left,
    Registry.nameOf, hd]
  rfl

end Database

theorem find?_permissionSymbols {α : Type} {r : Registry α} {primaries before : Nat} {t : SymbolTable Nat}
    (run : permissionSymbols r primaries before = .ok t) {name : String} {v : Nat} :
    t.find? name = some v ↔ ∃ i d, r.get? i = some d ∧ d.name = name ∧ before + i + 1 = v := by
  rw [SymbolTable.find?_ofList run, List.mem_map]
  constructor
  · rintro ⟨⟨i, d⟩, hmem, heq⟩
    cases heq
    exact ⟨i, d, Registry.mem_indexed.mp hmem, rfl, rfl⟩
  · rintro ⟨i, d, hd, rfl, rfl⟩
    exact ⟨(i, d), Registry.mem_indexed.mpr hd, rfl⟩

namespace KernelPolicy

/-- The class has the permission with the value, as its own or in its common. -/
def HasPermission (k : KernelPolicy) (datum : ClassDatum) (name : String) (v : Nat) : Prop :=
  datum.permissions.find? name = some v ∨
    ∃ common entry, datum.common = some common ∧ k.commons.find? common = some entry ∧
      entry.permissions.find? name = some v

/-- The class is in the table, and the values of its permissions are their numbers, counted
from one. -/
structure SpellsClass (k : KernelPolicy) (db : EvaluatedDatabase) (cls : Id) (c : ClassInfo)
    (datum : ClassDatum) : Prop where
  found : k.classes.find? (db.classes.nameOf cls) = some datum
  values : ∀ name v, k.HasPermission datum name v ↔
    ∃ p, p < db.permissionCount c ∧ db.permissionName c p = name ∧ p + 1 = v
  named : ∀ name p, db.findPermission? c name = some p → k.HasPermission datum name (p + 1)

end KernelPolicy

namespace Lowering

variable {l : Lowering} {k : KernelPolicy}

theorem find?_commonSymbols {commons : SymbolTable CommonDatum} (run : l.commonSymbols = .ok commons)
    {id : Id} {d : Declared (Registry Unit)} (hd : l.db.commons.get? id = some d) :
    ∃ entry, commons.find? d.name = some entry ∧ permissionSymbols d.value d.value.size 0 = .ok entry.permissions := by
  obtain ⟨symbols, hsymbols, run⟩ := bind_eq_ok.mp run
  obtain ⟨symbol, hmem, hsymbol⟩ := exists_of_mapM hsymbols (Registry.mem_indexed.mpr hd)
  obtain ⟨permissions, hpermissions, heq⟩ := bind_eq_ok.mp hsymbol
  cases heq
  exact ⟨_, (SymbolTable.find?_ofList run).mpr hmem, hpermissions⟩

/-- The entry of a kernel class is made of its declaration. -/
theorem exists_classSymbol {classes : SymbolTable ClassDatum} (run : l.classSymbols = .ok classes)
    {cls : Id} {d : Declared ClassInfo} (hd : l.db.classes.get? cls = some d) {v : Nat}
    (hv : l.classes.value? cls = some v) : ∃ datum, classes.find? d.name = some datum ∧
      datum.common = d.value.common.map l.db.commons.nameOf ∧
      permissionSymbols d.value.permissions 0 (l.db.commonPermissions d.value).size = .ok datum.permissions := by
  obtain ⟨symbols, hsymbols, run⟩ := bind_eq_ok.mp run
  obtain ⟨symbol, hmem, hsymbol⟩ := exists_of_mapM hsymbols (mem_numbered hv hd)
  obtain ⟨permissions, hpermissions, heq⟩ := bind_eq_ok.mp hsymbol
  cases heq
  exact ⟨_, (SymbolTable.find?_ofList run).mpr hmem, rfl, hpermissions⟩

/-- The values of the permissions of a class are those in its common, then those of its own. -/
theorem Settled.hasPermission_iff (settled : l.Settled k) {cls : Id} {c : ClassInfo}
    (hc : l.db.classes.value? cls = some c) {datum : ClassDatum}
    (common : datum.common = c.common.map l.db.commons.nameOf)
    (own : permissionSymbols c.permissions 0 (l.db.commonPermissions c).size = .ok datum.permissions)
    {name : String} {v : Nat} : k.HasPermission datum name v ↔
      (∃ i d, c.permissions.get? i = some d ∧ d.name = name ∧ (l.db.commonPermissions c).size + i + 1 = v) ∨
        ∃ i d, (l.db.commonPermissions c).get? i = some d ∧ d.name = name ∧ i + 1 = v := by
  rw [KernelPolicy.HasPermission, find?_permissionSymbols own]
  refine or_congr Iff.rfl ?_
  cases hcommon : c.common with
  | none =>
    have none : l.db.commonPermissions c = {} := by simp [Database.commonPermissions, hcommon]
    simp [common, hcommon, none, Registry.get?]
  | some id =>
    obtain ⟨inside, _⟩ := settled.closed.commons cls (l.db.classShape c) (congrArg (Option.map _) hc)
    obtain ⟨r, hr⟩ := Registry.exists_value? (inside id hcommon)
    obtain ⟨d, hd, rfl⟩ := Registry.value?_eq_some.mp hr
    obtain ⟨entry, found, symbols⟩ := find?_commonSymbols settled.filled.commons hd
    have same : l.db.commonPermissions c = d.value := by simp [Database.commonPermissions, hcommon, hr]
    have hname : l.db.commons.nameOf id = d.name := by simp [Registry.nameOf, hd]
    simp [common, hcommon, hname, found, same, find?_permissionSymbols symbols]

theorem Settled.exists_spellsClass (settled : l.Settled k) {cls : Id} {c : ClassInfo}
    (hc : l.db.classes.value? cls = some c) (kernel : c.isMap = false) :
    ∃ datum, k.SpellsClass l.db cls c datum := by
  obtain ⟨v, hv⟩ := settled.numbered.exists_classValue settled.passed.placed hc kernel
  obtain ⟨d, hd, rfl⟩ := Registry.value?_eq_some.mp hc
  obtain ⟨datum, found, common, own⟩ := exists_classSymbol settled.built.classes hd hv
  have hname : l.db.classes.nameOf cls = d.name := by simp [Registry.nameOf, hd]
  have has : ∀ name v, k.HasPermission datum name v ↔ _ :=
    fun _ _ => settled.hasPermission_iff hc common own
  refine ⟨datum, hname ▸ found, fun name v => (has name v).trans ⟨?_, ?_⟩, fun name p h => ?_⟩
  · rintro (⟨i, e, he, rfl, rfl⟩ | ⟨i, e, he, rfl, rfl⟩)
    · have inside := Registry.lt_of_value? (Registry.value?_eq_some.mpr ⟨e, he, rfl⟩)
      exact ⟨_, Nat.add_lt_add_left inside _, Database.permissionName_own he, rfl⟩
    · have inside := Registry.lt_of_value? (Registry.value?_eq_some.mpr ⟨e, he, rfl⟩)
      exact ⟨i, Nat.lt_add_right _ inside, Database.permissionName_common he, rfl⟩
  · rintro ⟨p, inside, rfl, rfl⟩
    by_cases first : p < (l.db.commonPermissions d.value).size
    · obtain ⟨_, value⟩ := Registry.exists_value? first
      obtain ⟨e, he, _⟩ := Registry.value?_eq_some.mp value
      exact Or.inr ⟨p, e, he, (Database.permissionName_common he).symm, rfl⟩
    · obtain ⟨i, rfl⟩ := Nat.exists_eq_add_of_le (Nat.not_lt.mp first)
      obtain ⟨_, value⟩ := Registry.exists_value? (Nat.lt_of_add_lt_add_left inside)
      obtain ⟨e, he, _⟩ := Registry.value?_eq_some.mp value
      exact Or.inl ⟨i, e, he, (Database.permissionName_own he).symm, rfl⟩
  · rw [has]
    rw [Database.findPermission?] at h
    split at h
    · rename_i i found
      cases h
      obtain ⟨e, he, same⟩ := Registry.get?_of_find? found
      exact Or.inl ⟨i, e, he, same, rfl⟩
    · obtain ⟨e, he, same⟩ := Registry.get?_of_find? h
      exact Or.inr ⟨p, e, he, same, rfl⟩

end Lowering

/-! ### Bits of words -/

/-- The rules of a place fit. -/
theorem Database.Resolved.ruleFits {db : Database} (resolved : db.Resolved) {place : RulePlace} :
    ∀ r ∈ db.rulesAt place, db.RuleFits r.rule := by
  intro r hr
  cases place with
  | top => exact resolved.rules r hr
  | arm i value =>
    rw [Database.rulesAt] at hr
    cases hc : db.conditionals[i]? with
    | none =>
      rw [hc] at hr
      cases hr
    | some c =>
      rw [hc] at hr
      obtain ⟨b, hb, hr⟩ := List.mem_flatMap.mp hr
      exact resolved.conditionals c (List.mem_of_getElem? hc) b (List.mem_filter.mp hb).1 r hr

namespace KernelPolicy

/-- The bit of a word under the key stands for the permission whose value is one more, and the
rule states this permission of the key's class for types that the key concerns. -/
def SpellsBit (k : KernelPolicy) (db : EvaluatedDatabase) (kind : AccessKind) (rule : Rule)
    (key : AccessKey) (p : Nat) : Prop :=
  ∃ s t cls c datum, db.States kind rule ⟨s, t, cls, p⟩ ∧ db.classes.value? cls = some c ∧
    k.Concerns key (db.types.nameOf s) (db.types.nameOf t) (db.classes.nameOf cls) ∧
    k.SpellsClass db cls c datum ∧ datum.value = key.cls.toNat ∧
    k.HasPermission datum (db.permissionName c p) (p + 1)

/-- Keys and bits of a place say what its rules say, and all that they say. -/
structure SpellsRules (k : KernelPolicy) (db : EvaluatedDatabase) (place : RulePlace) : Prop where
  keys : ∀ e ∈ k.entriesAt place, ∃ r ∈ db.rulesAt place, k.SpellsKey db r.rule e.key
  bits : ∀ (kind : AccessKind) (kinds : RuleKinds), kind.kinds? = some kinds →
    ∀ e ∈ k.entriesAt place, e.key.kinds = kinds → ∀ p < 32, marked kinds e.datum.data p = true →
      ∃ r ∈ db.rulesAt place, k.SpellsBit db kind r.rule e.key p
  marks : ∀ (kind : AccessKind) (kinds : RuleKinds), kind.kinds? = some kinds → ∀ a, db.Proper a →
    (k.Marks kinds place (db.types.nameOf a.source) (db.types.nameOf a.target)
      (db.classes.nameOf a.cls) a.permission ↔ ∃ r ∈ db.rulesAt place, db.States kind r.rule a)

/-- The condition has the values of its booleans, as they are written. -/
def SpellsCondition (k : KernelPolicy) (db : EvaluatedDatabase) (c : Conditional) (node : ConditionalNode) :
    Prop :=
  List.Forall₂ (fun id b => k.booleans.Gives (·.value) (db.booleans.nameOf id) b) c.condition.leaves
    (node.condition.filterMap CondItem.bool?)

end KernelPolicy

namespace Lowering

variable {l : Lowering} {k : KernelPolicy}

/-- A rule of a place states permissions that its kernel class has. -/
theorem Settled.exists_class (settled : l.Settled k) {place : RulePlace} {r : PlacedRule}
    (hr : r ∈ l.db.rulesAt place) {kind : AccessKind} {a : Access} (states : l.db.States kind r.rule a) :
    ∃ c, l.db.classes.value? a.cls = some c ∧ c.isMap = false ∧ a.permission < l.db.permissionCount c := by
  have fits := settled.passed.resolved.ruleFits r hr
  cases hrule : r.rule with
  | access k' source target permissions =>
    rw [hrule] at fits states
    exact settled.passed.resolved.standsFor_bounded fits states.2.2
  | _ =>
    rw [hrule] at states
    exact states.elim

theorem Settled.spellsBit (settled : l.Settled k) {place : RulePlace} {kind : AccessKind}
    {kinds : RuleKinds} (hkind : kind.kinds? = some kinds) {e : AccessEntry} (he : e ∈ k.entriesAt place)
    (same : e.key.kinds = kinds) {p : Nat} (hp : p < 32) (marks : marked kinds e.datum.data p = true) :
    ∃ r ∈ l.db.rulesAt place, k.SpellsBit l.db kind r.rule e.key p := by
  obtain ⟨r, hr, made, s, t, cls, aims, isFor, concerns⟩ := settled.spellsKeys place e he
  have vector := AccessKind.kinds?_vector hkind
  -- The key is that of an access rule, so it is for two concrete types and a kernel class.
  cases hrule : r.rule with
  | access k' source target permissions =>
    rw [hrule] at made aims isFor
    obtain ⟨p', stands⟩ := isFor
    obtain ⟨concrete, concrete'⟩ := settled.passed.evaluated.concrete_of_aims aims
    have states : l.db.States k' r.rule ⟨s, t, cls, p'⟩ := by
      rw [hrule]
      exact ⟨rfl, aims, stands⟩
    obtain ⟨c, declared, kernel, _⟩ := settled.exists_class hr states
    have speaks := (settled.built.concerns_iff_speaks settled.numbered settled.passed (a := ⟨s, t, cls, p⟩)
      concrete concrete' declared kernel).mp concerns
    have marked : l.Marks (l.accessAt place) kinds ⟨s, t, cls, p⟩ := by
      refine (AccessRules.exists_toEntries (accessAt_kindsFit place) vector).mp ?_
      have single := RuleKinds.words_subset (RuleKinds.vectorKinds_subset vector)
      exact ⟨e, (settled.built.mem_entriesAt place).mp he, same ▸ RuleKinds.overlap_self (same ▸ single),
        speaks, marks⟩
    obtain ⟨r', hr', states'⟩ :=
      (settled.built.accessAt_iff settled.numbered settled.passed hkind hp place).mp marked
    obtain ⟨c', declared', _, inside⟩ := settled.exists_class hr' states'
    cases declared.symm.trans declared'
    obtain ⟨datum, spelled⟩ := settled.exists_spellsClass declared kernel
    obtain ⟨_, _, datum', _, _, found, _, _, value⟩ := id concerns
    cases spelled.found.symm.trans found
    exact ⟨r', hr', s, t, cls, c, datum, states', declared, concerns, spelled, value.symm,
      (spelled.values _ _).mpr ⟨p, inside, rfl, rfl⟩⟩
  | extended k' source target permissions =>
    rw [hrule, same] at made
    have number := AccessKind.extendedKinds?_number made
    exact absurd rfl (RuleKinds.number_ne_word number (RuleKinds.vectorKinds_subset vector))
  | type k' source target cls result =>
    rw [hrule, same] at made
    cases made
    exact absurd rfl (RuleKinds.result_ne_vector k'.kinds_result vector)
  | _ =>
    rw [hrule] at made
    cases made

theorem Settled.spellsRules (settled : l.Settled k) (place : RulePlace) : k.SpellsRules l.db place where
  keys := settled.spellsKeys place
  bits _ _ hkind _ he same _ hp := settled.spellsBit hkind he same hp
  marks _ _ hkind _ proper :=
    (settled.built.marks_iff settled.numbered settled.passed (AccessKind.kinds?_vector hkind) proper
      place).trans
      (settled.built.accessAt_iff settled.numbered settled.passed hkind (proper.lt_word settled.passed) place)

/-! ### Conditions -/

/-- The nodes have the conditions of their conditionals, in the same order. -/
theorem Built.conditions (built : l.Built k) :
    k.conditionals.map (fun node => some node.condition) = l.db.conditionals.map l.condition? := by
  have lowered := conditions_foldl_addConditional built.conditionalsDone
  have nodes := conditions_conditionalTable (l := l) l.loweredConditionals.table.conditionals
  rw [built.conditionals] at nodes
  calc k.conditionals.map (fun node => some node.condition)
      _ = (k.conditionals.map (·.condition)).map some := by rw [List.map_map]; rfl
      _ = (l.loweredConditionals.table.conditionals.map (·.condition)).map some := by rw [nodes]
      _ = l.loweredConditionals.table.conditionals.map (fun c => some c.condition) := by rw [List.map_map]; rfl
      _ = l.db.conditionals.map l.condition? := lowered

/-- Each node has the condition of its conditional. -/
theorem Built.forall₂_conditions (built : l.Built k) :
    List.Forall₂ (fun c node => l.condition? c = some node.condition) l.db.conditionals k.conditionals := by
  have same : List.Forall₂ (· = ·) (l.db.conditionals.map l.condition?)
      (k.conditionals.map fun node => some node.condition) := by
    rw [List.forall₂_eq_eq_eq]
    exact built.conditions.symm
  rwa [List.forall₂_map_left_iff, List.forall₂_map_right_iff] at same

/-- A declared boolean has a value. -/
theorem exists_booleanValue (booleans : l.booleans = .ofRegistry l.db.booleans fun _ _ => true) {id : Id}
    (declared : id < l.db.booleans.size) : ∃ v, l.booleans.value? id = some v := by
  obtain ⟨value, hvalue⟩ := Registry.exists_value? declared
  refine Numbering.exists_value? ?_
  rw [booleans]
  exact Numbering.mem_ofRegistry.mpr ⟨value, hvalue, rfl⟩

/-- The value of a declared boolean is that of its entry. -/
theorem Settled.gives_boolean (settled : l.Settled k)
    (booleans : l.booleans = .ofRegistry l.db.booleans fun _ _ => true) {id : Id}
    (declared : id < l.db.booleans.size) :
    k.booleans.Gives (·.value) (l.db.booleans.nameOf id) ((l.booleans.value? id).getD 0) := by
  obtain ⟨v, hv⟩ := exists_booleanValue booleans declared
  rw [hv]
  exact Numbering.gives_of_numbers settled.tables.booleans hv

theorem Settled.spellsConditions (settled : l.Settled k)
    (booleans : l.booleans = .ofRegistry l.db.booleans fun _ _ => true) :
    List.Forall₂ (k.SpellsCondition l.db) l.db.conditionals k.conditionals := by
  have same := settled.built.forall₂_conditions
  refine ((List.forall₂_and_left _ _).mpr ⟨settled.closed.within.conditionals, same⟩).imp ?_
  rintro c node ⟨within, found⟩
  rw [KernelPolicy.SpellsCondition, Expr.bools_conditionItems _ found, List.forall₂_map_right_iff,
    List.forall₂_same]
  exact fun id hid => settled.gives_boolean booleans (within.condition id hid)

end Lowering

/-! ### Verified policies -/

namespace EvaluatedDatabase

variable {db : EvaluatedDatabase} {settings : Settings} {options : LoweringOptions} {k : KernelPolicy}

/-- What the stages leave of numbers that refer to each other. -/
theorem Verified.linked (verified : db.Verified) :
    db.Closed ∧ db.OrdersInside ∧ db.CategoriesEvaluated ∧ ∃ depth, db.Nested depth := by
  obtain ⟨_, _, _, ordered, _, _, resolve, order, preVerify, evaluate, _⟩ := verified
  obtain ⟨_, hresolved, run⟩ := Report.yields_bind (Report.yields_of_outcome resolve)
  obtain ⟨_, _, run⟩ := Report.yields_bind run
  cases Report.yields_pure run
  have closed := Database.closed_of_ofStatements (Report.yields_lift hresolved)
  have order := Report.yields_of_outcome order
  have orders := closed.orderInside.orders order
  obtain ⟨rfl, _⟩ := Database.order_spec order
  have none := Report.yields_reject (Report.yields_of_outcome preVerify)
  have acyclic : Database.selfReference ordered.categories ordered.categoryNext = [] :=
    (List.append_eq_nil_iff.mp none).2
  have evaluate := Report.yields_of_outcome evaluate
  have categories := categoriesEvaluated evaluate
  obtain ⟨_, same⟩ := OrderedDatabase.evaluate_spec evaluate
  refine ⟨?_, ?_, categories, ?_⟩
  · rw [same]
    exact closed.evaluated
  · rw [same]
    exact ⟨orders.classes, orders.sids, orders.sensitivities, orders.categories⟩
  · rw [same]
    exact Database.exists_nested acyclic

theorem Verified.settled (verified : db.Verified) (run : (db.lower settings options).outcome.1 = .ok k) :
    (Lowering.new db settings options).Settled k := by
  obtain ⟨closed, orders, categories, _⟩ := verified.linked
  have built := built_of_lower run
  have filled := Lowering.filled_of_policy (Report.yields_of_outcome run)
  exact {
    numbered := Lowering.numbered_new db settings options
    passed := verified.passed
    closed, orders, categories, built, filled
    tables := Lowering.tablesNumber orders built filled }

/-- All parts of a kernel policy use one numbering. Each symbol table gives the values from
one on to its primary entries, each once, and to an alias that of what it stands for. The
permissions of a class are counted from one, those of its common first. The keys and words of
every place, the conditions, the levels and the transitions have just the values that the
tables give for the names which the policy has in these places, and no label of the target and
nothing that a transition rule leads from is left out. -/
theorem lowered_values_agree (verified : db.Verified)
    (run : (db.lower settings options).outcome.1 = .ok k) :
    (Lowering.new db settings options).TablesNumber k ∧
      (∀ cls c, db.classes.value? cls = some c → c.isMap = false →
        ∃ datum, k.SpellsClass db cls c datum) ∧
      (∀ place, k.SpellsRules db place) ∧
      List.Forall₂ (k.SpellsCondition db) db.conditionals k.conditionals ∧
      (∃ means, k.CategoriesMean db means) ∧
      ∀ means, k.CategoriesMean db means → k.SpellsLevels db means ∧
        k.SpellsTransitions db means k.filenameTransitions k.roleTransitions k.rangeTransitions ∧
        ∀ r ∈ db.rules, k.HasTransitions db means r.rule := by
  have settled := verified.settled run
  obtain ⟨_, _, _, depth, nested⟩ := verified.linked
  refine ⟨settled.tables, fun _ _ => settled.exists_spellsClass, settled.spellsRules,
    settled.spellsConditions rfl, nested.exists_meaning _ _, fun means meaning => ⟨?_, ?_, ?_⟩⟩
  · exact settled.spellsLevels nested meaning
  · exact settled.spellsTransitions nested meaning
  · exact fun r hr => settled.hasTransitions nested meaning hr

theorem linkedPolicy_filled : lowersTo linkedPolicy {} (fun _ _ k =>
    k.mls && !(k.entriesAt .top).isEmpty && !k.filenameTransitions.entries.isEmpty &&
      !k.roleTransitions.isEmpty && !k.rangeTransitions.isEmpty && !k.objects.ports.isEmpty) = true := by
  decide +kernel

/-- In a small policy with levels and labels, there are keys, contexts and transitions of all kinds whose
values agree. -/
theorem values_agree_linked :
    ∃ (db : EvaluatedDatabase) (settings : Settings) (k : KernelPolicy),
      db.Verified ∧ (db.lower settings {}).outcome.1 = .ok k ∧ k.mls = true ∧
      (Lowering.new db settings {}).TablesNumber k ∧
      (∃ e ∈ k.entriesAt .top, ∃ r ∈ db.rules, k.SpellsKey db r.rule e.key) ∧
      ∃ means, k.CategoriesMean db means ∧ k.SpellsLevels db means ∧
        (∃ b ∈ k.objects.ports, ∃ x ∈ db.labels.ports, k.SpellsContextArg db means x.context b.context) ∧
        (∃ key ∈ k.filenameTransitions.entries.map Prod.fst, ∃ r ∈ db.rules, k.SpellsFilename db r.rule key) ∧
        (∃ x ∈ k.roleTransitions, ∃ r ∈ db.rules, k.SpellsRoleTransition db r.rule x) ∧
        (∃ x ∈ k.rangeTransitions, ∃ r ∈ db.rules, k.SpellsRangeTransition db means r.rule x) ∧
        ∀ r ∈ db.rules, k.HasTransitions db means r.rule := by
  obtain ⟨db, settings, k, verified, run, tested⟩ := exists_lowered linkedPolicy_filled
  simp only [Bool.and_eq_true, Bool.not_eq_true', List.isEmpty_eq_false_iff] at tested
  obtain ⟨⟨⟨⟨⟨mls, entries⟩, named⟩, roles⟩, ranges⟩, ports⟩ := tested
  obtain ⟨e, he⟩ := List.exists_mem_of_ne_nil _ entries
  obtain ⟨entry, hentry⟩ := List.exists_mem_of_ne_nil _ named
  obtain ⟨x, hx⟩ := List.exists_mem_of_ne_nil _ roles
  obtain ⟨y, hy⟩ := List.exists_mem_of_ne_nil _ ranges
  obtain ⟨b, hb⟩ := List.exists_mem_of_ne_nil _ ports
  obtain ⟨tables, _, rules, _, ⟨means, meaning⟩, agree⟩ := lowered_values_agree verified run
  obtain ⟨levels, transitions, complete⟩ := agree means meaning
  have target : k.target = .selinux := (Lowering.form_of_policy (Report.yields_of_outcome run)).1
  have made := levels.objects
  rw [target] at made
  obtain ⟨label, hlabel, c, spelled, rfl⟩ := exists_left_of_forall₂ made.ports hb
  have key := List.mem_map_of_mem (f := Prod.fst) hentry
  exact ⟨db, settings, k, verified, run, mls, tables, ⟨e, he, (rules .top).keys e he⟩, means, meaning,
    levels, ⟨_, hb, label, hlabel, spelled⟩, ⟨_, key, transitions.named _ key⟩, ⟨x, hx, transitions.roles x hx⟩,
    ⟨y, hy, transitions.ranges y hy⟩, complete⟩

end EvaluatedDatabase

end CilPolicy
