import CilPolicy.Proofs.Lowering.Levels
import CilPolicy.Proofs.Lowering.Transitions

/-!
# Where rules in kernel values come from

Every key of the access tables comes from a rule of its place and its kind: its values are
among those of two types that the rule speaks of, and its class is one of those that the rule
is for. Every transition, too, has the values of what its rule names. This is kept by each
rule that is added, so it holds of all of them.
-/

namespace CilPolicy

/-- The kinds of the keys that the rule makes. -/
def Rule.kinds? : Rule → Option RuleKinds
  | .access kind .. => kind.kinds?
  | .extended kind .. => kind.extendedKinds?
  | .type kind .. => some kind.kinds
  | _ => none

namespace EvaluatedDatabase

/-- The rule speaks of the concrete types. -/
def RuleAims (db : EvaluatedDatabase) (s t : Id) : Rule → Prop
  | .access _ source target _ | .extended _ source target _ | .type _ source target _ _
  | .namedTransition source target _ _ _ => db.Aims source target s t
  | .rangeTransition source target _ _ => db.Aims source (.type target) s t
  | .roleTransition .. | .roleAllow .. => False

/-- The rule is for objects of the class. -/
def RuleClass (db : EvaluatedDatabase) (cls : Id) : Rule → Prop
  | .access _ _ _ permissions => ∃ p, db.StandsFor permissions cls p
  | .extended _ _ _ permissions => ∃ spec, db.extendedSpec? permissions = some spec ∧ spec.cls = cls
  | .type _ _ _ c _ | .namedTransition _ _ c _ _ | .roleTransition _ _ c _
  | .rangeTransition _ _ c _ => c = cls
  | .roleAllow .. => False

end EvaluatedDatabase

/-! ### What rules spell in kernel values -/

namespace KernelPolicy

variable (k : KernelPolicy) (db : EvaluatedDatabase)

/-- The key is one of the rule's kinds, for two types that the rule speaks of and a class
that it is for. -/
def SpellsKey (rule : Rule) (key : AccessKey) : Prop :=
  rule.kinds? = some key.kinds ∧ ∃ s t cls, db.RuleAims s t rule ∧ db.RuleClass cls rule ∧
    k.Concerns key (db.types.nameOf s) (db.types.nameOf t) (db.classes.nameOf cls)

/-- The key has the name of the rule, and the values of a type and the class. -/
def SpellsFilename (rule : Rule) (key : FilenameKey) : Prop :=
  ∃ source target cls result s t, rule = .namedTransition source target cls key.name result ∧
    db.Aims source target s t ∧ k.types.Gives (·.value) (db.types.nameOf t) key.target ∧
    k.classes.Gives (·.value) (db.classes.nameOf cls) key.cls

/-- The transition has the values of the roles, the type and the class. -/
structure HasRoleValues (role type result cls : Id) (x : RoleTransition) : Prop where
  role : k.roles.Gives (·.value) (db.roles.nameOf role) x.role
  type : k.types.Gives (·.value) (db.types.nameOf type) x.type
  newRole : k.roles.Gives (·.value) (db.roles.nameOf result) x.newRole
  cls : k.classes.Gives (·.value) (db.classes.nameOf cls) x.cls

def SpellsRoleTransition (rule : Rule) (x : RoleTransition) : Prop :=
  ∃ source target cls result role type, rule = .roleTransition source target cls result ∧
    role ∈ db.expandRole source ∧ type ∈ db.expandType target ∧ k.HasRoleValues db role type result cls x

/-- The transition has the values of the types, the class and the levels of the range. -/
structure HasRangeValues (means : Id → Nat → Prop) (s t cls : Id) (range : RangeArg Id) (x : RangeTransition) :
    Prop where
  source : k.types.Gives (·.value) (db.types.nameOf s) x.source
  target : k.types.Gives (·.value) (db.types.nameOf t) x.target
  cls : k.classes.Gives (·.value) (db.classes.nameOf cls) x.cls
  range : k.SpellsRange db means range x.range

def SpellsRangeTransition (means : Id → Nat → Prop) (rule : Rule) (x : RangeTransition) : Prop :=
  ∃ source target cls range s t, rule = .rangeTransition source target cls range ∧
    db.Aims source (.type target) s t ∧ k.HasRangeValues db means s t cls range x

/-- Every transition is spelled by one of the rules. -/
structure SpellsTransitions (means : Id → Nat → Prop) (named : FilenameTransitions)
    (roles : List RoleTransition) (ranges : List RangeTransition) : Prop where
  named : ∀ key ∈ named.entries.map Prod.fst, ∃ r ∈ db.rules, k.SpellsFilename db r.rule key
  roles : ∀ x ∈ roles, ∃ r ∈ db.rules, k.SpellsRoleTransition db r.rule x
  ranges : ∀ x ∈ ranges, ∃ r ∈ db.rules, k.SpellsRangeTransition db means r.rule x

/-- Whatever the rule leads from, a transition has its values and those of what the rule leads to. -/
def HasTransitions (means : Id → Nat → Prop) : Rule → Prop
  | .namedTransition source target cls name result => ∀ s t, db.Aims source target s t →
    ∃ v w n m, k.types.Gives (·.value) (db.types.nameOf s) v ∧ k.types.Gives (·.value) (db.types.nameOf t) w ∧
      k.classes.Gives (·.value) (db.classes.nameOf cls) n ∧ k.types.Gives (·.value) (db.types.nameOf result) m ∧
      k.filenameTransitions.result? v ⟨w, n, name⟩ = some m
  | .roleTransition source target cls result => ∀ role ∈ db.expandRole source, ∀ type ∈ db.expandType target,
    ∃ x ∈ k.roleTransitions, k.HasRoleValues db role type result cls x
  | .rangeTransition source target cls range => k.mls = true → ∀ s t, db.Aims source (.type target) s t →
    ∃ x ∈ k.rangeTransitions, k.HasRangeValues db means s t cls range x
  | .access .. | .extended .. | .type .. | .roleAllow .. => True

end KernelPolicy

/-! ### Keys -/

namespace AccessRules

variable {r : AccessRules} {key : AccessKey} {p q : AccessKey → Prop}

/-- All keys have the property. -/
structure Keys (p : AccessKey → Prop) (r : AccessRules) : Prop where
  words : ∀ key word, (key, word) ∈ r.words → p key
  extended : ∀ key numbers, (key, numbers) ∈ r.extended → p key

theorem keys_empty : Keys p {} :=
  ⟨by simp, by simp⟩

theorem Keys.grant (held : r.Keys p) (new : p key) (permissions : BitVec 32) :
    (r.grant key permissions).Keys p where
  words k _ h := by
    rcases key_of_mem_upsert h with rfl | ⟨old, hold⟩
    · exact new
    · exact held.words k old hold
  extended := held.extended

theorem Keys.setResult (held : r.Keys p) (new : p key) (result : Nat) : (r.setResult key result).Keys p where
  words k word h := by
    rcases List.mem_append.mp h with h | h
    · exact held.words k word h
    · cases List.mem_singleton.mp h
      exact new
  extended := held.extended

theorem Keys.extend (held : r.Keys p) (new : p key) (numbers : BitSet) : (r.extend key numbers).Keys p where
  words := held.words
  extended k _ h := by
    rcases key_of_mem_upsert h with rfl | ⟨old, hold⟩
    · exact new
    · exact held.extended k old hold

theorem Keys.toEntries (held : r.Keys p) : ∀ e ∈ r.toEntries, p e.key := by
  intro e he
  rcases List.mem_append.mp he with he | he
  · obtain ⟨⟨key, word⟩, hword, rfl⟩ := List.mem_map.mp he
    exact held.words key word hword
  · obtain ⟨⟨key, numbers⟩, hnumbers, he⟩ := List.mem_flatMap.mp he
    obtain ⟨x, _, rfl⟩ := List.mem_map.mp he
    exact held.extended key numbers hnumbers

end AccessRules

namespace Lowering

variable {l : Lowering} {k : KernelPolicy} {location : Location}

/-! ### Pairs of types -/

/-- What holds of the values that a type has holds of the pairs for two types that the rule
speaks of. -/
theorem exists_of_mem_pairsWith {p : Nat → Id → Prop} {types : Id → List Nat}
    (concrete : ∀ id, ∀ v ∈ l.concreteTypes id, ∃ s ∈ l.db.expandType id, p v s)
    (given : ∀ id, ∀ v ∈ types id, ∃ s ∈ l.db.expandType id, p v s) {source : Id} {target : RuleTarget} :
    ∀ pair ∈ l.pairsWith types source target,
      ∃ s t, l.db.Aims source target s t ∧ p pair.1 s ∧ p pair.2 t := by
  intro pair hpair
  cases target with
  | self =>
    obtain ⟨v, hv, rfl⟩ := List.mem_map.mp hpair
    obtain ⟨s, hs, holds⟩ := concrete source v hv
    exact ⟨s, s, ⟨hs, rfl⟩, holds, holds⟩
  | type target =>
    obtain ⟨v, hv, hpair⟩ := List.mem_flatMap.mp hpair
    obtain ⟨w, hw, rfl⟩ := List.mem_map.mp hpair
    obtain ⟨s, hs, holds⟩ := given source v hv
    obtain ⟨t, ht, holds'⟩ := given target w hw
    exact ⟨s, t, ⟨hs, ht⟩, holds, holds'⟩

/-- The pair has values that cover two types which the rule speaks of. -/
def Paired (l : Lowering) (source : Id) (target : RuleTarget) (pair : Nat × Nat) : Prop :=
  ∃ s t, l.db.Aims source target s t ∧ l.Covers pair.1 s ∧ l.Covers pair.2 t

theorem exists_covered (evaluated : l.db.Evaluated) {id : Id} :
    ∀ v ∈ l.concreteTypes id, ∃ s ∈ l.db.expandType id, l.Covers v s := by
  intro v hv
  obtain ⟨s, hs, value⟩ := (mem_concreteTypes evaluated).mp hv
  exact ⟨s, hs, (covers_concrete evaluated (evaluated.concrete_of_mem hs) value).mpr rfl⟩

theorem paired_of_concretePairs (evaluated : l.db.Evaluated) {source : Id} {target : RuleTarget} :
    ∀ pair ∈ l.concretePairs source target, l.Paired source target pair :=
  exists_of_mem_pairsWith (fun _ => exists_covered evaluated) fun _ => exists_covered evaluated

/-- A kept attribute is used in a rule only when it has members, so its value covers one. -/
theorem paired_of_rulePairs (evaluated : l.db.Evaluated) {source : Id} {target : RuleTarget} :
    ∀ pair ∈ l.rulePairs source target, l.Paired source target pair := by
  refine exists_of_mem_pairsWith (fun _ => exists_covered evaluated) fun id v hv => ?_
  rw [ruleTypes] at hv
  split at hv
  · rename_i whole
    simp only [Bool.and_eq_true, Bool.not_eq_true'] at whole
    obtain ⟨s, hs⟩ := (BitSet.isEmpty_eq_false_iff (evaluated.expandType_wellFormed id)).mp whole.2
    exact ⟨s, hs, id, Numbering.id?_of_value? (Option.mem_toList.mp hv), hs⟩
  · exact exists_covered evaluated v hv

/-! ### Rules, one after the other -/

theorem Settled.class_gives (settled : l.Settled k) {cls : Id} (kernel : l.db.signature.IsKernelClass cls) :
    k.classes.Gives (·.value) (l.db.classes.nameOf cls) (l.classNumber cls) := by
  obtain ⟨shape, link, plain⟩ := kernel
  obtain ⟨c, hc, rfl⟩ := Option.map_eq_some_iff.mp link
  obtain ⟨v, hv⟩ := settled.numbered.exists_classValue settled.passed.placed hc plain
  rw [classNumber, hv]
  exact Numbering.gives_of_numbers settled.tables.classes hv

/-- A key that is made for a pair and a class of a rule is spelled by the rule. -/
theorem Settled.spellsKey (settled : l.Settled k) (rule : Rule) {source : Id} {target : RuleTarget}
    (aims : ∀ s t, l.db.Aims source target s t → l.db.RuleAims s t rule) {pair : Nat × Nat}
    (paired : l.Paired source target pair) {cls : Id} (isFor : l.db.RuleClass cls rule) {kinds : RuleKinds}
    (made : rule.kinds? = some kinds) {key : AccessKey}
    (hkey : l.accessKey location pair cls kinds = .ok key) : k.SpellsKey l.db rule key := by
  obtain ⟨s, t, speaks, covers, covers'⟩ := paired
  obtain ⟨concrete, concrete'⟩ := settled.passed.evaluated.concrete_of_aims speaks
  obtain ⟨hsource, htarget, hcls, same⟩ := accessKey_ok hkey
  obtain ⟨c, declared, kernel⟩ := settled.numbered.kernel_of_classValue hcls
  have concerns := (settled.built.concerns_iff_speaks settled.numbered settled.passed (a := ⟨s, t, cls, 0⟩)
    concrete concrete' declared kernel).mpr ⟨hsource ▸ covers, htarget ▸ covers', hcls⟩
  exact ⟨same ▸ made, s, t, cls, aims s t speaks, isFor, concerns⟩

section Steps

variable {p : AccessKey → Prop} {t : RuleTables}

theorem Settled.addAccess_keys (settled : l.Settled k) (held : t.access.Keys p) {kind : AccessKind}
    {source : Id} {target : RuleTarget} {permissions : ClassPerms Id}
    (new : ∀ key, k.SpellsKey l.db (.access kind source target permissions) key → p key) :
    (l.addAccess t location kind source target permissions).table.access.Keys p := by
  refine addAccess_keeps (AccessRules.Keys p) (fun r key word grants held => ?_) held
  obtain ⟨pair, hpair, g, granted, rfl, nonzero, kinds, hkinds, hkey⟩ := grants
  -- A word that is not zero grants some permission, for which the reference stands.
  obtain ⟨bit, inside, marked⟩ := exists_bit_of_ne_zero nonzero
  have stands := (Database.granted_grants settled.passed.acyclic inside).mp ⟨g, granted, rfl, marked⟩
  have paired := paired_of_rulePairs settled.passed.evaluated pair hpair
  have spelled := settled.spellsKey (.access kind source target permissions)
    (fun _ _ aims => aims) paired ⟨bit, stands⟩ hkinds hkey
  exact held.grant (new key spelled) g.word

theorem Settled.addExtended_keys (settled : l.Settled k) (held : t.access.Keys p) {kind : AccessKind}
    {source : Id} {target : RuleTarget} {permissions : ExtendedArg Id BitSet}
    (new : ∀ key, k.SpellsKey l.db (.extended kind source target permissions) key → p key) :
    (l.addExtended t location kind source target permissions).table.access.Keys p := by
  refine addExtended_keeps (AccessRules.Keys p) (fun r key numbers added held => ?_) held
  obtain ⟨_, pair, hpair, spec, kinds, hspec, rfl, hkinds, hkey⟩ := added
  have paired := paired_of_rulePairs settled.passed.evaluated pair hpair
  have spelled := settled.spellsKey (.extended kind source target permissions)
    (fun _ _ aims => aims) paired ⟨spec, hspec, rfl⟩ hkinds hkey
  exact held.extend (new key spelled) spec.numbers

theorem Settled.addTypeRule_keys (settled : l.Settled k) (held : t.access.Keys p) {base : AccessRules}
    {kind : TypeRuleKind} {source : Id} {target : RuleTarget} {cls result : Id}
    (new : ∀ key, k.SpellsKey l.db (.type kind source target cls result) key → p key) :
    (l.addTypeRule base t location kind source target cls result).table.access.Keys p := by
  refine addTypeRule_keeps (AccessRules.Keys p) (fun r key value sets _ _ held => ?_) held
  obtain ⟨_, pair, hpair, hkey⟩ := sets
  have paired := paired_of_concretePairs settled.passed.evaluated pair hpair
  have spelled := settled.spellsKey (.type kind source target cls result)
    (fun _ _ aims => aims) paired rfl rfl hkey
  exact held.setResult (new key spelled) value

theorem Settled.addRule_keys (settled : l.Settled k) (held : t.access.Keys p) {r : PlacedRule}
    (new : ∀ key, k.SpellsKey l.db r.rule key → p key) : (l.addRule t r).table.access.Keys p := by
  rw [addRule_access]
  cases hrule : r.rule with
  | access kind source target permissions =>
    rw [hrule] at new
    exact settled.addAccess_keys held new
  | extended kind source target permissions =>
    rw [hrule] at new
    exact settled.addExtended_keys held new
  | type kind source target cls result =>
    rw [hrule] at new
    exact settled.addTypeRule_keys held new
  | _ => exact held

theorem Settled.addArmRule_keys (settled : l.Settled k) (held : t.access.Keys p) {base : AccessRules}
    {r : PlacedRule} (new : ∀ key, k.SpellsKey l.db r.rule key → p key) :
    (l.addArmRule base t r).table.access.Keys p := by
  rw [addArmRule]
  split
  · rename_i hrule
    rw [hrule] at new
    exact settled.addAccess_keys held new
  · rename_i hrule
    rw [hrule] at new
    exact settled.addTypeRule_keys held new
  · exact held
  · exact held

end Steps

/-- Every key of a place is spelled by a rule of the place. -/
theorem Settled.spellsKeys (settled : l.Settled k) (place : RulePlace) :
    ∀ e ∈ k.entriesAt place, ∃ r ∈ l.db.rulesAt place, k.SpellsKey l.db r.rule e.key := by
  intro e he
  refine AccessRules.Keys.toEntries (p := fun key => ∃ r ∈ l.db.rulesAt place, k.SpellsKey l.db r.rule key)
    ?_ e ((settled.built.mem_entriesAt place).mp he)
  cases place with
  | top =>
    exact Step.gather_keeps (fun t : RuleTables => t.access.Keys _)
      (fun _ r hr held => settled.addRule_keys held fun _ spelled => ⟨r, hr, spelled⟩) AccessRules.keys_empty
  | arm i value =>
    rw [accessAt, Database.rulesAt]
    cases l.db.conditionals[i]? with
    | none => exact AccessRules.keys_empty
    | some c =>
      exact Step.gather_keeps (fun t : RuleTables => t.access.Keys _)
        (fun _ r hr held => settled.addArmRule_keys held fun _ spelled => ⟨r, hr, spelled⟩)
        AccessRules.keys_empty

/-! ### Values of what rules name -/

theorem Numbered.exists_kernelValue (numbered : l.Numbered) (placed : l.db.Placed) {cls : Id}
    (kernel : l.db.signature.IsKernelClass cls) : ∃ v, l.classes.value? cls = some v := by
  obtain ⟨shape, link, plain⟩ := kernel
  obtain ⟨c, hc, rfl⟩ := Option.map_eq_some_iff.mp link
  exact numbered.exists_classValue placed hc plain

/-- A result of a type rule has a value. -/
theorem Numbered.exists_resultValue (numbered : l.Numbered) {result : Id}
    (concrete : l.db.signature.IsConcreteType result) :
    ∃ v, l.types.value? result = some v ∧ l.typeValue? result = some v := by
  obtain ⟨actual, link⟩ := concrete
  obtain ⟨t, ht, plain⟩ := Option.map_eq_some_iff.mp link
  have concrete : l.db.IsConcrete result :=
    Registry.test_iff.mpr ⟨t, ht, beq_iff_eq.mpr (congrArg Prod.fst plain)⟩
  obtain ⟨v, hv⟩ := numbered.exists_typeValue concrete
  exact ⟨v, hv, (typeValue?_concrete concrete).trans hv⟩

theorem Numbered.exists_plainRoleValue (numbered : l.Numbered) {role : Id}
    (plain : l.db.signature.roles role = some false) : ∃ v, l.roles.value? role = some v := by
  obtain ⟨info, declared, own⟩ := Option.map_eq_some_iff.mp plain
  apply Numbering.exists_value?
  rw [numbered.roles]
  exact Numbering.mem_ofRegistry.mpr ⟨info, declared, by simp [own]⟩

/-- The roles that a role stands for have values. -/
theorem Numbered.exists_roleValue (numbered : l.Numbered) (evaluated : l.db.Evaluated) {id role : Id}
    (member : role ∈ l.db.expandRole id) : ∃ v, l.roles.value? role = some v :=
  numbered.exists_plainRoleValue
    (Database.isConcreteRole_of_mem ((evaluated.within_expandRole id).inside role member))

theorem evalRange_levels (mls : l.settings.mls = true) {range : RangeArg Id} {levels : LevelValue × LevelValue}
    (evaluates : l.db.evalRange range = .ok levels) : l.evalRange range = .ok (l.levelRange levels) := by
  rw [Lowering.evalRange, if_pos mls, evaluates]
  rfl

/-! ### Transitions -/

variable {means : Id → Nat → Prop} {depth : Id → Nat}

theorem Settled.holds_rules_iff (settled : l.Settled k) (x : Transition) :
    l.rules.table.Holds x ↔ ∃ r ∈ l.db.rules, l.Brings r.rule x :=
  Lowering.holds_rules_iff settled.passed.evaluated settled.built.rulesDone x

/-- The types that a rule speaks of have values. -/
theorem Settled.exists_pairValues (settled : l.Settled k) {source : Id} {target : RuleTarget} {s t : Id}
    (aims : l.db.Aims source target s t) :
    ∃ v w, l.types.value? s = some v ∧ l.types.value? t = some w := by
  obtain ⟨concrete, concrete'⟩ := settled.passed.evaluated.concrete_of_aims aims
  obtain ⟨v, hv⟩ := settled.numbered.exists_typeValue concrete
  obtain ⟨w, hw⟩ := settled.numbered.exists_typeValue concrete'
  exact ⟨v, w, hv, hw⟩

theorem Settled.hasRoleValues (settled : l.Settled k) {role type cls result : Id} {x : RoleTransition}
    (kernel : l.db.signature.IsKernelClass cls)
    (represents : l.Represents (.role role type cls) (.entity result) (.role x)) :
    k.HasRoleValues l.db role type result cls x := by
  cases represents with
  | role moved met number results =>
    exact {
      role := Numbering.gives_of_numbers settled.tables.roles moved
      type := Numbering.gives_of_numbers settled.tables.types met
      newRole := Numbering.gives_of_numbers settled.tables.roles results
      cls := number ▸ settled.class_gives kernel }

theorem Settled.hasRangeValues (settled : l.Settled k) (nested : l.db.Nested depth)
    (meaning : k.CategoriesMean l.db means) (mls : l.settings.mls = true) {s t cls : Id} {range : RangeArg Id}
    {levels : LevelValue × LevelValue} {x : RangeTransition} (kernel : l.db.signature.IsKernelClass cls)
    (within : l.db.signature.RangeWithin range) (evaluates : l.db.evalRange range = .ok levels)
    (represents : l.Represents (.range s t cls) (.levels levels) (.range x)) :
    k.HasRangeValues l.db means s t cls range x := by
  cases represents with
  | range source target number results =>
    exact {
      source := Numbering.gives_of_numbers settled.tables.types source
      target := Numbering.gives_of_numbers settled.tables.types target
      cls := number ▸ settled.class_gives kernel
      range := settled.spellsRange nested meaning mls within (results ▸ evalRange_levels mls evaluates) }

theorem Settled.spellsTransitions (settled : l.Settled k) (nested : l.db.Nested depth)
    (meaning : k.CategoriesMean l.db means) :
    k.SpellsTransitions l.db means k.filenameTransitions k.roleTransitions k.rangeTransitions where
  named := by
    intro key hkey
    rw [settled.filled.filenameTransitions] at hkey
    obtain ⟨source, result, held⟩ := (keyed_rules settled.passed.evaluated).named.exists_result? hkey
    obtain ⟨r, hr, _, _, leads, represents⟩ := (settled.holds_rules_iff (.named source key result)).mp held
    have within := settled.closed.within.rules r hr
    refine ⟨r, hr, ?_⟩
    generalize r.rule = rule at leads within ⊢
    cases represents with
    | named _ target number _ =>
      cases leads with
      | named aims =>
        exact ⟨_, _, _, _, _, _, rfl, aims, Numbering.gives_of_numbers settled.tables.types target,
          number ▸ settled.class_gives within.2.2.1⟩
  roles := by
    intro x hx
    rw [settled.filled.roleTransitions] at hx
    obtain ⟨r, hr, _, _, leads, represents⟩ := (settled.holds_rules_iff (.role x)).mp hx
    have within := settled.closed.within.rules r hr
    refine ⟨r, hr, ?_⟩
    generalize r.rule = rule at leads within ⊢
    cases leads with
    | role moved met =>
      exact ⟨_, _, _, _, _, _, rfl, moved, met, settled.hasRoleValues within.2.2.1 represents⟩
    | _ => cases represents
  ranges := by
    intro x hx
    rw [settled.filled.rangeTransitions] at hx
    obtain ⟨r, hr, _, _, leads, represents⟩ := (settled.holds_rules_iff (.range x)).mp hx
    have within := settled.closed.within.rules r hr
    refine ⟨r, hr, ?_⟩
    generalize r.rule = rule at leads within ⊢
    cases leads with
    | range mls aims evaluates =>
      exact ⟨_, _, _, _, _, _, rfl, aims,
        settled.hasRangeValues nested meaning mls within.2.2.1 within.2.2.2 evaluates represents⟩
    | _ => cases represents

/-- A rule that has been lowered fits, so what it leads to has values, and the tables have taken it. -/
theorem Settled.hasTransitions (settled : l.Settled k) (nested : l.db.Nested depth)
    (meaning : k.CategoriesMean l.db means) {r : PlacedRule} (hr : r ∈ l.db.rules) :
    k.HasTransitions l.db means r.rule := by
  have evaluated := settled.passed.evaluated
  have fits := ((rules_done_iff evaluated).mp settled.built.rulesDone).1 r hr
  have within := settled.closed.within.rules r hr
  have brought : ∀ x, l.Brings r.rule x → l.rules.table.Holds x :=
    fun x brings => (settled.holds_rules_iff x).mpr ⟨r, hr, brings⟩
  rw [Fits] at fits
  generalize r.rule = rule at fits within brought ⊢
  cases rule with
  | namedTransition source target cls name result =>
    intro s t aims
    obtain ⟨v, w, hv, hw⟩ := settled.exists_pairValues aims
    obtain ⟨m, hm, value⟩ := settled.numbered.exists_resultValue within.2.2.2
    obtain ⟨_, found⟩ := brought (.named v ⟨w, l.classNumber cls, name⟩ m)
      ⟨_, _, .named aims, .named hv hw rfl value⟩
    rw [← settled.filled.filenameTransitions] at found
    exact ⟨v, w, _, m, Numbering.gives_of_numbers settled.tables.types hv,
      Numbering.gives_of_numbers settled.tables.types hw, settled.class_gives within.2.2.1,
      Numbering.gives_of_numbers settled.tables.types hm, found⟩
  | roleTransition source target cls result =>
    intro role moved type met
    obtain ⟨v, hv⟩ := settled.numbered.exists_roleValue evaluated moved
    obtain ⟨w, hw⟩ := settled.numbered.exists_typeValue (evaluated.concrete_of_mem met)
    obtain ⟨n, hn⟩ := settled.numbered.exists_plainRoleValue within.2.2.2
    have represents : l.Represents (.role role type cls) (.entity result) (.role ⟨v, w, n, l.classNumber cls⟩) :=
      .role hv hw rfl hn
    have held : _ ∈ l.rules.table.roleTransitions := brought _ ⟨_, _, .role moved met, represents⟩
    rw [← settled.filled.roleTransitions] at held
    exact ⟨_, held, settled.hasRoleValues within.2.2.1 represents⟩
  | rangeTransition source target cls range =>
    intro mls s t aims
    have mls := settled.built.mls ▸ mls
    obtain ⟨levels, evaluates⟩ := fits mls
    obtain ⟨v, w, hv, hw⟩ := settled.exists_pairValues aims
    have represents : l.Represents (.range s t cls) (.levels levels)
        (.range ⟨v, w, l.classNumber cls, l.levelRange levels⟩) := .range hv hw rfl rfl
    have held : _ ∈ l.rules.table.rangeTransitions := brought _ ⟨_, _, .range mls aims evaluates, represents⟩
    rw [← settled.filled.rangeTransitions] at held
    exact ⟨_, held, settled.hasRangeValues nested meaning mls within.2.2.1 within.2.2.2 evaluates represents⟩
  | _ => trivial

end Lowering

end CilPolicy
