import CilPolicy.Proofs.Lowering.AccessMeaning
import Mathlib.Data.List.Nodup

/-!
# The check of what is forbidden

Every rule that forbids access is checked against every entry of both tables, whose
source and target may be attributes. An entry breaks a rule when some access that the
entry speaks of is forbidden; so for rules without extended permissions the check
fails exactly when some forbidden access is allowed.
-/

namespace CilPolicy

/-- The rule forbids numbers of extended permissions. -/
def Rule.forbidsNumbers : Rule → Bool
  | .extended .neverAllow .. => true
  | _ => false

namespace Lowering

variable {l : Lowering}

/-! ### The rules that are checked -/

/-- What a rule forbids, if it forbids anything. -/
def forbidding? (l : Lowering) (r : PlacedRule) : Option NeverAllow :=
  match r.rule with
  | .access .neverAllow source target permissions =>
    some ⟨r.location, l.db.expandType source, l.targetTypes target, l.db.grants permissions, none⟩
  | .extended .neverAllow source target permissions =>
    (l.db.extendedSpec? permissions).map fun spec =>
      ⟨r.location, l.db.expandType source, l.targetTypes target, [l.ioctlGrant spec.cls],
        some spec.numbers⟩
  | _ => none

theorem addAccess_neverAllows {t : RuleTables} {location : Location} {kind : AccessKind} {source : Id}
    {target : RuleTarget} {permissions : ClassPerms Id} :
    (l.addAccess t location kind source target permissions).table.neverAllows =
      t.neverAllows ++ (l.forbidding? ⟨location, .access kind source target permissions⟩).toList := by
  cases kind with
  | neverAllow => rfl
  | _ => exact (List.append_nil _).symm

theorem addExtended_neverAllows {t : RuleTables} {location : Location} {kind : AccessKind} {source : Id}
    {target : RuleTarget} {permissions : ExtendedArg Id BitSet} :
    (l.addExtended t location kind source target permissions).table.neverAllows =
      t.neverAllows ++ (l.forbidding? ⟨location, .extended kind source target permissions⟩).toList := by
  rw [addExtended]
  split
  · rename_i hspec
    cases kind <;> simp [forbidding?, hspec, Step.fail]
  · rename_i spec hspec hkinds
    cases kind <;> cases hkinds
    simp [forbidding?, hspec, Step.done]
  · rename_i spec kinds hspec hkinds
    have none : l.forbidding? ⟨location, .extended kind source target permissions⟩ = none := by
      cases kind <;> cases hkinds <;> rfl
    rw [none]
    split
    · exact (List.append_nil _).symm
    · exact (List.append_nil _).symm

theorem addTypeRule_neverAllows {base : AccessRules} {t : RuleTables} {location : Location}
    {kind : TypeRuleKind} {source : Id} {target : RuleTarget} {cls result : Id} :
    (l.addTypeRule base t location kind source target cls result).table.neverAllows = t.neverAllows := by
  obtain ⟨_, same⟩ := l.addTypeRule_only t location base kind source target cls result
  rw [same]

theorem addRule_neverAllows {t : RuleTables} {r : PlacedRule} :
    (l.addRule t r).table.neverAllows = t.neverAllows ++ (l.forbidding? r).toList := by
  obtain ⟨location, rule⟩ := r
  cases rule with
  | access => exact addAccess_neverAllows
  | extended => exact addExtended_neverAllows
  | type => exact addTypeRule_neverAllows.trans (List.append_nil _).symm
  | namedTransition source target cls name result =>
    obtain ⟨_, same⟩ := l.addNamedTransition_only t location source target cls name result
    exact (congrArg RuleTables.neverAllows same).trans (List.append_nil _).symm
  | roleTransition source target cls result =>
    obtain ⟨_, same⟩ := l.addRoleTransition_only t location source target cls result
    exact (congrArg RuleTables.neverAllows same).trans (List.append_nil _).symm
  | roleAllow => exact (List.append_nil _).symm
  | rangeTransition source target cls range =>
    obtain ⟨_, same⟩ := l.addRangeTransition_only t location source target cls range
    exact (congrArg RuleTables.neverAllows same).trans (List.append_nil _).symm

theorem mem_rules_neverAllows {rule : NeverAllow} :
    rule ∈ l.rules.table.neverAllows ↔ ∃ r ∈ l.db.rules, l.forbidding? r = some rule := by
  have all : l.rules.table.neverAllows = [] ++ l.db.rules.flatMap fun r => (l.forbidding? r).toList := by
    refine Step.gather_append RuleTables.neverAllows fun t r _ => ?_
    exact addRule_neverAllows
  rw [all]
  simp [List.mem_flatMap]

/-- A verified policy forbids nothing in conditionals. -/
theorem armRules_neverAllows (declarations : l.db.declarationFaults = []) {base : AccessRules}
    {c : Conditional} (hc : c ∈ l.db.conditionals) (value : Bool) :
    (l.armRules base c value).table.neverAllows = [] := by
  have plain : ∀ r ∈ c.rules value, EvaluatedDatabase.isNeverAllow r.rule = false := by
    intro r hr
    obtain ⟨b, hb, hr⟩ := List.mem_flatMap.mp hr
    simp only [EvaluatedDatabase.declarationFaults, List.append_eq_nil_iff] at declarations
    obtain ⟨⟨⟨⟨_, conditionals⟩, _⟩, _⟩, _⟩ := declarations
    have none := List.flatMap_eq_nil_iff.mp conditionals c hc
    simp only [EvaluatedDatabase.conditionalFaults, List.append_eq_nil_iff] at none
    have block := List.flatMap_eq_nil_iff.mp none.1.1 b (List.mem_of_mem_filter hb)
    have rules := List.map_eq_nil_iff.mp (List.append_eq_nil_iff.mp block).2
    simpa using List.filter_eq_nil_iff.mp rules r hr
  have all : (l.armRules base c value).table.neverAllows = [] ++ (c.rules value).flatMap fun _ => [] := by
    refine Step.gather_append RuleTables.neverAllows fun t r hr => ?_
    obtain ⟨location, rule⟩ := r
    rw [List.append_nil]
    cases rule with
    | access kind source target permissions =>
      refine addAccess_neverAllows.trans ?_
      cases kind with
      | neverAllow => cases plain _ hr
      | _ => exact List.append_nil _
    | type => exact addTypeRule_neverAllows
    | _ => rfl
  rw [all]
  simp

/-- The rules that are checked are those that forbid something outside conditionals. -/
theorem mem_allNeverAllows (declarations : l.db.declarationFaults = [])
    (done : l.loweredConditionals.faults = []) {rule : NeverAllow} :
    rule ∈ l.allNeverAllows ↔ ∃ r ∈ l.db.rules, l.forbidding? r = some rule := by
  obtain ⟨_, neverAllows, _⟩ := foldl_addConditional done
  have none : l.loweredConditionals.table.neverAllows = [] := by
    refine neverAllows.trans (List.append_eq_nil_iff.mpr ⟨rfl, ?_⟩)
    refine List.flatMap_eq_nil_iff.mpr fun c hc => List.append_eq_nil_iff.mpr ?_
    exact ⟨armRules_neverAllows declarations hc true, armRules_neverAllows declarations hc false⟩
  rw [allNeverAllows, none, List.append_nil, mem_rules_neverAllows]

/-! ### Breaches -/

theorem breach?_eq_some {rule : NeverAllow} {table : AccessTable} {e : AccessEntry} :
    (∃ g, l.breach? rule table e = some g) ↔
      e.key.kinds.overlap RuleKinds.allowed = true ∧ l.coversKey rule e.key = true ∧
        (∃ g, l.forbidden? rule e.key = some g ∧ e.datum.data &&& g.word ≠ 0) ∧
        (rule.numbers.map (reaches table e.key)).getD true = true := by
  rw [breach?]
  cases e.key.kinds.overlap RuleKinds.allowed with
  | false => simp
  | true =>
    cases l.forbidden? rule e.key with
    | none => simp
    | some g =>
      cases l.coversKey rule e.key with
      | false => simp
      | true =>
        cases (rule.numbers.map (reaches table e.key)).getD true <;>
          by_cases zero : e.datum.data &&& g.word = 0 <;> simp [zero]

theorem breaches_eq_nil {tables : List AccessTable} {rule : NeverAllow} :
    l.breaches tables rule = [] ↔ ∀ table ∈ tables, ∀ e ∈ table.toList, l.breach? rule table e = none := by
  simp only [breaches, List.flatMap_eq_nil_iff, List.filterMap_eq_nil_iff, Option.map_eq_none_iff]

/-- The check passes in silence when nothing is broken. -/
theorem checkNeverAllows_eq {tables : List AccessTable} {rules : List NeverAllow}
    (h : ∀ rule ∈ rules, l.breaches tables rule = []) : l.checkNeverAllows tables rules = pure () := by
  unfold checkNeverAllows
  extract_lets broken
  have none : broken = [] := by
    refine List.filterMap_eq_nil_iff.mpr fun rule hrule => ?_
    rw [h rule hrule]
  rw [none]
  rfl

theorem breaches_of_checkNeverAllows {tables : List AccessTable} {rules : List NeverAllow}
    (run : (l.checkNeverAllows tables rules).Yields ()) :
    ∀ rule ∈ rules, l.breaches tables rule = [] := by
  intro rule hrule
  obtain ⟨_, _, run⟩ := Report.yields_bind run
  have none := List.map_eq_nil_iff.mp (Report.yields_reject run)
  have passed := List.filterMap_eq_nil_iff.mp none rule hrule
  split at passed
  · assumption
  · cases passed

/-- The rule forbids what the source rule speaks of, with the same types on both sides. -/
structure AimsAs (l : Lowering) (rule : NeverAllow) (source : Id) (target : RuleTarget) : Prop where
  source : rule.source = l.db.expandType source
  target : rule.target = l.targetTypes target

/-- Some types of a key come under a rule when the rule speaks of two of them. -/
theorem coversTypes_iff (evaluated : l.db.Evaluated) {rule : NeverAllow} {source : Id}
    {target : RuleTarget} (aims : l.AimsAs rule source target) {sources targets : BitSet}
    (ws : sources.WellFormed) (wt : targets.WellFormed) :
    rule.coversTypes sources targets = true ↔
      ∃ s t, l.db.Aims source target s t ∧ s ∈ sources ∧ t ∈ targets := by
  have wsource := evaluated.expandType_wellFormed source
  have whit := BitSet.wellFormed_inter ws wsource
  rw [NeverAllow.coversTypes, aims.source, aims.target]
  cases target with
  | self =>
    simp only [targetTypes, BitSet.meets_iff whit wt, BitSet.mem_inter ws wsource,
      EvaluatedDatabase.Aims]
    constructor
    · rintro ⟨n, ⟨hn, member⟩, hn'⟩
      exact ⟨n, n, ⟨member, rfl⟩, hn, hn'⟩
    · rintro ⟨s, t, ⟨member, rfl⟩, hs, ht⟩
      exact ⟨_, ⟨hs, member⟩, ht⟩
  | type target =>
    have wtarget := evaluated.expandType_wellFormed target
    simp only [targetTypes, Bool.and_eq_true, Bool.not_eq_true', BitSet.meets_iff wt wtarget,
      BitSet.isEmpty_eq_false_iff whit, BitSet.mem_inter ws wsource, EvaluatedDatabase.Aims]
    constructor
    · rintro ⟨⟨s, hs, member⟩, t, ht, member'⟩
      exact ⟨s, t, ⟨member, member'⟩, hs, ht⟩
    · rintro ⟨s, t, ⟨member, member'⟩, hs, ht⟩
      exact ⟨⟨s, hs, member⟩, t, ht, member'⟩

theorem covers_iff_typeMembers {v : Nat} {s : Id} :
    l.Covers v s ↔ ∃ set, l.typeMembers? v = some set ∧ s ∈ set := by
  rw [Covers, typeMembers?]
  cases l.types.id? v <;> simp

/-- A key comes under a rule when it covers two types of which the rule speaks. -/
theorem coversKey_iff (evaluated : l.db.Evaluated) {rule : NeverAllow} {source : Id}
    {target : RuleTarget} (aims : l.AimsAs rule source target) {key : AccessKey} :
    l.coversKey rule key = true ↔
      ∃ s t, l.db.Aims source target s t ∧ l.Covers key.source.toNat s ∧ l.Covers key.target.toNat t := by
  have wellFormed : ∀ v set, l.typeMembers? v = some set → set.WellFormed := by
    intro v set h
    obtain ⟨id, _, rfl⟩ := Option.map_eq_some_iff.mp h
    exact evaluated.expandType_wellFormed id
  simp only [covers_iff_typeMembers]
  rw [coversKey]
  cases hsources : l.typeMembers? key.source.toNat with
  | none => simp
  | some sources =>
    cases htargets : l.typeMembers? key.target.toNat with
    | none => simp
    | some targets =>
      simp only [Option.some.injEq, exists_eq_left']
      exact coversTypes_iff evaluated aims (wellFormed _ _ hsources) (wellFormed _ _ htargets)

theorem exists_getLsbD_of_ne_zero {a b : BitVec 32} :
    a &&& b ≠ 0 ↔ ∃ p < 32, a.getLsbD p = true ∧ b.getLsbD p = true := by
  constructor
  · intro h
    apply Classical.byContradiction
    intro none
    refine h (BitVec.eq_of_getLsbD_eq fun p hp => ?_)
    rw [BitVec.getLsbD_and]
    simp only [not_exists, not_and] at none
    have apart := none p hp
    cases ha : a.getLsbD p
    · simp
    · simp [apart ha]
  · rintro ⟨p, _, ha, hb⟩ zero
    have bit : (a &&& b).getLsbD p = true := by rw [BitVec.getLsbD_and, ha, hb, Bool.and_self]
    rw [zero] at bit
    simp at bit

/-- The permissions forbidden for a key are those that the references of the rule stand
for in the class of the key. -/
theorem forbidden?_iff {rule : NeverAllow} {permissions : ClassPerms Id}
    (grants : rule.grants = l.db.grants permissions) {key : AccessKey} {word : BitVec 32} :
    (∃ g, l.forbidden? rule key = some g ∧ word &&& g.word ≠ 0) ↔
      ∃ cls, l.classes.value? cls = some key.cls.toNat ∧
        ∃ p < 32, word.getLsbD p = true ∧ Granted (l.db.grants permissions) cls p := by
  simp only [exists_getLsbD_of_ne_zero]
  constructor
  · rintro ⟨g, found, p, hp, hword, bit⟩
    have member := List.mem_of_find?_eq_some found
    have same := List.find?_some found
    exact ⟨g.cls, by simpa using same, p, hp, hword, g, grants ▸ member, rfl, bit⟩
  · rintro ⟨cls, hcls, p, hp, hword, g, hg, rfl, bit⟩
    cases found : l.forbidden? rule key with
    | none =>
      have none := List.find?_eq_none.mp found g (grants ▸ hg)
      exact absurd (by simp [hcls]) none
    | some g' =>
      have member := List.mem_of_find?_eq_some found
      have same : l.classes.value? g'.cls = some key.cls.toNat := by simpa using List.find?_some found
      have hcls' := Numbering.value?_injective same hcls
      have once := List.inj_on_of_nodup_map (Database.nodup_grants permissions) (grants ▸ member) hg hcls'
      exact ⟨g', rfl, p, hp, hword, once ▸ bit⟩

/-- The plain rule forbids what the source rule states. -/
theorem exists_breach_iff (passed : l.db.Passed) {rule : NeverAllow}
    {source : Id} {target : RuleTarget} (aims : l.AimsAs rule source target)
    {permissions : ClassPerms Id} (grants : rule.grants = l.db.grants permissions)
    (plain : rule.numbers = none) {table : AccessTable} {e : AccessEntry} :
    (∃ g, l.breach? rule table e = some g) ↔
      e.key.kinds.overlap RuleKinds.allowed = true ∧ ∃ a : Access, a.permission < 32 ∧
        (l.db.Aims source target a.source a.target ∧
          l.db.StandsFor permissions a.cls a.permission) ∧
        l.Speaks e.key a ∧ e.datum.data.getLsbD a.permission = true := by
  rw [breach?_eq_some, coversKey_iff passed.evaluated aims, forbidden?_iff grants, plain]
  constructor
  · rintro ⟨overlap, ⟨s, t, haims, hs, ht⟩, ⟨cls, hcls, p, hp, bit, granted⟩, _⟩
    exact ⟨overlap, ⟨s, t, cls, p⟩, hp, ⟨haims, (Database.granted_grants passed.acyclic hp).mp granted⟩,
      ⟨hs, ht, hcls⟩, bit⟩
  · rintro ⟨overlap, a, hp, ⟨haims, stands⟩, speaks, bit⟩
    exact ⟨overlap, ⟨a.source, a.target, haims, speaks.source, speaks.target⟩,
      ⟨a.cls, speaks.cls, a.permission, hp, bit, (Database.granted_grants passed.acyclic hp).mpr stands⟩, rfl⟩

/-! ### Both tables -/

variable {k : KernelPolicy}

/-- The entries of the conditional table are those of the arms. -/
theorem Built.mem_conditionalRules (built : l.Built k) {e : AccessEntry} :
    e ∈ k.conditionalRules.toList ↔ ∃ i value, e ∈ k.entriesAt (.arm i value) := by
  obtain ⟨_, _, lowered, hlowered, lowers⟩ := foldl_addConditional built.conditionalsDone
  have same : l.loweredConditionals.table.conditionals = lowered := hlowered
  obtain ⟨listed, entries, _⟩ := conditionalTable_spec (l := l) l.loweredConditionals.table.conditionals
  rw [built.conditionals, same] at entries
  rw [built.conditionals] at listed
  rw [AccessTable.mem_toList listed]
  constructor
  · intro he
    rw [entries] at he
    obtain ⟨lc, hlc, he⟩ := List.mem_flatMap.mp he
    obtain ⟨i, hi⟩ := List.mem_iff_getElem?.mp hlc
    rcases forall₂_getElem? lowers i with ⟨_, none⟩ | ⟨c, lc', hc, hlc', arms⟩
    · cases hi.symm.trans none
    · cases hi.symm.trans hlc'
      have lowered : ∀ value, l.accessAt (.arm i value) =
          (l.armRules l.rules.table.access c value).table.access := by
        intro value
        simp [accessAt, hc]
      rcases List.mem_append.mp he with he | he
      · refine ⟨i, true, (built.mem_entriesAt _).mpr ?_⟩
        rwa [lowered, ← arms.whenTrue]
      · refine ⟨i, false, (built.mem_entriesAt _).mpr ?_⟩
        rwa [lowered, ← arms.whenFalse]
  · rintro ⟨i, value, he⟩
    rw [KernelPolicy.entriesAt] at he
    cases hnode : k.conditionals[i]? with
    | none => simp [hnode] at he
    | some node =>
      simp only [hnode, Option.map_some, Option.getD_some] at he
      obtain ⟨handle, _, found⟩ := List.mem_filterMap.mp he
      exact Array.mem_toList_iff.mpr (Array.mem_of_getElem? found)

/-- An entry of either table stands in some place. -/
theorem Built.mem_tables (built : l.Built k) {e : AccessEntry} :
    (∃ table ∈ [k.rules, k.conditionalRules], e ∈ table.toList) ↔ ∃ place, e ∈ k.entriesAt place := by
  constructor
  · rintro ⟨table, htable, he⟩
    rcases List.mem_cons.mp htable with rfl | htable
    · exact ⟨.top, he⟩
    · cases List.mem_singleton.mp htable
      obtain ⟨i, value, he⟩ := built.mem_conditionalRules.mp he
      exact ⟨.arm i value, he⟩
  · rintro ⟨place, he⟩
    cases place with
    | top => exact ⟨k.rules, List.mem_cons_self, he⟩
    | arm i value =>
      refine ⟨k.conditionalRules, List.mem_cons_of_mem _ List.mem_cons_self, ?_⟩
      exact built.mem_conditionalRules.mpr ⟨i, value, he⟩

/-- What some entry of a place allows, some rule of the place states. -/
theorem Built.exists_allowed_iff (built : l.Built k) (numbered : l.Numbered) (passed : l.db.Passed)
    {a : Access} (hp : a.permission < 32) (place : RulePlace) :
    (∃ e ∈ k.entriesAt place, e.key.kinds.overlap RuleKinds.allowed = true ∧ l.Speaks e.key a ∧
        e.datum.data.getLsbD a.permission = true) ↔
      ∃ r ∈ l.db.rulesAt place, l.db.States .allow r.rule a := by
  rw [← built.accessAt_iff numbered passed rfl hp place, Marks,
    ← AccessRules.exists_toEntries (accessAt_kindsFit place) (by simp [RuleKinds.vectorKinds])]
  simp only [built.mem_entriesAt place]
  rfl

theorem proper_of_states (passed : l.db.Passed) {kind : AccessKind} {r : PlacedRule} {a : Access}
    (hr : r ∈ l.db.rules) (states : l.db.States kind r.rule a) : l.db.Proper a := by
  have fits := passed.resolved.rules r hr
  simp only [EvaluatedDatabase.States] at states
  split at states
  · rename_i hrule
    obtain ⟨_, aims, stands⟩ := states
    rw [hrule] at fits
    obtain ⟨source, target⟩ := passed.evaluated.concrete_of_aims aims
    exact ⟨source, target, passed.resolved.standsFor_bounded fits stands⟩
  · exact states.elim

theorem breaches_ne_nil {tables : List AccessTable} {rule : NeverAllow} :
    l.breaches tables rule ≠ [] ↔
      ∃ table ∈ tables, ∃ e ∈ table.toList, ∃ g, l.breach? rule table e = some g := by
  rw [Ne, breaches_eq_nil]
  simp only [Classical.not_forall, ← Option.isSome_iff_exists, ← Option.ne_none_iff_isSome, exists_prop]

/-- A plain rule is broken when it states an access that some rule, in or outside
conditionals, allows. -/
theorem Built.broken_iff (built : l.Built k) (numbered : l.Numbered) (passed : l.db.Passed)
    {r : PlacedRule} {source : Id} {target : RuleTarget} {permissions : ClassPerms Id}
    (hrule : r.rule = .access .neverAllow source target permissions) {rule : NeverAllow}
    (forbids : l.forbidding? r = some rule) :
    l.breaches [k.rules, k.conditionalRules] rule ≠ [] ↔
      ∃ a : Access, a.permission < 32 ∧ l.db.States .neverAllow r.rule a ∧
        ∃ place, ∃ r ∈ l.db.rulesAt place, l.db.States .allow r.rule a := by
  simp only [forbidding?, hrule, Option.some.injEq] at forbids
  subst forbids
  rw [breaches_ne_nil]
  constructor
  · rintro ⟨table, htable, e, he, breach⟩
    obtain ⟨overlap, a, hp, states, speaks, bit⟩ := (exists_breach_iff passed ⟨rfl, rfl⟩ rfl rfl).mp breach
    obtain ⟨place, hplace⟩ := built.mem_tables.mp ⟨table, htable, he⟩
    refine ⟨a, hp, ?_, place, ?_⟩
    · rw [hrule]
      exact ⟨rfl, states⟩
    · exact (built.exists_allowed_iff numbered passed hp place).mp ⟨e, hplace, overlap, speaks, bit⟩
  · rintro ⟨a, hp, states, place, allows⟩
    obtain ⟨e, hplace, overlap, speaks, bit⟩ := (built.exists_allowed_iff numbered passed hp place).mpr allows
    obtain ⟨table, htable, he⟩ := built.mem_tables.mpr ⟨place, hplace⟩
    rw [hrule] at states
    exact ⟨table, htable, e, he, (exists_breach_iff passed ⟨rfl, rfl⟩ rfl rfl).mpr
      ⟨overlap, a, hp, states.2, speaks, bit⟩⟩

/-- A rule that is checked forbids accesses or numbers. -/
theorem forbidding?_eq_some {r : PlacedRule} {rule : NeverAllow} (h : l.forbidding? r = some rule)
    (plain : r.rule.forbidsNumbers = false) :
    ∃ source target permissions, r.rule = .access .neverAllow source target permissions := by
  rw [forbidding?] at h
  split at h
  · rename_i hrule
    exact ⟨_, _, _, hrule⟩
  · rename_i hrule
    rw [hrule] at plain
    cases plain
  · cases h

theorem rule_of_denies {r : PlacedRule} {a : Access} (h : l.db.States .neverAllow r.rule a) :
    ∃ source target permissions, r.rule = .access .neverAllow source target permissions := by
  simp only [EvaluatedDatabase.States] at h
  split at h
  · rename_i hrule
    obtain ⟨rfl, _⟩ := h
    exact ⟨_, _, _, hrule⟩
  · exact h.elim

/-- Some rule is broken exactly when some access is both forbidden and allowed. -/
theorem Built.exists_broken_iff (built : l.Built k) (numbered : l.Numbered) (passed : l.db.Passed)
    (plain : ∀ r ∈ l.db.rules, r.rule.forbidsNumbers = false) :
    (∃ rule ∈ l.allNeverAllows, l.breaches [k.rules, k.conditionalRules] rule ≠ []) ↔
      ∃ a, l.db.Proper a ∧ (∃ r ∈ l.db.rules, l.db.States .neverAllow r.rule a) ∧
        ∃ place, ∃ r ∈ l.db.rulesAt place, l.db.States .allow r.rule a := by
  have checked := fun (rule : NeverAllow) =>
    @mem_allNeverAllows l passed.declarations built.conditionalsDone rule
  constructor
  · rintro ⟨rule, hchecked, h⟩
    obtain ⟨r, hr, forbids⟩ := (checked rule).mp hchecked
    obtain ⟨source, target, permissions, hrule⟩ := forbidding?_eq_some forbids (plain r hr)
    obtain ⟨a, _, denies, allows⟩ := (built.broken_iff numbered passed hrule forbids).mp h
    exact ⟨a, proper_of_states passed hr denies, ⟨r, hr, denies⟩, allows⟩
  · rintro ⟨a, proper, ⟨r, hr, denies⟩, allows⟩
    obtain ⟨source, target, permissions, hrule⟩ := rule_of_denies denies
    have forbids : l.forbidding? r = some ⟨r.location, l.db.expandType source, l.targetTypes target,
        l.db.grants permissions, none⟩ := by
      simp [forbidding?, hrule]
    refine ⟨_, (checked _).mpr ⟨r, hr, forbids⟩, ?_⟩
    exact (built.broken_iff numbered passed hrule forbids).mpr ⟨a, proper.lt_word passed, denies, allows⟩

/-! ### With and without the check -/

/-- The lowering with the check on or off. -/
def withCheck (l : Lowering) (check : Bool) : Lowering :=
  { l with options := { l.options with checkNeverAllow := check } }

/-- Where nothing is broken, the check changes nothing. -/
theorem policy_withCheck {before after : List Message}
    (run : (l.withCheck false).policy.Runs before k after)
    (unbroken : ∀ rule ∈ l.allNeverAllows, l.breaches [k.rules, k.conditionalRules] rule = []) :
    (l.withCheck true).policy.Runs before k after := by
  have built := built_of_policy ⟨before, after, run⟩
  rw [policy] at run ⊢
  obtain ⟨base, between, hbase, run⟩ := Report.runs_bind.mp run
  refine Report.runs_bind.mpr ⟨base, between, hbase, ?_⟩
  obtain ⟨rules, between, hrules, run⟩ := Report.runs_bind.mp run
  refine Report.runs_bind.mpr ⟨rules, between, hrules, ?_⟩
  obtain ⟨conditionals, between, hconditionals, run⟩ := Report.runs_bind.mp run
  refine Report.runs_bind.mpr ⟨conditionals, between, hconditionals, ?_⟩
  obtain ⟨table, between, htable, run⟩ := Report.runs_bind.mp run
  refine Report.runs_bind.mpr ⟨table, between, htable, ?_⟩
  obtain ⟨_, rfl⟩ := Step.Gathered.report_spec ⟨_, _, hrules⟩
  obtain ⟨_, rfl⟩ := Step.Gathered.report_spec ⟨_, _, hconditionals⟩
  cases (mapError_eq_ok.mp (Report.yields_lift ⟨_, _, htable⟩)).symm.trans built.rules
  have hnodes : (l.withCheck false).conditionalTable ((l.withCheck false).conditionals
      (l.withCheck false).rules.table.access).table.conditionals =
      (k.conditionals, k.conditionalRules) := built.conditionals
  have hnodes' : (l.withCheck true).conditionalTable ((l.withCheck false).conditionals
      (l.withCheck false).rules.table.access).table.conditionals =
      (k.conditionals, k.conditionalRules) := hnodes
  have silent : (l.withCheck true).checkNeverAllows [k.rules, k.conditionalRules]
      ((l.withCheck false).rules.table.neverAllows ++ ((l.withCheck false).conditionals
        (l.withCheck false).rules.table.access).table.neverAllows) = pure () :=
    checkNeverAllows_eq unbroken
  rw [hnodes] at run
  rw [hnodes']
  dsimp only at run ⊢
  rw [if_neg (by exact Bool.false_ne_true)] at run
  rw [if_pos (by rfl), silent]
  exact Report.runs_bind.mpr ⟨(), between, rfl, run⟩

end Lowering

namespace EvaluatedDatabase

variable {db : EvaluatedDatabase} {settings : Settings} {k : KernelPolicy}

/-- The check is exact for rules without extended permissions. Where the policy can be
lowered without the check, lowering with the check fails exactly when some access that a
rule forbids is allowed by a rule outside conditionals or in an arm of one. -/
theorem check_fails_iff_forbidden_allowed (options : LoweringOptions) (verified : db.Verified)
    (plain : ∀ r ∈ db.rules, r.rule.forbidsNumbers = false)
    (run : (db.lower settings { options with checkNeverAllow := false }).outcome.1 = .ok k) :
    (∃ d, (db.lower settings { options with checkNeverAllow := true }).outcome.1 = .error d) ↔
      ∃ a, db.Proper a ∧ (∃ r ∈ db.rules, db.States .neverAllow r.rule a) ∧
        ∃ place, ∃ r ∈ db.rulesAt place, db.States .allow r.rule a := by
  have passed := verified.passed
  have built := built_of_lower run
  have numbered := Lowering.numbered_new db settings { options with checkNeverAllow := false }
  constructor
  · rintro ⟨d, failed⟩
    apply Classical.byContradiction
    intro none
    have unbroken := (built.exists_broken_iff numbered passed plain).not.mpr none
    simp only [not_exists, not_and, Classical.not_not] at unbroken
    have runs := Lowering.policy_withCheck (l := Lowering.new db settings options) (Prod.ext run rfl) unbroken
    have ok : (db.lower settings { options with checkNeverAllow := true }).outcome.1 = .ok k :=
      congrArg Prod.fst runs
    cases failed.symm.trans ok
  · intro forbidden
    cases outcome : (db.lower settings { options with checkNeverAllow := true }).outcome.1 with
    | error d => exact ⟨d, rfl⟩
    | ok k' =>
      have built' := built_of_lower outcome
      have numbered' := Lowering.numbered_new db settings { options with checkNeverAllow := true }
      obtain ⟨rule, hrule, broken⟩ := (built'.exists_broken_iff numbered' passed plain).mpr forbidden
      exact absurd (Lowering.breaches_of_checkNeverAllows (built'.checked rfl) rule hrule) broken

/-- A policy that allows an attribute what it forbids one of its types. -/
def brokenPolicy : List Statement :=
  smallPolicy [.plain {} (.access .allow "both" "b" (.given "file" (.list [.item "ioctl"]))),
    .plain {} (.access .neverAllow "a" "both" (.given "file" (.list [.item "ioctl"])))]

theorem brokenPolicy_lowers :
    lowersTo brokenPolicy { checkNeverAllow := false } (fun db settings _ =>
      db.rules.all (fun r => !r.rule.forbidsNumbers) &&
      !(db.lower settings { checkNeverAllow := true }).outcome.1.isOk) = true := by
  decide +kernel

/-- The check of a small policy fails, so some access is both forbidden and allowed. -/
theorem exists_forbidden_allowed_small :
    ∃ (db : EvaluatedDatabase) (settings : Settings) (k : KernelPolicy), db.Verified ∧
      (db.lower settings { checkNeverAllow := false }).outcome.1 = .ok k ∧
      ∃ a, db.Proper a ∧ (∃ r ∈ db.rules, db.States .neverAllow r.rule a) ∧
        ∃ place, ∃ r ∈ db.rulesAt place, db.States .allow r.rule a := by
  obtain ⟨db, settings, k, verified, run, tested⟩ := exists_lowered brokenPolicy_lowers
  simp only [Bool.and_eq_true, List.all_eq_true, Bool.not_eq_true'] at tested
  obtain ⟨plain, failed⟩ := tested
  refine ⟨db, settings, k, verified, run, ?_⟩
  refine (check_fails_iff_forbidden_allowed {} verified plain run).mp ?_
  cases outcome : (db.lower settings { checkNeverAllow := true }).outcome.1 with
  | error d => exact ⟨d, rfl⟩
  | ok k' =>
    rw [outcome] at failed
    cases failed

end EvaluatedDatabase

end CilPolicy
