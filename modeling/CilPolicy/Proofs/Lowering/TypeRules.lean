import CilPolicy.Proofs.Lowering.AccessMeaning

/-!
# Type rules that contradict each other

A type rule is compared with the rules outside conditionals and with the earlier rules
of its own place. So the entries of one place agree, and so do those of an arm and those
outside conditionals. Nothing compares the arms of two conditionals. Under a state of the
booleans two entries in force contradict each other exactly when two different
conditionals have, in the arms in force, type rules that disagree.
-/

namespace CilPolicy

/-! ### Words of result types -/

namespace AccessRules

variable {base r : AccessRules} {key k : AccessKey}

theorem word?_grant (other : k ≠ key) (permissions : BitVec 32) :
    (r.grant key permissions).word? k = r.word? k :=
  lookup_upsert_of_ne other

theorem word?_setResult (fresh : r.word? key = none) (result : Nat) :
    (r.setResult key result).word? k = if k = key then some (BitVec.ofNat 32 result) else r.word? k := by
  rw [word?, setResult, List.lookup_append]
  by_cases same : k = key
  · subst same
    rw [if_pos rfl, show r.words.lookup k = none from fresh, Option.none_or]
    simp
  · have differ : (k == key) = false := beq_eq_false_iff_ne.mpr same
    simp only [List.lookup_cons, List.lookup_nil, differ, if_neg same, Option.or_none]
    rfl

/-- A listed word of a result type is the one that its key has, and the base has none for
the key. -/
def ResultsFit (base r : AccessRules) : Prop :=
  ∀ key word, key.kinds ∈ RuleKinds.resultKinds → (key, word) ∈ r.words →
    r.word? key = some word ∧ base.word? key = none

theorem resultsFit_empty (base : AccessRules) : ResultsFit base {} := by
  intro key word _ listed
  cases listed

theorem ResultsFit.grant (fit : ResultsFit base r) (permissions : BitVec 32)
    (vector : key.kinds ∈ RuleKinds.vectorKinds) : ResultsFit base (r.grant key permissions) := by
  intro k word result listed
  have other : k ≠ key := fun same => RuleKinds.result_ne_vector result vector (same ▸ rfl)
  rw [word?_grant other]
  exact fit k word result ((mem_upsert_of_ne other).mp listed)

theorem ResultsFit.setResult (fit : ResultsFit base r) (result : Nat) (fresh : r.word? key = none)
    (unbased : base.word? key = none) : ResultsFit base (r.setResult key result) := by
  intro k word kinds listed
  rw [word?_setResult fresh]
  rcases List.mem_append.mp listed with old | new
  · obtain ⟨found, none⟩ := fit k word kinds old
    have other : k ≠ key := by
      rintro rfl
      rw [fresh] at found
      cases found
    exact ⟨by rw [if_neg other, found], none⟩
  · cases List.mem_singleton.mp new
    exact ⟨if_pos rfl, unbased⟩

theorem ResultsFit.word?_iff (fit : ResultsFit base r) (result : key.kinds ∈ RuleKinds.resultKinds)
    {word : BitVec 32} : r.word? key = some word ↔ (key, word) ∈ r.words := by
  constructor
  · intro found
    obtain ⟨before, after, whole, _⟩ := List.lookup_eq_some_iff.mp found
    rw [whole]
    simp
  · intro listed
    exact (fit key word result listed).1

/-- The entries with a result type are the words of their keys. -/
theorem ResultsFit.mem_toEntries_iff (fit : ResultsFit base r) (kinds : r.KindsFit) {e : AccessEntry}
    (result : e.key.kinds ∈ RuleKinds.resultKinds) :
    e ∈ r.toEntries ↔ r.word? e.key = some e.datum.data ∧ e.datum.extended = none := by
  rw [fit.word?_iff result, toEntries, List.mem_append]
  constructor
  · rintro (listed | listed)
    · obtain ⟨⟨key, word⟩, hword, rfl⟩ := List.mem_map.mp listed
      exact ⟨hword, rfl⟩
    · obtain ⟨⟨key, numbers⟩, hnumbers, hx⟩ := List.mem_flatMap.mp listed
      obtain ⟨x, _, rfl⟩ := List.mem_map.mp hx
      exact absurd rfl (RuleKinds.result_ne_number result (kinds.extended key numbers hnumbers))
  · rintro ⟨hword, plain⟩
    refine .inl (List.mem_map.mpr ⟨_, hword, ?_⟩)
    obtain ⟨key, data, extended⟩ := e
    cases plain
    rfl

end AccessRules

/-! ### What type rules bring -/

namespace Lowering

variable {l : Lowering} {location : Location} {base : AccessRules} {key : AccessKey} {word : BitVec 32}

/-- The word of a result type. -/
def resultWord? (l : Lowering) (result : Id) : Option (BitVec 32) :=
  (l.typeValue? result).map (BitVec.ofNat 32)

/-- The rule is a type rule, and gives the key the word of its result. -/
def Results (l : Lowering) (rule : Rule) (key : AccessKey) (word : BitVec 32) : Prop :=
  match rule with
  | .type kind source target cls result =>
    (∃ s t, l.db.Aims source target s t ∧ l.types.value? s = some key.source.toNat ∧
      l.types.value? t = some key.target.toNat) ∧
    l.classes.value? cls = some key.cls.toNat ∧ kind.kinds = key.kinds ∧
    l.resultWord? result = some word
  | _ => False

/-- The key has the word, in the base or in the rules. -/
def Has (base r : AccessRules) (key : AccessKey) (word : BitVec 32) : Prop :=
  (base.word? key).or (r.word? key) = some word

theorem eq_accessKey_iff {pair : Nat × Nat} {cls : Id} {kinds : RuleKinds} {key' : AccessKey}
    (h : l.accessKey location pair cls kinds = .ok key') :
    key = key' ↔ pair = (key.source.toNat, key.target.toNat) ∧
      l.classes.value? cls = some key.cls.toNat ∧ kinds = key.kinds := by
  obtain ⟨source, target, hcls, hkinds⟩ := accessKey_ok h
  constructor
  · rintro rfl
    exact ⟨Prod.ext source.symm target.symm, hcls, hkinds.symm⟩
  · rintro ⟨rfl, hcls', rfl⟩
    exact AccessKey.ext_toNat source.symm target.symm (Option.some.inj (hcls'.symm.trans hcls)) hkinds.symm

/-- The result for a pair gives its key the word, or finds it there. -/
theorem addResult_iff {kind : TypeRuleKind} {cls : Id} {result : Nat} (rules : AccessRules)
    (pair : Nat × Nat)
    (done : (l.addResult base location kind cls result rules pair).fault? = none) :
    Has base (l.addResult base location kind cls result rules pair).table key word ↔
      Has base rules key word ∨ ((pair = (key.source.toNat, key.target.toNat) ∧
        l.classes.value? cls = some key.cls.toNat ∧ kind.kinds = key.kinds) ∧
        BitVec.ofNat 32 result = word) := by
  rw [addResult] at done ⊢
  split at done
  · cases done
  rename_i key' hkey
  rw [← eq_accessKey_iff hkey]
  dsimp only at done ⊢
  cases hword : (base.word? key').or (rules.word? key') with
  | none =>
    obtain ⟨unbased, fresh⟩ := Option.or_eq_none_iff.mp hword
    simp only [Has, Step.done, AccessRules.word?_setResult fresh]
    by_cases same : key = key'
    · subst same
      simp [unbased, fresh]
    · simp [same]
  | some existing =>
    simp only [hword] at done ⊢
    split
    · rename_i agrees
      have result : BitVec.ofNat 32 result = existing := agrees.symm
      by_cases same : key = key'
      · subst same
        simp [Has, hword, result]
      · simp [same]
    · rename_i differs
      rw [if_neg differs] at done
      cases done

theorem mem_concretePairs (evaluated : l.db.Evaluated) {source : Id} {target : RuleTarget}
    {pair : Nat × Nat} :
    pair ∈ l.concretePairs source target ↔ ∃ s t, l.db.Aims source target s t ∧
      l.types.value? s = some pair.1 ∧ l.types.value? t = some pair.2 := by
  cases target with
  | type target =>
    simp only [concretePairs, pairsWith, List.mem_flatMap, List.mem_map, mem_concreteTypes evaluated,
      EvaluatedDatabase.Aims]
    constructor
    · rintro ⟨v, ⟨s, hs, hv⟩, w, ⟨t, ht, hw⟩, rfl⟩
      exact ⟨s, t, ⟨hs, ht⟩, hv, hw⟩
    · rintro ⟨s, t, ⟨hs, ht⟩, hv, hw⟩
      exact ⟨pair.1, ⟨s, hs, hv⟩, pair.2, ⟨t, ht, hw⟩, rfl⟩
  | self =>
    simp only [concretePairs, pairsWith, List.mem_map, mem_concreteTypes evaluated,
      EvaluatedDatabase.Aims]
    constructor
    · rintro ⟨v, ⟨s, hs, hv⟩, rfl⟩
      exact ⟨s, s, ⟨hs, rfl⟩, hv, hv⟩
    · rintro ⟨s, t, ⟨hs, rfl⟩, hv, hw⟩
      exact ⟨pair.1, ⟨t, hs, hv⟩, Prod.ext rfl (Option.some.inj (hv.symm.trans hw))⟩

/-- A type rule gives its keys the word of its result. -/
theorem addTypeRule_iff (evaluated : l.db.Evaluated) {t : RuleTables} {kind : TypeRuleKind} {source : Id}
    {target : RuleTarget} {cls result : Id}
    (done : (l.addTypeRule base t location kind source target cls result).fault? = none) :
    Has base (l.addTypeRule base t location kind source target cls result).table.access key word ↔
      Has base t.access key word ∨ l.Results (.type kind source target cls result) key word := by
  rw [addTypeRule] at done ⊢
  split at done
  · cases done
  rename_i value hvalue
  refine (Step.each_iff (fun r => Has base r key word) addResult_iff done).trans ?_
  refine or_congr_right ?_
  simp only [mem_concretePairs evaluated, Results, resultWord?, hvalue, Option.map_some,
    Option.some.injEq]
  constructor
  · rintro ⟨pair, aims, ⟨rfl, hcls, hkinds⟩, hword⟩
    exact ⟨aims, hcls, hkinds, hword⟩
  · rintro ⟨aims, hcls, hkinds, hword⟩
    exact ⟨_, aims, ⟨rfl, hcls, hkinds⟩, hword⟩

/-- Permissions leave the results as they are. -/
theorem addAccess_word? (result : key.kinds ∈ RuleKinds.resultKinds) {t : RuleTables} {kind : AccessKind}
    {source : Id} {target : RuleTarget} {permissions : ClassPerms Id} :
    (l.addAccess t location kind source target permissions).table.access.word? key =
      t.access.word? key := by
  refine addAccess_keeps (fun r => r.word? key = t.access.word? key) ?_ rfl
  intro r key' word grants same
  have other : key ≠ key' := fun heq => RuleKinds.result_ne_vector result grants.vector (heq ▸ rfl)
  exact (AccessRules.word?_grant other _).trans same

theorem addRule_results (evaluated : l.db.Evaluated) (result : key.kinds ∈ RuleKinds.resultKinds)
    {t : RuleTables} {r : PlacedRule} (done : (l.addRule t r).fault? = none) :
    Has {} (l.addRule t r).table.access key word ↔
      Has {} t.access key word ∨ l.Results r.rule key word := by
  rw [addRule_access]
  rw [addRule] at done
  cases hrule : r.rule with
  | access kind source target permissions =>
    simp only [Results, or_false, Has, addAccess_word? result]
  | extended kind source target permissions =>
    simp only [Results, or_false, Has, AccessRules.word?, addExtended_words]
  | type kind source target cls value =>
    rw [hrule] at done
    exact addTypeRule_iff evaluated done
  | _ => simp only [Results, or_false]

theorem addArmRule_results (evaluated : l.db.Evaluated) (result : key.kinds ∈ RuleKinds.resultKinds)
    {t : RuleTables} {r : PlacedRule} (done : (l.addArmRule base t r).fault? = none) :
    Has base (l.addArmRule base t r).table.access key word ↔
      Has base t.access key word ∨ l.Results r.rule key word := by
  rw [addArmRule] at done ⊢
  split at done
  · rename_i hrule
    simp only [hrule, Results, or_false, Has, addAccess_word? result]
  · rename_i hrule
    simp only [hrule]
    exact addTypeRule_iff evaluated done
  · cases done
  · cases done

/-! ### Keys with a result -/

theorem addAccess_resultsFit {t : RuleTables} (fit : AccessRules.ResultsFit base t.access)
    {kind : AccessKind} {source : Id} {target : RuleTarget} {permissions : ClassPerms Id} :
    AccessRules.ResultsFit base
      (l.addAccess t location kind source target permissions).table.access :=
  addAccess_keeps (AccessRules.ResultsFit base)
    (fun _ _ word grants held => held.grant word grants.vector) fit

/-- A result is set only where neither the base nor the rules have one. -/
theorem addTypeRule_resultsFit {t : RuleTables} (fit : AccessRules.ResultsFit base t.access)
    {kind : TypeRuleKind} {source : Id} {target : RuleTarget} {cls result : Id} :
    AccessRules.ResultsFit base
      (l.addTypeRule base t location kind source target cls result).table.access :=
  addTypeRule_keeps (AccessRules.ResultsFit base)
    (fun _ _ value _ unbased fresh held => held.setResult value fresh unbased) fit

theorem addRule_resultsFit {t : RuleTables} {r : PlacedRule} (fit : AccessRules.ResultsFit {} t.access) :
    AccessRules.ResultsFit {} (l.addRule t r).table.access := by
  rw [addRule_access]
  cases r.rule with
  | access kind source target permissions => exact addAccess_resultsFit fit
  | extended kind source target permissions =>
    intro key word result listed
    rw [addExtended_words] at listed
    rw [AccessRules.word?, addExtended_words]
    exact fit key word result listed
  | type kind source target cls result => exact addTypeRule_resultsFit fit
  | _ => exact fit

theorem addArmRule_resultsFit {t : RuleTables} {r : PlacedRule}
    (fit : AccessRules.ResultsFit base t.access) :
    AccessRules.ResultsFit base (l.addArmRule base t r).table.access := by
  rw [addArmRule]
  split
  · exact addAccess_resultsFit fit
  · exact addTypeRule_resultsFit fit
  · exact fit
  · exact fit

/-! ### Places -/

/-- The rules with which the type rules of a place are compared, beside those of the
place. -/
def baseAt (l : Lowering) : RulePlace → AccessRules
  | .top => {}
  | .arm _ _ => l.rules.table.access

theorem resultsFit_accessAt (place : RulePlace) :
    AccessRules.ResultsFit (l.baseAt place) (l.accessAt place) := by
  cases place with
  | top =>
    exact Step.gather_invariant (fun t : RuleTables => AccessRules.ResultsFit {} t.access)
      (fun _ _ => addRule_resultsFit) (AccessRules.resultsFit_empty {})
  | arm i value =>
    rw [accessAt]
    cases l.db.conditionals[i]? with
    | none => exact AccessRules.resultsFit_empty _
    | some c =>
      exact Step.gather_invariant
        (fun t : RuleTables => AccessRules.ResultsFit l.rules.table.access t.access)
        (fun _ _ => addArmRule_resultsFit) (AccessRules.resultsFit_empty _)

variable {k : KernelPolicy}

/-- The words of result types come from the base or from the type rules of the place. -/
theorem Built.has_iff (built : l.Built k) (evaluated : l.db.Evaluated)
    (result : key.kinds ∈ RuleKinds.resultKinds) (place : RulePlace) :
    Has (l.baseAt place) (l.accessAt place) key word ↔
      (l.baseAt place).word? key = some word ∨ ∃ r ∈ l.db.rulesAt place, l.Results r.rule key word := by
  have start : ∀ base : AccessRules, Has base {} key word ↔ base.word? key = some word := by
    intro base
    rw [Has, show ({} : AccessRules).word? key = none from rfl, Option.or_none]
  cases place with
  | top =>
    refine (Step.gather_iff (fun t => Has {} t.access key word)
      (fun t r _ done => addRule_results evaluated result done) built.rulesDone).trans ?_
    rw [start]
    rfl
  | arm i value =>
    rw [accessAt, Database.rulesAt]
    rcases forall₂_getElem? built.nodes i with ⟨none, _⟩ | ⟨c, node, hc, _, leads⟩
    · simp [none, start]
    · simp only [hc, Option.map_some, Option.getD_some]
      refine (Step.gather_iff (fun t => Has l.rules.table.access t.access key word)
        (fun t r _ done => addArmRule_results evaluated result done) (leads.done value)).trans ?_
      rw [start]
      rfl

/-- The entries of a place that have a result type. -/
theorem Built.mem_entriesAt_iff (built : l.Built k) (place : RulePlace) {e : AccessEntry}
    (result : e.key.kinds ∈ RuleKinds.resultKinds) :
    e ∈ k.entriesAt place ↔
      (l.accessAt place).word? e.key = some e.datum.data ∧ e.datum.extended = none := by
  rw [built.mem_entriesAt]
  exact (resultsFit_accessAt place).mem_toEntries_iff (accessAt_kindsFit place) result

theorem Built.word?_iff (built : l.Built k) (evaluated : l.db.Evaluated)
    (result : key.kinds ∈ RuleKinds.resultKinds) (place : RulePlace) :
    (l.accessAt place).word? key = some word ↔
      (l.baseAt place).word? key = none ∧ ∃ r ∈ l.db.rulesAt place, l.Results r.rule key word := by
  have fit := resultsFit_accessAt (l := l) place
  have has : Has (l.baseAt place) (l.accessAt place) key word ↔ _ :=
    built.has_iff evaluated result place
  constructor
  · intro found
    obtain ⟨_, unbased⟩ := fit key word result ((fit.word?_iff result).mp found)
    rw [Has, unbased, Option.none_or] at has
    exact ⟨unbased, by simpa using has.mp found⟩
  · rintro ⟨unbased, brought⟩
    have found := has.mpr (.inr brought)
    rwa [Has, unbased, Option.none_or] at found

/-! ### Rules that disagree -/

/-- The two are type rules of one kind and class, speak of some pair of types in common
and give different results. -/
def Disagree (l : Lowering) (r r' : Rule) : Prop :=
  match r, r' with
  | .type kind source target cls result, .type kind' source' target' cls' result' =>
    kind = kind' ∧ cls = cls' ∧
      (∃ s t, l.db.Aims source target s t ∧ l.db.Aims source' target' s t) ∧
      l.resultWord? result ≠ l.resultWord? result'
  | _, _ => False

theorem disagree_of_results {r r' : Rule} {word' : BitVec 32} (h : l.Results r key word)
    (h' : l.Results r' key word') (differ : word ≠ word') : l.Disagree r r' := by
  cases r with
  | type kind source target cls result =>
    cases r' with
    | type kind' source' target' cls' result' =>
      obtain ⟨⟨s, t, aims, hs, ht⟩, hcls, hkinds, hword⟩ := h
      obtain ⟨⟨s', t', aims', hs', ht'⟩, hcls', hkinds', hword'⟩ := h'
      cases Numbering.value?_injective hs hs'
      cases Numbering.value?_injective ht ht'
      refine ⟨TypeRuleKind.kinds_injective (hkinds.trans hkinds'.symm),
        Numbering.value?_injective hcls hcls', ⟨s, t, aims, aims'⟩, ?_⟩
      rw [hword, hword']
      exact fun same => differ (Option.some.inj same)
    | _ => exact False.elim h'
  | _ => exact False.elim h

theorem keys_of_done {t : RuleTables} {kind : TypeRuleKind} {source : Id} {target : RuleTarget}
    {cls result : Id}
    (done : (l.addTypeRule base t location kind source target cls result).fault? = none) :
    (∃ word, l.resultWord? result = some word) ∧ ∀ pair ∈ l.concretePairs source target,
      ∃ key, l.accessKey location pair cls kind.kinds = .ok key := by
  rw [addTypeRule] at done
  split at done
  · cases done
  · rename_i value hvalue
    refine ⟨⟨_, by rw [resultWord?, hvalue, Option.map_some]⟩, ?_⟩
    intro pair hpair
    have each : (Step.each (l.addResult base location kind cls value) t.access
      (l.concretePairs source target)).fault? = none := done
    obtain ⟨rules, done⟩ := Step.each_done each pair hpair
    rw [addResult] at done
    split at done
    · cases done
    · rename_i key hkey
      exact ⟨key, hkey⟩

/-- Every type rule was added without a fault. -/
theorem Built.typeRule_done (built : l.Built k) {place : RulePlace} {r : PlacedRule}
    (hr : r ∈ l.db.rulesAt place) {kind : TypeRuleKind} {source : Id} {target : RuleTarget}
    {cls result : Id} (hrule : r.rule = .type kind source target cls result) :
    ∃ base t, (l.addTypeRule base t r.location kind source target cls result).fault? = none := by
  cases place with
  | top =>
    obtain ⟨t, done⟩ := Step.gather_done built.rulesDone r hr
    rw [addRule, hrule] at done
    exact ⟨{}, t, done⟩
  | arm i value =>
    rw [Database.rulesAt] at hr
    rcases forall₂_getElem? built.nodes i with ⟨none, _⟩ | ⟨c, node, hc, _, leads⟩
    · simp [none] at hr
    · rw [hc] at hr
      obtain ⟨t, done⟩ := Step.gather_done (leads.done value) r hr
      rw [addArmRule, hrule] at done
      exact ⟨l.rules.table.access, t, done⟩

/-- Rules that disagree give some key different words. -/
theorem Built.results_of_disagree (built : l.Built k) (numbered : l.Numbered)
    (evaluated : l.db.Evaluated) {p q : RulePlace} {r r' : PlacedRule} (hr : r ∈ l.db.rulesAt p)
    (hr' : r' ∈ l.db.rulesAt q) (disagree : l.Disagree r.rule r'.rule) :
    ∃ key word word', key.kinds ∈ RuleKinds.resultKinds ∧ l.Results r.rule key word ∧
      l.Results r'.rule key word' ∧ word ≠ word' := by
  unfold Disagree at disagree
  split at disagree
  · rename_i kind source target cls result kind' source' target' cls' result' hrule hrule'
    obtain ⟨rfl, rfl, ⟨s, t, aims, aims'⟩, differ⟩ := disagree
    obtain ⟨_, _, done⟩ := built.typeRule_done hr hrule
    obtain ⟨_, _, done'⟩ := built.typeRule_done hr' hrule'
    obtain ⟨⟨word, hword⟩, keys⟩ := keys_of_done done
    obtain ⟨⟨word', hword'⟩, _⟩ := keys_of_done done'
    obtain ⟨concrete, concrete'⟩ := evaluated.concrete_of_aims aims
    obtain ⟨sv, hs⟩ := numbered.exists_typeValue concrete
    obtain ⟨tv, ht⟩ := numbered.exists_typeValue concrete'
    obtain ⟨key, hkey⟩ := keys (sv, tv) ((mem_concretePairs evaluated).mpr ⟨s, t, aims, hs, ht⟩)
    obtain ⟨hsource, htarget, hcls, hkinds⟩ := accessKey_ok hkey
    have hs : l.types.value? s = some key.source.toNat := hsource ▸ hs
    have ht : l.types.value? t = some key.target.toNat := htarget ▸ ht
    refine ⟨key, word, word', hkinds ▸ kind.kinds_result, ?_, ?_, ?_⟩
    · rw [hrule]
      exact ⟨⟨s, t, aims, hs, ht⟩, hcls, hkinds.symm, hword⟩
    · rw [hrule']
      exact ⟨⟨s, t, aims', hs, ht⟩, hcls, hkinds.symm, hword'⟩
    · rintro rfl
      exact differ (hword.trans hword'.symm)
  · cases disagree

end Lowering

/-! ### Entries in force -/

namespace KernelPolicy

/-- The place counts under the state of the booleans: the rules outside conditionals
always do, and of each conditional the arm of its value. -/
def InForce (k : KernelPolicy) (state : Nat → Bool) : RulePlace → Prop
  | .top => True
  | .arm i value =>
    (k.conditionals[i]?.map fun node => evalCondition node.condition state == some true) = some value

instance (k : KernelPolicy) (state : Nat → Bool) : (place : RulePlace) → Decidable (k.InForce state place)
  | .top => isTrue trivial
  | .arm _ _ => inferInstanceAs (Decidable (_ = _))

/-- An entry of one place and an entry of the other have one key and different results. -/
def Contradict (k : KernelPolicy) (p q : RulePlace) : Prop :=
  ∃ e ∈ k.entriesAt p, ∃ f ∈ k.entriesAt q, e.key = f.key ∧
    e.key.kinds ∈ RuleKinds.resultKinds ∧ e.datum.data ≠ f.datum.data

instance (k : KernelPolicy) (p q : RulePlace) : Decidable (k.Contradict p q) :=
  inferInstanceAs (Decidable (∃ e ∈ k.entriesAt p, ∃ f ∈ k.entriesAt q, _))

end KernelPolicy

namespace Lowering

variable {l : Lowering} {k : KernelPolicy}

theorem Built.contradict_iff (built : l.Built k) {p q : RulePlace} :
    k.Contradict p q ↔ ∃ key word word', key.kinds ∈ RuleKinds.resultKinds ∧
      (l.accessAt p).word? key = some word ∧ (l.accessAt q).word? key = some word' ∧ word ≠ word' := by
  constructor
  · rintro ⟨e, he, f, hf, same, result, differ⟩
    obtain ⟨found, _⟩ := (built.mem_entriesAt_iff p result).mp he
    obtain ⟨found', _⟩ := (built.mem_entriesAt_iff q (same ▸ result)).mp hf
    exact ⟨e.key, _, _, result, found, same ▸ found', differ⟩
  · rintro ⟨key, word, word', result, found, found', differ⟩
    refine ⟨⟨key, .ofWord word⟩, ?_, ⟨key, .ofWord word'⟩, ?_, rfl, result, differ⟩
    · exact (built.mem_entriesAt_iff p result).mpr ⟨found, rfl⟩
    · exact (built.mem_entriesAt_iff q result).mpr ⟨found', rfl⟩

/-- An arm has no result for a key that the rules outside conditionals have. -/
theorem word?_top_of_arm {i : Nat} {value : Bool} {key : AccessKey} {word : BitVec 32}
    (result : key.kinds ∈ RuleKinds.resultKinds)
    (found : (l.accessAt (.arm i value)).word? key = some word) :
    (l.accessAt .top).word? key = none := by
  have fit := resultsFit_accessAt (l := l) (.arm i value)
  exact (fit key word result ((fit.word?_iff result).mp found)).2

/-- Two places in force that contradict each other are arms of two conditionals. -/
theorem Built.arms_of_contradict (built : l.Built k) {state : Nat → Bool} {p q : RulePlace}
    (hp : k.InForce state p) (hq : k.InForce state q) (contradict : k.Contradict p q) :
    ∃ i v j w, p = .arm i v ∧ q = .arm j w ∧ i ≠ j := by
  obtain ⟨key, word, word', result, found, found', differ⟩ := built.contradict_iff.mp contradict
  cases p with
  | top =>
    cases q with
    | top => exact absurd (Option.some.inj (found.symm.trans found')) differ
    | arm j w =>
      rw [word?_top_of_arm result found'] at found
      cases found
  | arm i v =>
    cases q with
    | top =>
      rw [word?_top_of_arm result found] at found'
      cases found'
    | arm j w =>
      refine ⟨i, v, j, w, rfl, rfl, ?_⟩
      rintro rfl
      -- A conditional has one arm in force, and the entries of one arm agree.
      cases Option.some.inj (hp.symm.trans hq)
      exact differ (Option.some.inj (found.symm.trans found'))

/-- Arms contradict each other when they have rules that disagree, since the rules
outside conditionals cannot agree with both. -/
theorem Built.contradict_of_disagree (built : l.Built k) (numbered : l.Numbered)
    (evaluated : l.db.Evaluated) {i j : Nat} {v w : Bool} {r r' : PlacedRule}
    (hr : r ∈ l.db.rulesAt (.arm i v)) (hr' : r' ∈ l.db.rulesAt (.arm j w))
    (disagree : l.Disagree r.rule r'.rule) : k.Contradict (.arm i v) (.arm j w) := by
  obtain ⟨key, word, word', result, brings, brings', differ⟩ :=
    built.results_of_disagree numbered evaluated hr hr' disagree
  have has := (built.has_iff evaluated result (.arm i v)).mpr (.inr ⟨r, hr, brings⟩)
  have has' := (built.has_iff evaluated result (.arm j w)).mpr (.inr ⟨r', hr', brings'⟩)
  have unbased : l.rules.table.access.word? key = none := by
    cases based : l.rules.table.access.word? key with
    | none => rfl
    | some old =>
      rw [Has, baseAt, based] at has has'
      exact absurd (Option.some.inj (has.symm.trans has')) differ
  refine built.contradict_iff.mpr ⟨key, word, word', result, ?_, ?_, differ⟩
  · exact (built.word?_iff evaluated result _).mpr ⟨unbased, r, hr, brings⟩
  · exact (built.word?_iff evaluated result _).mpr ⟨unbased, r', hr', brings'⟩

end Lowering

namespace EvaluatedDatabase

variable {db : EvaluatedDatabase} {settings : Settings} {options : LoweringOptions} {k : KernelPolicy}

/-- Under any state of the booleans, entries in force contradict each other exactly when
two different conditionals have, in their arms in force, type rules that disagree. -/
theorem contradict_iff_disagree (verified : db.Verified)
    (run : (db.lower settings options).outcome.1 = .ok k) (state : Nat → Bool) {p q : RulePlace}
    (hp : k.InForce state p) (hq : k.InForce state q) :
    k.Contradict p q ↔ (∃ i v j w, p = .arm i v ∧ q = .arm j w ∧ i ≠ j) ∧
      ∃ r ∈ db.rulesAt p, ∃ r' ∈ db.rulesAt q,
        (Lowering.new db settings options).Disagree r.rule r'.rule := by
  have built := built_of_lower run
  have numbered := Lowering.numbered_new db settings options
  have evaluated := verified.passed.evaluated
  constructor
  · intro contradict
    refine ⟨built.arms_of_contradict hp hq contradict, ?_⟩
    obtain ⟨key, word, word', result, found, found', differ⟩ := built.contradict_iff.mp contradict
    obtain ⟨_, r, hr, brings⟩ := (built.word?_iff evaluated result p).mp found
    obtain ⟨_, r', hr', brings'⟩ := (built.word?_iff evaluated result q).mp found'
    exact ⟨r, hr, r', hr', Lowering.disagree_of_results brings brings' differ⟩
  · rintro ⟨⟨i, v, j, w, rfl, rfl, _⟩, r, hr, r', hr', disagree⟩
    exact built.contradict_of_disagree numbered evaluated hr hr' disagree

/-- Two conditionals that give the same pair of types different results. -/
def contradictingPolicy : List Statement :=
  let arm (result : String) : List Branch :=
    [.mk {} .whenTrue [.plain {} (.typeRule .transition "a" "b" "file" result)]]
  smallPolicy [.plain {} (.access .allow "a" "b" (.given "file" (.list [.item "read"]))),
    .plain {} (.boolean "x" true), .plain {} (.boolean "y" true),
    .conditional {} (.item "x") (arm "a"), .conditional {} (.item "y") (arm "b")]

theorem contradictingPolicy_lowers : lowersTo contradictingPolicy {} (fun _ _ k =>
    decide (k.InForce (fun _ => true) (.arm 0 true)) &&
    decide (k.InForce (fun _ => true) (.arm 1 true)) &&
    decide (k.Contradict (.arm 0 true) (.arm 1 true))) = true := by
  decide +kernel

/-- A small policy is lowered although its two conditionals contradict each other when both
booleans are true; the rules that do so are in their arms. -/
theorem contradiction_lowered : ∃ db settings k, Verified db ∧
    (db.lower settings {}).outcome.1 = .ok k ∧ k.InForce (fun _ => true) (.arm 0 true) ∧
    k.InForce (fun _ => true) (.arm 1 true) ∧ k.Contradict (.arm 0 true) (.arm 1 true) ∧
    ∃ r ∈ db.rulesAt (.arm 0 true), ∃ r' ∈ db.rulesAt (.arm 1 true),
      (Lowering.new db settings {}).Disagree r.rule r'.rule := by
  obtain ⟨db, settings, k, verified, run, tested⟩ := exists_lowered contradictingPolicy_lowers
  simp only [Bool.and_eq_true, decide_eq_true_eq] at tested
  obtain ⟨⟨first, second⟩, contradict⟩ := tested
  obtain ⟨_, disagree⟩ := (contradict_iff_disagree verified run _ first second).mp contradict
  exact ⟨db, settings, k, verified, run, first, second, contradict, disagree⟩

end EvaluatedDatabase

end CilPolicy
