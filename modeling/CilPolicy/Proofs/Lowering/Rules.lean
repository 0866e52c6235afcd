import CilPolicy.Lowering.Rules
import CilPolicy.Proofs.Lowering.AccessRules
import CilPolicy.Proofs.Lowering.Numbering
import CilPolicy.Proofs.Lowering.Permissions
import CilPolicy.Proofs.Lowering.Step

/-!
# What lowered rules mark

An access is a pair of concrete types, a kernel class and a permission. A rule states
an access when its expansions have the types and the permission; a key speaks of an
access when its values cover the types and name the class. Adding a rule makes the
table mark exactly the accesses that the rule states, and no other rule adds any. Every rule
changes its own tables only, and keeps there what each of its single additions keeps.
-/

namespace CilPolicy

/-- Two concrete types, a kernel class and the number of one of its permissions. -/
structure Access where
  source : Id
  target : Id
  cls : Id
  permission : Nat

/-- The rule is an access rule of the kind, and the access is one of those that it
expands to. -/
def EvaluatedDatabase.States (db : EvaluatedDatabase) (kind : AccessKind) (rule : Rule) (a : Access) :
    Prop :=
  match rule with
  | .access k source target permissions =>
    k = kind ∧ db.Aims source target a.source a.target ∧
      db.StandsFor permissions a.cls a.permission
  | _ => False

theorem AccessKind.kinds?_injective {a b : AccessKind} {kinds : RuleKinds} (ha : a.kinds? = some kinds)
    (hb : b.kinds? = some kinds) : a = b := by
  cases a <;> cases b <;> cases ha <;> first | rfl | cases hb

theorem AccessKind.kinds?_vector {kind : AccessKind} {kinds : RuleKinds}
    (h : kind.kinds? = some kinds) : kinds ∈ RuleKinds.vectorKinds := by
  cases kind <;> cases h <;> simp [RuleKinds.vectorKinds]

theorem AccessKind.extendedKinds?_number {kind : AccessKind} {kinds : RuleKinds}
    (h : kind.extendedKinds? = some kinds) : kinds ∈ RuleKinds.numberKinds := by
  cases kind <;> cases h <;> simp [RuleKinds.numberKinds]

theorem TypeRuleKind.kinds_result (kind : TypeRuleKind) : kind.kinds ∈ RuleKinds.resultKinds := by
  cases kind <;> simp [kinds, RuleKinds.resultKinds]

theorem TypeRuleKind.kinds_injective {a b : TypeRuleKind} (h : a.kinds = b.kinds) : a = b := by
  cases a <;> cases b <;> first | rfl | cases h

namespace Lowering

variable {l : Lowering} {location : Location}

theorem narrow_ok {field : KeyField} {value : Nat} {n : UInt16}
    (h : narrow location field value = .ok n) : n.toNat = value := by
  rw [narrow] at h
  split at h
  · rename_i fits
    cases h
    rw [UInt16.toNat_ofNat']
    exact Nat.mod_eq_of_lt fits
  · cases h

/-- A key has the values of its pair and of its class. -/
theorem accessKey_ok {pair : Nat × Nat} {cls : Id} {kinds : RuleKinds} {key : AccessKey}
    (h : l.accessKey location pair cls kinds = .ok key) :
    key.source.toNat = pair.1 ∧ key.target.toNat = pair.2 ∧
      l.classes.value? cls = some key.cls.toNat ∧ key.kinds = kinds := by
  rw [accessKey] at h
  split at h
  · cases h
  · rename_i value hvalue
    obtain ⟨source, hsource, h⟩ := bind_eq_ok.mp h
    obtain ⟨target, htarget, h⟩ := bind_eq_ok.mp h
    obtain ⟨number, hnumber, h⟩ := bind_eq_ok.mp h
    cases h
    exact ⟨narrow_ok hsource, narrow_ok htarget, by rw [hvalue, narrow_ok hnumber], rfl⟩

/-- The key's values cover the types of the access, and its class is that of the access. -/
structure Speaks (l : Lowering) (key : AccessKey) (a : Access) : Prop where
  source : l.Covers key.source.toNat a.source
  target : l.Covers key.target.toNat a.target
  cls : l.classes.value? a.cls = some key.cls.toNat

/-- Some key of the kinds speaks of the access, and its word marks the permission. -/
def Marks (l : Lowering) (r : AccessRules) (kinds : RuleKinds) (a : Access) : Prop :=
  ∃ key, key.kinds = kinds ∧ l.Speaks key a ∧ r.Marks key a.permission

theorem not_marks_empty {kinds : RuleKinds} {a : Access} : ¬ l.Marks {} kinds a := by
  rintro ⟨_, _, _, h⟩
  exact AccessRules.not_marks_empty h

/-! ### What a rule leaves alone -/

section Frames

variable (l : Lowering) (t : RuleTables) (location : Location)

theorem addAccess_only (kind : AccessKind) (source : Id) (target : RuleTarget) (permissions : ClassPerms Id) :
    ∃ access neverAllows,
      (l.addAccess t location kind source target permissions).table = { t with access, neverAllows } := by
  unfold addAccess
  dsimp only
  split
  · exact ⟨t.access, _, rfl⟩
  · exact ⟨_, t.neverAllows, rfl⟩

theorem addExtended_only (kind : AccessKind) (source : Id) (target : RuleTarget)
    (permissions : ExtendedArg Id BitSet) : ∃ access neverAllows,
      (l.addExtended t location kind source target permissions).table = { t with access, neverAllows } := by
  rw [addExtended]
  split
  · exact ⟨t.access, t.neverAllows, rfl⟩
  · exact ⟨t.access, _, rfl⟩
  · split
    · exact ⟨t.access, t.neverAllows, rfl⟩
    · exact ⟨_, t.neverAllows, rfl⟩

theorem addTypeRule_only (base : AccessRules) (kind : TypeRuleKind) (source : Id) (target : RuleTarget)
    (cls result : Id) : ∃ access,
      (l.addTypeRule base t location kind source target cls result).table = { t with access } := by
  rw [addTypeRule]
  split
  · exact ⟨t.access, rfl⟩
  · exact ⟨_, rfl⟩

theorem addNamedTransition_only (source : Id) (target : RuleTarget) (cls : Id) (name : String) (result : Id) :
    ∃ named, (l.addNamedTransition t location source target cls name result).table = { t with named } := by
  rw [addNamedTransition]
  split
  · exact ⟨_, rfl⟩
  · split
    · exact ⟨_, rfl⟩
    · exact ⟨_, rfl⟩

theorem addRoleTransition_only (source target cls result : Id) : ∃ roleTransitions,
    (l.addRoleTransition t location source target cls result).table = { t with roleTransitions } := by
  rw [addRoleTransition]
  split
  · exact ⟨_, rfl⟩
  · exact ⟨_, rfl⟩

theorem addRangeTransition_only (source target cls : Id) (range : RangeArg Id) : ∃ rangeTransitions,
    (l.addRangeTransition t location source target cls range).table = { t with rangeTransitions } := by
  rw [addRangeTransition]
  split
  · exact ⟨_, rfl⟩
  · split
    · exact ⟨_, rfl⟩
    · exact ⟨_, rfl⟩

end Frames

/-! ### What a rule keeps -/

/-- By the access rule, the word is granted under the key. -/
def Grants (l : Lowering) (location : Location) (kind : AccessKind) (source : Id) (target : RuleTarget)
    (permissions : ClassPerms Id) (key : AccessKey) (word : BitVec 32) : Prop :=
  ∃ pair ∈ l.rulePairs source target, ∃ g ∈ l.db.grants permissions, g.word = word ∧ word ≠ 0 ∧
    ∃ kinds, kind.kinds? = some kinds ∧ l.accessKey location pair g.cls kinds = .ok key

/-- By the rule on extended permissions, the numbers are added under the key. -/
def Extends (l : Lowering) (location : Location) (kind : AccessKind) (source : Id) (target : RuleTarget)
    (permissions : ExtendedArg Id BitSet) (key : AccessKey) (numbers : BitSet) : Prop :=
  l.options.version.supports .extendedPermissions = true ∧ ∃ pair ∈ l.rulePairs source target, ∃ spec kinds,
    l.db.extendedSpec? permissions = some spec ∧ spec.numbers = numbers ∧
      kind.extendedKinds? = some kinds ∧ l.accessKey location pair spec.cls kinds = .ok key

/-- By the type rule, the key has the result. -/
def Sets (l : Lowering) (location : Location) (kind : TypeRuleKind) (source : Id) (target : RuleTarget)
    (cls result : Id) (key : AccessKey) (value : Nat) : Prop :=
  l.typeValue? result = some value ∧
    ∃ pair ∈ l.concretePairs source target, l.accessKey location pair cls kind.kinds = .ok key

section Keeps

variable {t : RuleTables} {base : AccessRules} {kind : AccessKind} {source : Id} {target : RuleTarget}
  {permissions : ClassPerms Id} {extended : ExtendedArg Id BitSet} {key : AccessKey}

theorem Grants.vector {word : BitVec 32} (grants : l.Grants location kind source target permissions key word) :
    key.kinds ∈ RuleKinds.vectorKinds := by
  obtain ⟨_, _, _, _, _, _, kinds, hkinds, hkey⟩ := grants
  obtain ⟨_, _, _, same⟩ := accessKey_ok hkey
  exact same ▸ AccessKind.kinds?_vector hkinds

theorem Extends.number {numbers : BitSet}
    (added : l.Extends location kind source target extended key numbers) :
    key.kinds ∈ RuleKinds.numberKinds := by
  obtain ⟨_, _, _, _, kinds, _, _, hkinds, hkey⟩ := added
  obtain ⟨_, _, _, same⟩ := accessKey_ok hkey
  exact same ▸ AccessKind.extendedKinds?_number hkinds

theorem Sets.result {kind : TypeRuleKind} {cls result : Id} {value : Nat}
    (sets : l.Sets location kind source target cls result key value) : key.kinds ∈ RuleKinds.resultKinds := by
  obtain ⟨_, _, _, hkey⟩ := sets
  obtain ⟨_, _, _, same⟩ := accessKey_ok hkey
  exact same ▸ kind.kinds_result

variable (inv : AccessRules → Prop)

/-- An access rule keeps what each of its grants keeps. -/
theorem addAccess_keeps (keeps : ∀ r key word,
      l.Grants location kind source target permissions key word → inv r → inv (r.grant key word))
    (held : inv t.access) :
    inv (l.addAccess t location kind source target permissions).table.access := by
  unfold addAccess
  dsimp only
  split
  · exact held
  · rename_i kinds hkinds
    refine Step.each_keeps inv (fun r item hitem held => ?_) held
    obtain ⟨pair, hpair, hitem⟩ := List.mem_flatMap.mp hitem
    obtain ⟨g, hg, rfl⟩ := List.mem_map.mp hitem
    obtain ⟨granted, nonzero⟩ := List.mem_filter.mp hg
    rw [Lowering.addGrant]
    split
    · exact held
    · rename_i key hkey
      exact keeps r key g.word
        ⟨pair, hpair, g, granted, rfl, bne_iff_ne.mp nonzero, kinds, hkinds, hkey⟩ held

/-- A rule on extended permissions keeps what adding its numbers keeps. -/
theorem addExtended_keeps (keeps : ∀ r key numbers,
      l.Extends location kind source target extended key numbers → inv r → inv (r.extend key numbers))
    (held : inv t.access) :
    inv (l.addExtended t location kind source target extended).table.access := by
  rw [addExtended]
  split
  · exact held
  · exact held
  · rename_i spec kinds hspec hkinds
    split
    · exact held
    · rename_i supported
      rw [Bool.not_eq_true, Bool.not_eq_false'] at supported
      refine Step.each_keeps inv (fun r pair hpair held => ?_) held
      rw [addNumbers]
      split
      · exact held
      · rename_i key hkey
        exact keeps r key spec.numbers
          ⟨supported, pair, hpair, spec, kinds, hspec, rfl, hkinds, hkey⟩ held

/-- A type rule keeps what setting its result keeps, where neither the base nor the rules have one. -/
theorem addTypeRule_keeps {kind : TypeRuleKind} {cls result : Id} (keeps : ∀ r key value,
      l.Sets location kind source target cls result key value → base.word? key = none →
        r.word? key = none → inv r → inv (r.setResult key value))
    (held : inv t.access) :
    inv (l.addTypeRule base t location kind source target cls result).table.access := by
  rw [addTypeRule]
  split
  · exact held
  · rename_i value hvalue
    refine Step.each_keeps inv (fun r pair hpair held => ?_) held
    rw [addResult]
    split
    · exact held
    · rename_i key hkey
      dsimp only
      split
      · rename_i absent
        obtain ⟨unbased, fresh⟩ := Option.or_eq_none_iff.mp absent
        exact keeps r key value ⟨hvalue, pair, hpair, hkey⟩ unbased fresh held
      · split
        · exact held
        · exact held

end Keeps

/-- Rules on permissions and on types leave the numbers of extended permissions as they are. -/
theorem addAccess_extended {t : RuleTables} {kind : AccessKind} {source : Id} {target : RuleTarget}
    {permissions : ClassPerms Id} :
    (l.addAccess t location kind source target permissions).table.access.extended = t.access.extended :=
  addAccess_keeps (fun r => r.extended = t.access.extended) (fun _ _ _ _ same => same) rfl

theorem addTypeRule_extended {t : RuleTables} {base : AccessRules} {kind : TypeRuleKind} {source : Id}
    {target : RuleTarget} {cls result : Id} :
    (l.addTypeRule base t location kind source target cls result).table.access.extended =
      t.access.extended :=
  addTypeRule_keeps (fun r => r.extended = t.access.extended) (fun _ _ _ _ _ _ same => same) rfl

/-- Rules on extended permissions leave the words as they are. -/
theorem addExtended_words {t : RuleTables} {kind : AccessKind} {source : Id} {target : RuleTarget}
    {permissions : ExtendedArg Id BitSet} :
    (l.addExtended t location kind source target permissions).table.access.words = t.access.words :=
  addExtended_keeps (fun r => r.words = t.access.words) (fun _ _ _ _ same => same) rfl

/-! ### What a rule marks -/

section Access

variable {kinds : RuleKinds} {a : Access}

theorem addGrant_iff (hp : a.permission < 32) {kinds' : RuleKinds} (rules : AccessRules)
    (item : (Nat × Nat) × ClassGrant) (done : (l.addGrant location kinds' rules item).fault? = none) :
    l.Marks (l.addGrant location kinds' rules item).table kinds a ↔
      l.Marks rules kinds a ∨ (kinds' = kinds ∧ l.Covers item.1.1 a.source ∧
        l.Covers item.1.2 a.target ∧ item.2.cls = a.cls ∧
        item.2.word.getLsbD a.permission = true) := by
  rw [Lowering.addGrant] at done ⊢
  split at done
  · cases done
  · rename_i key hkey
    obtain ⟨hsource, htarget, hcls, hkinds⟩ := accessKey_ok hkey
    simp only [Marks, Step.done, AccessRules.marks_grant hp]
    constructor
    · rintro ⟨k, hk, speaks, old | ⟨rfl, bit⟩⟩
      · exact Or.inl ⟨k, hk, speaks, old⟩
      · refine Or.inr ⟨hkinds.symm.trans hk, hsource ▸ speaks.source, htarget ▸ speaks.target, ?_, bit⟩
        exact Numbering.value?_injective hcls speaks.cls
    · rintro (⟨k, hk, speaks, old⟩ | ⟨same, covers, coversTarget, cls, bit⟩)
      · exact ⟨k, hk, speaks, Or.inl old⟩
      · exact ⟨key, hkinds.trans same, ⟨hsource ▸ covers, htarget ▸ coversTarget, cls ▸ hcls⟩,
          Or.inr ⟨rfl, bit⟩⟩

/-- The items of an access rule bring about what the rule states. -/
theorem exists_grantItems (numbered : l.Numbered) (passed : l.db.Passed) (hp : a.permission < 32)
    {source : Id} {target : RuleTarget} {permissions : ClassPerms Id} :
    (∃ item ∈ grantItems (l.rulePairs source target) (l.db.grants permissions),
      l.Covers item.1.1 a.source ∧ l.Covers item.1.2 a.target ∧ item.2.cls = a.cls ∧
        item.2.word.getLsbD a.permission = true) ↔
      l.db.Aims source target a.source a.target ∧
        l.db.StandsFor permissions a.cls a.permission := by
  rw [← exists_rulePairs numbered passed.evaluated, ← Database.granted_grants passed.acyclic hp]
  simp only [grantItems, List.mem_flatMap, List.mem_map, List.mem_filter]
  constructor
  · rintro ⟨_, ⟨pair, hpair, g, ⟨hg, _⟩, rfl⟩, hsource, htarget, hcls, bit⟩
    exact ⟨⟨pair, hpair, hsource, htarget⟩, g, hg, hcls, bit⟩
  · rintro ⟨⟨pair, hpair, hsource, htarget⟩, g, hg, hcls, bit⟩
    refine ⟨(pair, g), ⟨pair, hpair, g, ⟨hg, ?_⟩, rfl⟩, hsource, htarget, hcls, bit⟩
    rw [bne_iff_ne]
    intro zero
    rw [zero] at bit
    simp at bit

theorem addAccess_iff (numbered : l.Numbered) (passed : l.db.Passed) (hp : a.permission < 32)
    {kind : AccessKind} (hkind : kind.kinds? = some kinds) {t : RuleTables} {k : AccessKind}
    {source : Id} {target : RuleTarget} {permissions : ClassPerms Id}
    (done : (l.addAccess t location k source target permissions).fault? = none) :
    l.Marks (l.addAccess t location k source target permissions).table.access kinds a ↔
      l.Marks t.access kinds a ∨ l.db.States kind (.access k source target permissions) a := by
  unfold addAccess at done ⊢
  dsimp only at done ⊢
  cases hk : k.kinds? with
  | none =>
    have other : k ≠ kind := fun same => by simp [same, hkind] at hk
    simp [EvaluatedDatabase.States, other, Step.done]
  | some kinds' =>
    simp only [hk] at done ⊢
    refine (Step.each_iff (fun r => l.Marks r kinds a) (addGrant_iff hp) done).trans ?_
    by_cases same : kinds' = kinds
    · subst same
      have heq := AccessKind.kinds?_injective hk hkind
      simp only [true_and, exists_grantItems numbered passed hp, EvaluatedDatabase.States, heq]
    · have other : k ≠ kind := by
        rintro rfl
        exact same (Option.some.inj (hk.symm.trans hkind))
      simp [same, EvaluatedDatabase.States, other]

theorem addExtended_marks {t : RuleTables} {kind : AccessKind} {source : Id} {target : RuleTarget}
    {permissions : ExtendedArg Id BitSet} :
    l.Marks (l.addExtended t location kind source target permissions).table.access kinds a ↔
      l.Marks t.access kinds a := by
  simp only [Marks, AccessRules.Marks, addExtended_words]

theorem addTypeRule_marks (vector : kinds ∈ RuleKinds.vectorKinds) {base : AccessRules}
    {t : RuleTables} {kind : TypeRuleKind} {source : Id} {target : RuleTarget} {cls result : Id} :
    l.Marks (l.addTypeRule base t location kind source target cls result).table.access kinds a ↔
      l.Marks t.access kinds a := by
  refine addTypeRule_keeps (fun r => l.Marks r kinds a ↔ l.Marks t.access kinds a) ?_ Iff.rfl
  intro r key value sets _ _ same
  refine Iff.trans (exists_congr fun k => and_congr_right fun hk => ?_) same
  have other : key.kinds ≠ k.kinds := RuleKinds.result_ne_vector sets.result (hk ▸ vector)
  exact and_congr_right fun _ => AccessRules.marks_setResult other

/-- Only permissions, extended permissions and type rules change the access rules. -/
theorem addRule_access (t : RuleTables) (r : PlacedRule) :
    (l.addRule t r).table.access = match r.rule with
      | .access kind source target permissions =>
        (l.addAccess t r.location kind source target permissions).table.access
      | .extended kind source target permissions =>
        (l.addExtended t r.location kind source target permissions).table.access
      | .type kind source target cls result =>
        (l.addTypeRule {} t r.location kind source target cls result).table.access
      | _ => t.access := by
  rw [addRule]
  cases r.rule with
  | namedTransition source target cls name result =>
    obtain ⟨_, same⟩ := l.addNamedTransition_only t r.location source target cls name result
    dsimp only
    rw [same]
  | roleTransition source target cls result =>
    obtain ⟨_, same⟩ := l.addRoleTransition_only t r.location source target cls result
    dsimp only
    rw [same]
  | rangeTransition source target cls range =>
    obtain ⟨_, same⟩ := l.addRangeTransition_only t r.location source target cls range
    dsimp only
    rw [same]
  | _ => rfl

/-- A rule makes the table mark what it states, and nothing else. -/
theorem addRule_iff (numbered : l.Numbered) (passed : l.db.Passed) (hp : a.permission < 32)
    {kind : AccessKind} (hkind : kind.kinds? = some kinds) {t : RuleTables} {r : PlacedRule}
    (done : (l.addRule t r).fault? = none) :
    l.Marks (l.addRule t r).table.access kinds a ↔
      l.Marks t.access kinds a ∨ l.db.States kind r.rule a := by
  rw [addRule_access]
  rw [addRule] at done
  cases hrule : r.rule with
  | access k source target permissions =>
    rw [hrule] at done
    exact addAccess_iff numbered passed hp hkind done
  | extended k source target permissions =>
    simp only [EvaluatedDatabase.States, or_false]
    exact addExtended_marks
  | type k source target cls result =>
    simp only [EvaluatedDatabase.States, or_false]
    exact addTypeRule_marks (AccessKind.kinds?_vector hkind)
  | _ => simp only [EvaluatedDatabase.States, or_false]

/-- The rules outside conditionals mark what some rule outside conditionals states. -/
theorem rules_iff (numbered : l.Numbered) (passed : l.db.Passed) (hp : a.permission < 32)
    {kind : AccessKind} (hkind : kind.kinds? = some kinds) (done : l.rules.faults = []) :
    l.Marks l.rules.table.access kinds a ↔ ∃ r ∈ l.db.rules, l.db.States kind r.rule a := by
  refine (Step.gather_iff (fun t => l.Marks t.access kinds a) (fun t r _ ok =>
    addRule_iff numbered passed hp hkind ok) done).trans ?_
  exact or_iff_right not_marks_empty

end Access

/-! ### Kinds of keys -/

theorem addAccess_kindsFit {t : RuleTables} (fit : t.access.KindsFit) {kind : AccessKind} {source : Id}
    {target : RuleTarget} {permissions : ClassPerms Id} :
    (l.addAccess t location kind source target permissions).table.access.KindsFit :=
  addAccess_keeps AccessRules.KindsFit
    (fun _ _ word grants held => held.grant word (RuleKinds.vectorKinds_subset grants.vector)) fit

theorem addExtended_kindsFit {t : RuleTables} (fit : t.access.KindsFit) {kind : AccessKind}
    {source : Id} {target : RuleTarget} {permissions : ExtendedArg Id BitSet} :
    (l.addExtended t location kind source target permissions).table.access.KindsFit :=
  addExtended_keeps AccessRules.KindsFit
    (fun _ _ numbers added held => held.extend numbers added.number) fit

theorem addTypeRule_kindsFit {base : AccessRules} {t : RuleTables} (fit : t.access.KindsFit)
    {kind : TypeRuleKind} {source : Id} {target : RuleTarget} {cls result : Id} :
    (l.addTypeRule base t location kind source target cls result).table.access.KindsFit :=
  addTypeRule_keeps AccessRules.KindsFit
    (fun _ _ value sets _ _ held => held.setResult value (RuleKinds.resultKinds_subset sets.result)) fit

theorem addRule_kindsFit {t : RuleTables} {r : PlacedRule} (fit : t.access.KindsFit) :
    (l.addRule t r).table.access.KindsFit := by
  rw [addRule_access]
  cases r.rule with
  | access kind source target permissions => exact addAccess_kindsFit fit
  | extended kind source target permissions => exact addExtended_kindsFit fit
  | type kind source target cls result => exact addTypeRule_kindsFit fit
  | _ => exact fit

theorem rules_kindsFit : l.rules.table.access.KindsFit :=
  Step.gather_invariant (fun t : RuleTables => t.access.KindsFit)
    (fun _ _ => addRule_kindsFit) AccessRules.kindsFit_empty

end Lowering

end CilPolicy
