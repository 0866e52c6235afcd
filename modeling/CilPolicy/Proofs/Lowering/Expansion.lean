import CilPolicy.Proofs.Lowering.Sources

/-!
# Rules that come to entries

An access rule comes to entries when it speaks of some pair of concrete types and stands for some
permission, a rule on extended permissions when it speaks of a pair and has a number, and a type
rule when it speaks of a pair. Other rules may be given, and come to nothing: then the table of the
policy has no entries, whatever the number of its rules.
-/

namespace CilPolicy

/-! ### Records of numbers -/

namespace ExtendedSet

/-- The functions of a driver are the numbers that begin with it. -/
theorem getLsbD_functionsOf (numbers : BitSet) (driver : Nat) {function : Nat} (lt : function < 256) :
    (functionsOf numbers driver).getLsbD function = true ↔ 256 * driver + function ∈ numbers := by
  have word : ∀ i j, j < 64 → (256 * driver + (64 * i + j) ∈ numbers ↔
      (numbers.wordAt (256 * driver + 64 * i)).getLsbD j = true) := by
    intro i j hj
    rw [← Nat.add_assoc]
    exact BitSet.has_at_chunk (by omega) hj
  obtain ⟨i, j, hj, rfl⟩ : ∃ i j, j < 64 ∧ function = 64 * i + j :=
    ⟨function / 64, function % 64, Nat.mod_lt _ (by decide), (Nat.div_add_mod function 64).symm⟩
  rw [word i j hj]
  simp only [functionsOf, BitVec.getLsbD_append]
  have few : i = 0 ∨ i = 1 ∨ i = 2 ∨ i = 3 := by omega
  rcases few with rfl | rfl | rfl | rfl
  · rw [if_pos (by omega), Nat.mul_zero, Nat.zero_add]
  · rw [if_neg (by omega), if_pos (by omega), show 64 * 1 + j - 64 = j by omega]
  · rw [if_neg (by omega), if_neg (by omega), if_pos (by omega), show 64 * 2 + j - 64 - 64 = j by omega]
  · rw [if_neg (by omega), if_neg (by omega), if_neg (by omega),
      show 64 * 3 + j - 64 - 64 - 64 = j by omega]

theorem functionsOf_ne_zero_iff {numbers : BitSet} {driver : Nat} :
    functionsOf numbers driver ≠ 0 ↔ ∃ f, f < 256 ∧ 256 * driver + f ∈ numbers := by
  constructor
  · intro some
    obtain ⟨f, lt, bit⟩ := exists_bit_of_ne_zero some
    exact ⟨f, lt, (getLsbD_functionsOf numbers driver lt).mp bit⟩
  · rintro ⟨f, lt, member⟩ none
    have bit := (getLsbD_functionsOf numbers driver lt).mpr member
    rw [none] at bit
    exact absurd bit (by simp)

/-- A set has records exactly when it has a number. -/
theorem records_ne_nil_iff {numbers : BitSet} :
    records numbers ≠ [] ↔ ∃ n, n < extendedLimit ∧ n ∈ numbers := by
  have some : records numbers ≠ [] ↔ ∃ d, d < 256 ∧ functionsOf numbers d ≠ 0 := by
    constructor
    · intro some
      by_contra none
      have zero : ∀ d ∈ List.range 256, functionsOf numbers d = 0 := fun d hd =>
        not_not.mp fun functions => none ⟨d, List.mem_range.mp hd, functions⟩
      have complete : completeDrivers numbers = [] :=
        List.filter_eq_nil_iff.mpr fun d hd => by simp [zero d hd]
      have parts : partialDrivers numbers = [] :=
        List.filter_eq_nil_iff.mpr fun d hd => by simp [zero d hd]
      rw [records, complete, parts] at some
      exact some rfl
    · rintro ⟨d, hd, functions⟩ none
      rw [records, List.append_eq_nil_iff, List.map_eq_nil_iff] at none
      obtain ⟨complete, parts⟩ := none
      have whole := List.filter_eq_nil_iff.mp parts d (List.mem_range.mpr hd)
      have full : functionsOf numbers d = BitVec.allOnes 256 := by
        simpa only [Bool.and_eq_true, bne_iff_ne, functions, ne_eq, not_false_eq_true, true_and, not_not]
          using whole
      have member : d ∈ completeDrivers numbers := List.mem_filter.mpr ⟨List.mem_range.mpr hd, by simp [full]⟩
      rw [if_neg (by simp [List.ne_nil_of_mem member])] at complete
      cases complete
  rw [some]
  constructor
  · rintro ⟨d, hd, functions⟩
    obtain ⟨f, hf, member⟩ := functionsOf_ne_zero_iff.mp functions
    exact ⟨_, by rw [extendedLimit]; omega, member⟩
  · rintro ⟨n, lt, member⟩
    rw [extendedLimit] at lt
    refine ⟨n / 256, by omega, functionsOf_ne_zero_iff.mpr ⟨n % 256, by omega, ?_⟩⟩
    rwa [Nat.div_add_mod]

end ExtendedSet

/-! ### Entries of gathered rules -/

namespace AccessRules

variable {r : AccessRules} {key : AccessKey}

/-- The numbers under every key are a proper set. -/
def NumbersFit (r : AccessRules) : Prop :=
  ∀ key numbers, (key, numbers) ∈ r.extended → numbers.WellFormed

theorem toEntries_ne_nil_iff : r.toEntries ≠ [] ↔ r.words ≠ [] ∨
    ∃ key numbers, (key, numbers) ∈ r.extended ∧ ∃ n, n < extendedLimit ∧ n ∈ numbers := by
  simp only [toEntries, ne_eq, List.append_eq_nil_iff, List.map_eq_nil_iff, List.flatMap_eq_nil_iff,
    Prod.forall, ← ExtendedSet.records_ne_nil_iff, not_and_or, not_forall]
  simp only [exists_prop]

theorem upsert_ne_nil {κ ν : Type} [DecidableEq κ] (key : κ) (change : Option ν → ν) (l : List (κ × ν)) :
    upsert key change l ≠ [] := by
  cases l with
  | nil => exact List.cons_ne_nil _ _
  | cons head rest =>
    rw [upsert]
    split
    · exact List.cons_ne_nil _ _
    · exact List.cons_ne_nil _ _

theorem toEntries_grant (r : AccessRules) (key : AccessKey) (permissions : BitVec 32) :
    (r.grant key permissions).toEntries ≠ [] :=
  toEntries_ne_nil_iff.mpr (.inl (upsert_ne_nil _ _ _))

theorem toEntries_setResult (r : AccessRules) (key : AccessKey) (result : Nat) :
    (r.setResult key result).toEntries ≠ [] :=
  toEntries_ne_nil_iff.mpr (.inl (List.append_ne_nil_of_right_ne_nil _ (List.cons_ne_nil _ _)))

theorem NumbersFit.extend (fit : r.NumbersFit) {numbers : BitSet} (wf : numbers.WellFormed) :
    (r.extend key numbers).NumbersFit := by
  intro k new hnew
  by_contra bad
  have found : (∃ v, (k, v) ∈ r.extended ∧ ¬ v.WellFormed) ∨ (k = key ∧ False) := by
    refine (exists_mem_upsert (fun _ => ?_) fun _ old hold => ?_).mp ⟨new, hnew, bad⟩
    · exact iff_of_false (not_not.mpr (BitSet.wellFormed_union BitSet.wellFormed_empty wf)) not_false
    · have wf' := fit k old hold
      exact iff_of_false (not_not.mpr (BitSet.wellFormed_union wf' wf)) (not_or.mpr ⟨not_not.mpr wf', not_false⟩)
  rcases found with ⟨v, hv, bad⟩ | ⟨_, absurd⟩
  · exact bad (fit k v hv)
  · exact absurd

/-- Numbers of extended permissions bring entries when there are some. -/
theorem toEntries_extend (fit : r.NumbersFit) {numbers : BitSet} (wf : numbers.WellFormed) :
    (r.extend key numbers).toEntries ≠ [] ↔ r.toEntries ≠ [] ∨ ∃ n, n < extendedLimit ∧ n ∈ numbers := by
  have merged : ∀ k, (∃ w, (k, w) ∈ (r.extend key numbers).extended ∧ ∃ n, n < extendedLimit ∧ n ∈ w) ↔
      (∃ w, (k, w) ∈ r.extended ∧ ∃ n, n < extendedLimit ∧ n ∈ w) ∨
        (k = key ∧ ∃ n, n < extendedLimit ∧ n ∈ numbers) := by
    intro k
    refine exists_mem_upsert (fun _ => ?_) fun _ old hold => ?_
    · simp only [Option.getD_none, BitSet.mem_union BitSet.wellFormed_empty wf, BitSet.not_mem_empty, false_or]
    · simp only [Option.getD_some, BitSet.mem_union (fit k old hold) wf, and_or_left, exists_or]
  rw [toEntries_ne_nil_iff, toEntries_ne_nil_iff, or_assoc]
  refine or_congr Iff.rfl ((exists_congr merged).trans ?_)
  rw [exists_or, exists_eq_left]

end AccessRules

/-! ### Rules that come to entries -/

namespace EvaluatedDatabase

/-- The rule comes to some entry: it grants or describes access, and it speaks of some types and
stands for some permission or number. -/
def Expands (db : EvaluatedDatabase) : Rule → Prop
  | .access kind source target permissions =>
    kind ≠ .neverAllow ∧ (∃ s t, db.Aims source target s t) ∧ ∃ cls p, db.StandsFor permissions cls p
  | .extended kind source target permissions =>
    kind ≠ .neverAllow ∧ (∃ s t, db.Aims source target s t) ∧
      ∃ spec, db.extendedSpec? permissions = some spec ∧ ∃ n, n < extendedLimit ∧ n ∈ spec.numbers
  | .type _ source target _ _ => ∃ s t, db.Aims source target s t
  | _ => False

end EvaluatedDatabase

theorem AccessKind.kinds?_eq_none {kind : AccessKind} : kind.kinds? = none ↔ kind = .neverAllow := by
  cases kind <;> simp [kinds?]

theorem AccessKind.extendedKinds?_eq_none {kind : AccessKind} :
    kind.extendedKinds? = none ↔ kind = .neverAllow := by
  cases kind <;> simp [extendedKinds?]

namespace Lowering

variable {l : Lowering} {k : KernelPolicy} {location : Location} {t : RuleTables}

theorem exists_mem_rulePairs (numbered : l.Numbered) (evaluated : l.db.Evaluated) {source : Id}
    {target : RuleTarget} :
    (∃ pair, pair ∈ l.rulePairs source target) ↔ ∃ s t, l.db.Aims source target s t := by
  constructor
  · rintro ⟨pair, hpair⟩
    obtain ⟨s, t, aims, _⟩ := paired_of_rulePairs evaluated pair hpair
    exact ⟨s, t, aims⟩
  · rintro ⟨s, t, aims⟩
    obtain ⟨pair, hpair, _⟩ := (exists_rulePairs numbered evaluated).mpr aims
    exact ⟨pair, hpair⟩

theorem exists_mem_concretePairs (numbered : l.Numbered) (evaluated : l.db.Evaluated) {source : Id}
    {target : RuleTarget} :
    (∃ pair, pair ∈ l.concretePairs source target) ↔ ∃ s t, l.db.Aims source target s t := by
  simp only [mem_concretePairs evaluated]
  constructor
  · rintro ⟨_, s, t, aims, _⟩
    exact ⟨s, t, aims⟩
  · rintro ⟨s, t, aims⟩
    obtain ⟨concrete, concrete'⟩ := evaluated.concrete_of_aims aims
    obtain ⟨v, hv⟩ := numbered.exists_typeValue concrete
    obtain ⟨w, hw⟩ := numbered.exists_typeValue concrete'
    exact ⟨(v, w), s, t, aims, hv, hw⟩

/-- Some permission is granted of some class where the reference stands for one. -/
theorem exists_grant (passed : l.db.Passed) {permissions : ClassPerms Id}
    (fits : l.db.RefFits permissions) :
    (∃ g, g ∈ l.db.grants permissions ∧ g.word ≠ 0) ↔ ∃ cls p, l.db.StandsFor permissions cls p := by
  constructor
  · rintro ⟨g, granted, nonzero⟩
    obtain ⟨p, lt, bit⟩ := exists_bit_of_ne_zero nonzero
    exact ⟨g.cls, p, (Database.granted_grants passed.acyclic lt).mp ⟨g, granted, rfl, bit⟩⟩
  · rintro ⟨cls, p, stands⟩
    obtain ⟨c, declared, kernel, inside⟩ := passed.resolved.standsFor_bounded fits stands
    have lt : p < 32 := Nat.lt_of_lt_of_le inside (passed.resolved.classes cls c declared kernel)
    obtain ⟨g, granted, _, bit⟩ := (Database.granted_grants passed.acyclic lt).mpr stands
    refine ⟨g, granted, fun zero => ?_⟩
    rw [zero] at bit
    exact absurd bit (by simp)

theorem exists_mem_grantItems {pairs : List (Nat × Nat)} {grants : List ClassGrant} :
    (∃ item, item ∈ grantItems pairs grants) ↔ (∃ pair, pair ∈ pairs) ∧ ∃ g, g ∈ grants ∧ g.word ≠ 0 := by
  simp only [grantItems, List.mem_flatMap, List.mem_map, List.mem_filter, bne_iff_ne]
  constructor
  · rintro ⟨_, pair, hpair, g, granted, _⟩
    exact ⟨⟨pair, hpair⟩, g, granted⟩
  · rintro ⟨⟨pair, hpair⟩, g, granted⟩
    exact ⟨_, pair, hpair, g, granted, rfl⟩

theorem addAccess_entries (numbered : l.Numbered) (passed : l.db.Passed) {kind : AccessKind} {source : Id}
    {target : RuleTarget} {permissions : ClassPerms Id} (fits : l.db.RefFits permissions)
    (done : (l.addAccess t location kind source target permissions).fault? = none) :
    (l.addAccess t location kind source target permissions).table.access.toEntries ≠ [] ↔
      t.access.toEntries ≠ [] ∨ l.db.Expands (.access kind source target permissions) := by
  unfold addAccess at done ⊢
  dsimp only at done ⊢
  cases hkinds : kind.kinds? with
  | none =>
    have forbids := AccessKind.kinds?_eq_none.mp hkinds
    exact (or_iff_left fun expands => expands.1 forbids).symm
  | some kinds =>
    simp only [hkinds] at done ⊢
    have allows : kind ≠ .neverAllow := fun forbids => by
      cases hkinds.symm.trans (AccessKind.kinds?_eq_none.mpr forbids)
    have adds : ∀ (r : AccessRules) item, (l.addGrant location kinds r item).fault? = none →
        ((l.addGrant location kinds r item).table.toEntries ≠ [] ↔ r.toEntries ≠ [] ∨ True) := by
      intro r item done
      rw [Lowering.addGrant] at done ⊢
      split at done
      · cases done
      · exact iff_of_true (AccessRules.toEntries_grant r _ _) (.inr trivial)
    refine (Step.each_iff (fun r : AccessRules => r.toEntries ≠ []) adds done).trans (or_congr_right ?_)
    simp only [and_true]
    rw [exists_mem_grantItems, exists_mem_rulePairs numbered passed.evaluated, exists_grant passed fits]
    exact (and_iff_right allows).symm

theorem addTypeRule_entries (numbered : l.Numbered) (evaluated : l.db.Evaluated) {kind : TypeRuleKind}
    {source : Id} {target : RuleTarget} {cls result : Id}
    (done : (l.addTypeRule {} t location kind source target cls result).fault? = none) :
    (l.addTypeRule {} t location kind source target cls result).table.access.toEntries ≠ [] ↔
      t.access.toEntries ≠ [] ∨ l.db.Expands (.type kind source target cls result) := by
  rw [addTypeRule] at done ⊢
  split at done
  · cases done
  · rename_i value _
    have adds : ∀ (r : AccessRules) pair, (l.addResult {} location kind cls value r pair).fault? = none →
        ((l.addResult {} location kind cls value r pair).table.toEntries ≠ [] ↔
          r.toEntries ≠ [] ∨ True) := by
      intro r pair done
      refine iff_of_true ?_ (.inr trivial)
      rw [addResult] at done ⊢
      split at done
      · cases done
      · rename_i key _
        dsimp only at done ⊢
        -- A result that is there already stands among the words.
        cases there : r.word? key with
        | none => exact AccessRules.toEntries_setResult r _ _
        | some existing =>
          have listed : r.words ≠ [] := by
            intro none
            rw [AccessRules.word?, none] at there
            cases there
          have entries := AccessRules.toEntries_ne_nil_iff.mpr (.inl listed)
          rw [show (({} : AccessRules).word? key).or (some existing) = some existing from rfl]
          dsimp only
          split
          · exact entries
          · exact entries
    refine (Step.each_iff (fun r : AccessRules => r.toEntries ≠ []) adds done).trans (or_congr_right ?_)
    simp only [and_true]
    exact exists_mem_concretePairs numbered evaluated

theorem addNumbers_numbersFit {r : AccessRules} {kinds : RuleKinds} {spec : ExtendedSpec Id BitSet}
    {pair : Nat × Nat} (wf : spec.numbers.WellFormed) (fit : r.NumbersFit) :
    (l.addNumbers location kinds spec r pair).table.NumbersFit := by
  rw [addNumbers]
  split
  · exact fit
  · exact fit.extend wf

theorem addExtended_entries (numbered : l.Numbered) (evaluated : l.db.Evaluated) {kind : AccessKind}
    {source : Id} {target : RuleTarget} {permissions : ExtendedArg Id BitSet}
    (proper : ∀ spec, l.db.extendedSpec? permissions = some spec → spec.numbers.WellFormed)
    (fit : t.access.NumbersFit)
    (done : (l.addExtended t location kind source target permissions).fault? = none) :
    (l.addExtended t location kind source target permissions).table.access.toEntries ≠ [] ↔
      t.access.toEntries ≠ [] ∨ l.db.Expands (.extended kind source target permissions) := by
  rw [addExtended] at done ⊢
  split at done
  · cases done
  · rename_i hkinds
    have forbids := AccessKind.extendedKinds?_eq_none.mp hkinds
    exact (or_iff_left fun expands => expands.1 forbids).symm
  · rename_i spec kinds hspec hkinds
    split at done
    · cases done
    · rename_i supported
      rw [if_neg supported]
      have allows : kind ≠ .neverAllow := fun forbids => by
        cases hkinds.symm.trans (AccessKind.extendedKinds?_eq_none.mpr forbids)
      have wf := proper spec hspec
      have adds : ∀ (r : AccessRules), ∀ pair ∈ l.rulePairs source target, r.NumbersFit →
          (l.addNumbers location kinds spec r pair).fault? = none →
          ((l.addNumbers location kinds spec r pair).table.toEntries ≠ [] ↔
            r.toEntries ≠ [] ∨ ∃ n, n < extendedLimit ∧ n ∈ spec.numbers) := by
        intro r pair _ fit done
        rw [addNumbers] at done ⊢
        split at done
        · cases done
        · exact AccessRules.toEntries_extend fit wf
      refine (Step.each_iff_of_invariant AccessRules.NumbersFit (fun r : AccessRules => r.toEntries ≠ [])
        (fun r pair _ fit => addNumbers_numbersFit wf fit) adds fit done).trans (or_congr_right ?_)
      rw [EvaluatedDatabase.Expands, ← exists_mem_rulePairs numbered evaluated]
      constructor
      · rintro ⟨pair, hpair, number⟩
        exact ⟨allows, ⟨pair, hpair⟩, spec, hspec, number⟩
      · rintro ⟨_, ⟨pair, hpair⟩, spec', hspec', number⟩
        cases hspec.symm.trans hspec'
        exact ⟨pair, hpair, number⟩

theorem addExtended_numbersFit {kind : AccessKind} {source : Id} {target : RuleTarget}
    {permissions : ExtendedArg Id BitSet}
    (proper : ∀ spec, l.db.extendedSpec? permissions = some spec → spec.numbers.WellFormed)
    (fit : t.access.NumbersFit) :
    (l.addExtended t location kind source target permissions).table.access.NumbersFit := by
  refine addExtended_keeps AccessRules.NumbersFit (fun r key numbers added fit => ?_) fit
  obtain ⟨_, _, _, spec, _, hspec, rfl, _⟩ := added
  exact fit.extend (proper spec hspec)

section Rules

variable (passed : l.db.Passed) {r : PlacedRule} (fits : l.db.RuleFits r.rule) (fit : t.access.NumbersFit)

include passed fits fit

theorem addRule_numbersFit : (l.addRule t r).table.access.NumbersFit := by
  rw [addRule_access]
  cases hrule : r.rule with
  | access kind source target permissions =>
    dsimp only
    rwa [AccessRules.NumbersFit, addAccess_extended]
  | extended kind source target permissions =>
    rw [hrule] at fits
    exact addExtended_numbersFit (fun spec hspec => (passed.resolved.specFits fits hspec).2) fit
  | type kind source target cls result =>
    dsimp only
    rwa [AccessRules.NumbersFit, addTypeRule_extended]
  | _ => exact fit

/-- A rule adds entries to none exactly when it comes to some. -/
theorem addRule_entries (numbered : l.Numbered) (done : (l.addRule t r).fault? = none) :
    (l.addRule t r).table.access.toEntries ≠ [] ↔ t.access.toEntries ≠ [] ∨ l.db.Expands r.rule := by
  rw [addRule_access]
  rw [addRule] at done
  cases hrule : r.rule with
  | access kind source target permissions =>
    rw [hrule] at done fits
    exact addAccess_entries numbered passed fits done
  | extended kind source target permissions =>
    rw [hrule] at done fits
    exact addExtended_entries numbered passed.evaluated
      (fun spec hspec => (passed.resolved.specFits fits hspec).2) fit done
  | type kind source target cls result =>
    rw [hrule] at done
    exact addTypeRule_entries numbered passed.evaluated done
  | _ => exact (or_iff_left id).symm

end Rules

/-- The rules have entries exactly when one of them comes to some. -/
theorem rules_entries (numbered : l.Numbered) (passed : l.db.Passed) (done : l.rules.faults = []) :
    l.rules.table.access.toEntries ≠ [] ↔ ∃ r ∈ l.db.rules, l.db.Expands r.rule := by
  refine (Step.gather_iff_of_invariant (fun t : RuleTables => t.access.NumbersFit)
    (fun t => t.access.toEntries ≠ [])
    (fun t r hr fit => addRule_numbersFit passed (passed.resolved.rules r hr) fit)
    (fun t r hr fit done => addRule_entries passed (passed.resolved.rules r hr) fit numbered done)
    (fun _ _ none => absurd none List.not_mem_nil) done).trans ?_
  exact or_iff_right fun some => some rfl

/-- The table of a lowered policy has entries exactly when one of the rules comes to some. -/
theorem Built.size_rules_iff (built : l.Built k) (numbered : l.Numbered) (passed : l.db.Passed) :
    k.rules.size ≠ 0 ↔ ∃ r ∈ l.db.rules, l.db.Expands r.rule := by
  obtain ⟨_, entries⟩ := accessTable_spec built.rules
  rw [← rules_entries numbered passed built.rulesDone, ← entries, AccessTable.size]
  exact (not_congr (Array.toList_eq_nil_iff.trans Array.size_eq_zero_iff.symm)).symm

end Lowering

end CilPolicy
