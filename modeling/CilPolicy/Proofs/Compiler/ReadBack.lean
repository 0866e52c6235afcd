import CilPolicy.Proofs.Access.ReadBack
import CilPolicy.Proofs.Compiler.Agreement
import CilPolicy.Proofs.Kernel.Layout
import CilPolicy.Proofs.Lowering.Expansion

/-!
# Reading the rules of a compiled policy

The table of the rules stands whole in a compiled policy, and each of its entries is read back as it
is. What is missing is a guard for its size: a policy whose rules come to no entries is compiled, but
its table is refused by the reader.
-/

namespace CilPolicy

/-- Gathered rules come to entries of single kinds, with data of their kinds. -/
theorem AccessRules.recordable_toEntries {r : AccessRules} (fit : r.KindsFit) :
    ∀ e ∈ r.toEntries, e.Recordable := by
  intro e he
  rcases List.mem_append.mp he with he | he
  · obtain ⟨⟨key, word⟩, hword, rfl⟩ := List.mem_map.mp he
    have kinds := fit.words key word hword
    refine ⟨RuleKinds.words_subset kinds, ?_⟩
    have plain : key.isExtended = false := RuleKinds.not_extended _ kinds
    rw [AccessEntry.Matches, if_neg (by simp [plain])]
    exact ⟨word, rfl⟩
  · obtain ⟨⟨key, numbers⟩, hnumbers, he⟩ := List.mem_flatMap.mp he
    obtain ⟨x, _, rfl⟩ := List.mem_map.mp he
    have kinds := fit.extended key numbers hnumbers
    refine ⟨RuleKinds.numberKinds_subset kinds, ?_⟩
    have extended : key.isExtended = true := RuleKinds.extended_of_number _ kinds
    rw [AccessEntry.Matches, if_pos extended]
    exact ⟨x, rfl⟩

namespace Compiler

variable {c : Compiler} {compiled : CompiledPolicy}

/-- The table of a lowered policy has entries exactly when one of its rules comes to some. -/
theorem size_rules_iff {lowered : LoweredPolicy} (run : c.lower.outcome.1 = .ok lowered) :
    lowered.kernel.rules.size ≠ 0 ↔ ∃ r ∈ lowered.db.rules, lowered.db.Expands r.rule := by
  obtain ⟨passed, policy⟩ := stages_of_lower (Report.yields_of_outcome run)
  have numbered := Lowering.numbered_new lowered.db lowered.settings c.options.lowering
  exact (Lowering.built_of_policy policy).size_rules_iff numbered passed

open List in
/-- The table of the rules in a compiled policy is read back, entry by entry and up to the end of
its section, exactly when some rule comes to an entry and there are not too many of them. -/
theorem compiled_rules_readBack_iff (run : c.compile.outcome.1 = .ok compiled) :
    ∃ lowered rules rest, c.lower.outcome.1 = .ok lowered ∧
      lowered.kernel.rules.encode c.options.version = .ok rules ∧
      compiled.policy = lowered.kernel.beforeRules ++ rules ++ rest ∧
      ((∃ t, (AccessTable.read c.options.version).run? (rules ++ rest) = .ok (t, rest) ∧
          t.toList ~ lowered.kernel.rules.toList) ↔
        (∃ r ∈ lowered.db.rules, lowered.db.Expands r.rule) ∧ lowered.kernel.rules.size < wordBound) := by
  obtain ⟨lowered, lower, encoded⟩ := exists_encoded run
  obtain ⟨_, policy⟩ := stages_of_lower (Report.yields_of_outcome lower)
  obtain ⟨_, version⟩ := Lowering.form_of_policy policy
  have built := Lowering.built_of_policy policy
  obtain ⟨rules, conditionals, rest, written, _, whole⟩ := KernelPolicy.exists_sections encoded
  rw [version] at written
  simp only [List.append_assoc] at whole
  rw [← List.append_assoc] at whole
  refine ⟨lowered, rules, _, lower, written, whole, ?_⟩
  rw [← size_rules_iff lower]
  exact AccessTable.readBack_iff built.rules
    (AccessRules.recordable_toEntries Lowering.rules_kindsFit) written _

/-- A compiler that has read one rule, which is for an attribute without types. -/
def memberlessCompiler : Compiler :=
  small {} [wordsNode ["typeattribute", "none"], allowNode "none"]

set_option maxRecDepth 10000 in
theorem memberlessCompiler_compiles : memberlessCompiler.compile.outcome.1.toOption.isSome = true := by
  decide +kernel

set_option maxRecDepth 10000 in
theorem memberlessCompiler_entryless : memberlessCompiler.lower.outcome.1.toOption.any (fun lowered =>
    lowered.db.accessRuleCount == 1 && lowered.kernel.rules.size == 0) = true := by
  decide +kernel

open List in
/-- The policy has a rule and compiles, and its table is not read back. -/
theorem memberless_rules_unread : ∃ compiled lowered rules rest,
    memberlessCompiler.compile.outcome.1 = .ok compiled ∧
      memberlessCompiler.lower.outcome.1 = .ok lowered ∧ lowered.db.accessRuleCount = 1 ∧
      compiled.policy = lowered.kernel.beforeRules ++ rules ++ rest ∧
      ¬ ∃ t, (AccessTable.read memberlessCompiler.options.version).run? (rules ++ rest) = .ok (t, rest) ∧
        t.toList ~ lowered.kernel.rules.toList := by
  obtain ⟨compiled, found⟩ := Option.isSome_iff_exists.mp memberlessCompiler_compiles
  have run := toOption_eq_some_iff.mp found
  obtain ⟨lowered, rules, rest, lower, _, whole, exact⟩ := compiled_rules_readBack_iff run
  have shown := memberlessCompiler_entryless
  rw [lower] at shown
  obtain ⟨one, none⟩ : lowered.db.accessRuleCount = 1 ∧ lowered.kernel.rules.size = 0 := by
    simpa [Except.toOption] using shown
  refine ⟨compiled, lowered, rules, rest, run, lower, one, whole, fun read => ?_⟩
  obtain ⟨expands, _⟩ := exact.mp read
  exact (size_rules_iff lower).mpr expands none

end Compiler

end CilPolicy
