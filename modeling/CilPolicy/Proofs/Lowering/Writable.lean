import CilPolicy.Proofs.Kernel.Writable
import CilPolicy.Proofs.Lowering.Policy

/-!
# What is lowered can be written

Rules on extended permissions are lowered only for versions that know them, and never inside
conditionals. A lowered policy is therefore written, unless a label of a memory range needs 64-bit
addresses and the version has none.
-/

namespace CilPolicy

/-! ### Rules -/

/-- Rules on extended permissions stand there only if the version knows them. -/
def AccessRules.Known (v : FormatVersion) (r : AccessRules) : Prop :=
  ∀ item ∈ r.extended, v.supports .extendedPermissions = true

theorem AccessRules.known_empty (v : FormatVersion) : Known v {} := by
  intro item h
  cases h

theorem AccessRules.writable_toEntries {v : FormatVersion} {r : AccessRules} (fit : r.KindsFit)
    (known : r.Known v) : ∀ e ∈ r.toEntries, e.Writable v := by
  intro e he
  rcases List.mem_append.mp he with he | he
  · obtain ⟨⟨key, word⟩, hword, rfl⟩ := List.mem_map.mp he
    intro extended
    have plain := RuleKinds.not_extended _ (fit.words key word hword)
    cases plain.symm.trans extended
  · obtain ⟨⟨key, numbers⟩, hnumbers, he⟩ := List.mem_flatMap.mp he
    obtain ⟨x, _, rfl⟩ := List.mem_map.mp he
    exact fun _ => ⟨known _ hnumbers, x, rfl⟩

namespace Lowering

variable {l : Lowering} {k : KernelPolicy} {location : Location}

theorem addAccess_known {t : RuleTables} (known : t.access.Known l.options.version) {kind : AccessKind}
    {source : Id} {target : RuleTarget} {permissions : ClassPerms Id} :
    (l.addAccess t location kind source target permissions).table.access.Known l.options.version := by
  rwa [AccessRules.Known, addAccess_extended]

/-- A rule on extended permissions is refused if the version does not know them. -/
theorem addExtended_known {t : RuleTables} (known : t.access.Known l.options.version) {kind : AccessKind}
    {source : Id} {target : RuleTarget} {permissions : ExtendedArg Id BitSet} :
    (l.addExtended t location kind source target permissions).table.access.Known l.options.version :=
  addExtended_keeps (AccessRules.Known l.options.version) (fun _ _ _ added _ _ _ => added.1) known

theorem addTypeRule_known {base : AccessRules} {t : RuleTables} (known : t.access.Known l.options.version)
    {kind : TypeRuleKind} {source : Id} {target : RuleTarget} {cls result : Id} :
    (l.addTypeRule base t location kind source target cls result).table.access.Known l.options.version := by
  rwa [AccessRules.Known, addTypeRule_extended]

theorem rules_known : l.rules.table.access.Known l.options.version := by
  refine Step.gather_invariant (fun t : RuleTables => t.access.Known l.options.version) (fun t r held => ?_)
    (AccessRules.known_empty _)
  rw [addRule_access]
  cases r.rule with
  | access kind source target permissions => exact addAccess_known held
  | extended kind source target permissions => exact addExtended_known held
  | type kind source target cls result => exact addTypeRule_known held
  | _ => exact held

theorem armRules_known {base : AccessRules} {c : Conditional} {value : Bool} :
    (l.armRules base c value).table.access.Known l.options.version := by
  refine Step.gather_invariant (fun t : RuleTables => t.access.Known l.options.version) (fun t r held => ?_)
    (AccessRules.known_empty _)
  rw [addArmRule]
  split
  · exact addAccess_known held
  · exact addTypeRule_known held
  · exact held
  · exact held

/-- The rules of a conditional can be written. -/
theorem Lowers.writable {base : AccessRules} {c : Conditional} {lowered : LoweredConditional}
    (lowers : l.Lowers base c lowered) :
    (∀ e ∈ lowered.whenTrue.toEntries, e.Writable l.options.version) ∧
      ∀ e ∈ lowered.whenFalse.toEntries, e.Writable l.options.version := by
  rw [lowers.whenTrue, lowers.whenFalse]
  exact ⟨AccessRules.writable_toEntries armRules_kindsFit armRules_known,
    AccessRules.writable_toEntries armRules_kindsFit armRules_known⟩

/-! ### The policy -/

theorem Built.rulesWritable (built : l.Built k) (version : k.version = l.options.version) : k.RulesWritable := by
  obtain ⟨listed, entries⟩ := accessTable_spec built.rules
  obtain ⟨_, _, lowered, same, lowers⟩ := foldl_addConditional built.conditionalsDone
  have arms : l.loweredConditionals.table.conditionals = lowered := same
  obtain ⟨_, _, leads⟩ := conditionalTable_spec (l := l) l.loweredConditionals.table.conditionals
  rw [built.conditionals, arms] at leads
  have nodes : ∀ node ∈ k.conditionals, ∃ c ∈ lowered, NodeLeads k.conditionalRules c node := by
    intro node hnode
    obtain ⟨i, hi, rfl⟩ := List.getElem_of_mem hnode
    have length := leads.length_eq
    exact ⟨lowered[i], List.getElem_mem _, leads.get (length ▸ hi) hi⟩
  have writable : ∀ c ∈ lowered, (∀ e ∈ c.whenTrue.toEntries, e.Writable k.version) ∧
      ∀ e ∈ c.whenFalse.toEntries, e.Writable k.version := by
    intro c hc
    obtain ⟨i, hi, rfl⟩ := List.getElem_of_mem hc
    have length := lowers.length_eq
    rw [version]
    exact (lowers.get (length ▸ hi) hi).writable
  refine ⟨fun e he => ?_, fun node hnode e he => ?_, fun node hnode e he => ?_⟩
  · rw [AccessTable.mem_toList listed, entries] at he
    exact version ▸ AccessRules.writable_toEntries rules_kindsFit rules_known e he
  · obtain ⟨c, hc, leads⟩ := nodes node hnode
    rw [leads.whenTrue _ List.prefix_rfl] at he
    exact (writable c hc).1 e he
  · obtain ⟨c, hc, leads⟩ := nodes node hnode
    rw [leads.whenFalse _ List.prefix_rfl] at he
    exact (writable c hc).2 e he

/-- The labeled ranges of memory are those that are lowered, for the target that has such. -/
theorem exists_ioMemory {o : ObjectContexts} (run : l.objects.Yields o) (target : l.options.target = .xen) :
    (∃ r ∈ o.ioMemory, r.Wide) ↔
      ∃ x ∈ l.db.labels.ioMemory, wordBound ≤ x.selector.low ∨ wordBound ≤ x.selector.high := by
  obtain ⟨sids, _, run⟩ := Report.yields_bind run
  rw [target] at run
  obtain ⟨interrupts, _, run⟩ := Report.yields_bind run
  obtain ⟨ioPorts, _, run⟩ := Report.yields_bind run
  obtain ⟨ioMemory, made, run⟩ := Report.yields_bind run
  obtain ⟨pciDevices, _, run⟩ := Report.yields_bind run
  obtain ⟨deviceTrees, _, run⟩ := Report.yields_bind run
  obtain ⟨_, _, run⟩ := Report.yields_bind run
  obtain ⟨_, _, run⟩ := Report.yields_bind run
  obtain ⟨_, _, run⟩ := Report.yields_bind run
  obtain ⟨_, _, run⟩ := Report.yields_bind run
  obtain ⟨_, _, run⟩ := Report.yields_bind run
  obtain ⟨_, _, run⟩ := Report.yields_bind run
  cases Report.yields_pure run
  have made := Report.yields_lift made
  constructor
  · rintro ⟨r, hr, wide⟩
    obtain ⟨x, hx, lowered⟩ := mem_of_mapM made hr
    obtain ⟨c, _, done⟩ := bind_eq_ok.mp lowered
    cases done
    exact ⟨x, hx, wide⟩
  · rintro ⟨x, hx, wide⟩
    obtain ⟨r, hr, lowered⟩ := exists_of_mapM made hx
    obtain ⟨c, _, done⟩ := bind_eq_ok.mp lowered
    cases done
    exact ⟨_, hr, wide⟩

end Lowering

end CilPolicy
