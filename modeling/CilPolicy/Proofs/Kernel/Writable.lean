import CilPolicy.Kernel.Encoding
import CilPolicy.Proofs.Report

/-!
# Policies that can be written

The encoder refuses a policy for three reasons: its version is none that is written, it has rules
on extended permissions that its version does not know, or a memory range has a bound that takes
more bits than its version has room for. Only the last is left when the first two are excluded.
-/

namespace CilPolicy

/-- The first computation that fails makes all of them fail, with its own error. -/
theorem Except.mapM_error {α β ε : Type} {f : α → Except ε β} {items : List α} {p : ε → Prop}
    (errors : ∀ a ∈ items, ∀ e, f a = .error e → p e) {a : α} (ha : a ∈ items) {e : ε}
    (fails : f a = .error e) : ∃ e', items.mapM f = .error e' ∧ p e' := by
  induction items with
  | nil => cases ha
  | cons b rest ih =>
    rw [List.mapM_cons]
    cases first : f b with
    | error e' => exact ⟨e', rfl, errors b List.mem_cons_self e' first⟩
    | ok c =>
      have behind : a ∈ rest := by
        rcases List.mem_cons.mp ha with rfl | ha
        · cases fails.symm.trans first
        · exact ha
      obtain ⟨e', run, holds⟩ := ih (fun x hx => errors x (List.mem_cons_of_mem b hx)) behind
      refine ⟨e', ?_, holds⟩
      rw [run]
      rfl

/-- The version knows the kind of the rule, and a rule on extended permissions has some. -/
def AccessEntry.Writable (v : FormatVersion) (e : AccessEntry) : Prop :=
  e.key.isExtended = true → v.supports .extendedPermissions = true ∧ ∃ x, e.datum.extended = some x

theorem AccessEntry.encode_ok {v : FormatVersion} {e : AccessEntry} (writable : e.Writable v) :
    ∃ bytes, e.encode v = .ok bytes := by
  rw [AccessEntry.encode]
  cases extended : e.key.isExtended with
  | false => exact ⟨_, rfl⟩
  | true =>
    obtain ⟨supported, x, datum⟩ := writable extended
    rw [supported, datum]
    exact ⟨_, rfl⟩

theorem AccessTable.encode_ok {v : FormatVersion} {t : AccessTable} (tagged : v.supports .taggedRecords = true)
    (writable : ∀ e ∈ t.toList, e.Writable v) : ∃ bytes, t.encode v = .ok bytes := by
  obtain ⟨records, run⟩ := Except.exists_mapM fun e he => AccessEntry.encode_ok (writable e he)
  rw [AccessTable.encode, tagged, run]
  exact ⟨_, rfl⟩

/-- A bound of the range takes more bits than there is room for before 64-bit addresses. -/
def RegionContext.Wide (r : RegionContext) : Prop :=
  wordBound ≤ r.low ∨ wordBound ≤ r.high

namespace KernelPolicy

variable {p : KernelPolicy}

/-- Every rule that is written, outside conditionals and in their branches, can be. -/
structure RulesWritable (p : KernelPolicy) : Prop where
  rules : ∀ e ∈ p.rules.toList, e.Writable p.version
  whenTrue : ∀ c ∈ p.conditionals, ∀ e ∈ c.whenTrue.filterMap p.conditionalRules.entry?, e.Writable p.version
  whenFalse : ∀ c ∈ p.conditionals, ∀ e ∈ c.whenFalse.filterMap p.conditionalRules.entry?, e.Writable p.version

theorem encodeBranch_ok {handles : List Nat}
    (writable : ∀ e ∈ handles.filterMap p.conditionalRules.entry?, e.Writable p.version) :
    ∃ bytes, p.encodeBranch handles = .ok bytes := by
  obtain ⟨records, run⟩ := Except.exists_mapM fun e he => AccessEntry.encode_ok (writable e he)
  rw [encodeBranch, run]
  exact ⟨_, rfl⟩

theorem encodeConditionals_ok (writable : p.RulesWritable) : ∃ bytes, p.encodeConditionals = .ok bytes := by
  have nodes : ∀ c ∈ p.conditionals, ∃ bytes, p.encodeConditional c = .ok bytes := by
    intro c hc
    obtain ⟨whenTrue, first⟩ := encodeBranch_ok (writable.whenTrue c hc)
    obtain ⟨whenFalse, second⟩ := encodeBranch_ok (writable.whenFalse c hc)
    rw [encodeConditional, first, second]
    exact ⟨_, rfl⟩
  obtain ⟨pieces, run⟩ := Except.exists_mapM nodes
  rw [encodeConditionals, run]
  exact ⟨_, rfl⟩

theorem encodeMemory_ok {v : FormatVersion} {r : RegionContext}
    (fits : v.supports .wideMemory = true ∨ ¬ r.Wide) : ∃ bytes, encodeMemory v r = .ok bytes := by
  rw [encodeMemory]
  cases wide : v.supports .wideMemory with
  | true => exact ⟨_, rfl⟩
  | false =>
    have narrow : ¬ r.Wide := fits.resolve_left (by simp [wide])
    rw [RegionContext.Wide, not_or] at narrow
    rw [if_neg Bool.false_ne_true, if_neg narrow.1, if_neg narrow.2]
    exact ⟨_, rfl⟩

theorem encodeMemory_error {v : FormatVersion} {r : RegionContext} (narrow : v.supports .wideMemory = false)
    (wide : r.Wide) : ∃ address, encodeMemory v r = .error (.version v.number (.wideAddress address)) := by
  rw [encodeMemory, narrow, if_neg Bool.false_ne_true]
  by_cases low : wordBound ≤ r.low
  · rw [if_pos low]
    exact ⟨r.low, rfl⟩
  · rw [if_neg low, if_pos (wide.resolve_left low)]
    exact ⟨r.high, rfl⟩

/-- The policy is for the target that has memory ranges, its version has no 64-bit addresses, and
some range needs them. -/
def TooWide (p : KernelPolicy) : Prop :=
  p.target = .xen ∧ p.version.supports .wideMemory = false ∧ ∃ r ∈ p.objects.ioMemory, r.Wide

theorem encodeObjects_ok (fits : ¬ p.TooWide) : ∃ bytes, p.encodeObjects = .ok bytes := by
  rw [encodeObjects]
  cases target : p.target with
  | selinux => exact ⟨_, rfl⟩
  | xen =>
    have regions : ∀ r ∈ p.objects.ioMemory, ∃ bytes, encodeMemory p.version r = .ok bytes := by
      intro r hr
      apply encodeMemory_ok
      cases wide : p.version.supports .wideMemory with
      | true => exact .inl rfl
      | false => exact .inr fun needs => fits ⟨target, wide, r, hr, needs⟩
    obtain ⟨memory, run⟩ := Except.exists_mapM regions
    dsimp only
    rw [encodeXenObjects, run]
    exact ⟨_, rfl⟩

theorem encodeObjects_error (wide : p.TooWide) :
    ∃ address, p.encodeObjects = .error (.version p.version.number (.wideAddress address)) := by
  obtain ⟨target, narrow, r, hr, needs⟩ := wide
  have errors : ∀ r ∈ p.objects.ioMemory, ∀ e, encodeMemory p.version r = .error e →
      ∃ address, e = .version p.version.number (.wideAddress address) := by
    intro r _ e fails
    by_cases wide : r.Wide
    · obtain ⟨address, run⟩ := encodeMemory_error narrow wide
      cases fails.symm.trans run
      exact ⟨address, rfl⟩
    · obtain ⟨bytes, run⟩ := encodeMemory_ok (v := p.version) (.inr wide)
      cases fails.symm.trans run
  obtain ⟨address, fails⟩ := encodeMemory_error narrow needs
  obtain ⟨_, run, address, rfl⟩ := Except.mapM_error errors hr fails
  refine ⟨address, ?_⟩
  rw [encodeObjects, target]
  dsimp only
  rw [encodeXenObjects, run]
  rfl

/-- A version that is written has tagged records. -/
theorem supports_taggedRecords {v : FormatVersion} (writable : v.writable = true) :
    v.supports .taggedRecords = true := by
  rw [FormatVersion.writable, Bool.and_eq_true, decide_eq_true_eq] at writable
  exact decide_eq_true (Nat.le_trans (by decide) writable.1)

theorem encode_ok (writable : p.version.writable = true) (rules : p.RulesWritable) (fits : ¬ p.TooWide) :
    ∃ bytes, p.encode = .ok bytes := by
  obtain ⟨table, hrules⟩ := AccessTable.encode_ok (supports_taggedRecords writable) rules.rules
  obtain ⟨conditionals, hconditionals⟩ := encodeConditionals_ok rules
  obtain ⟨objects, hobjects⟩ := encodeObjects_ok fits
  rw [encode, writable, hrules, hconditionals, hobjects]
  exact ⟨_, rfl⟩

/-- What is left to refuse is a memory range. -/
theorem encode_error (writable : p.version.writable = true) (rules : p.RulesWritable) (wide : p.TooWide) :
    ∃ address, p.encode = .error (.version p.version.number (.wideAddress address)) := by
  obtain ⟨table, hrules⟩ := AccessTable.encode_ok (supports_taggedRecords writable) rules.rules
  obtain ⟨conditionals, hconditionals⟩ := encodeConditionals_ok rules
  obtain ⟨address, hobjects⟩ := encodeObjects_error wide
  refine ⟨address, ?_⟩
  rw [encode, writable, hrules, hconditionals, hobjects]
  rfl

end KernelPolicy

end CilPolicy
