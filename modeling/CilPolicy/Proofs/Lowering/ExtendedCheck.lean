import CilPolicy.Proofs.Lowering.NeverAllow

/-!
# The check of forbidden numbers

A rule that forbids numbers of extended permissions is checked entry by entry: the
entry has to allow the permission that the numbers refine, and the records that count
are those under the entry's own key. The kernel puts together what it finds under all
keys of a pair of types. So a forbidden number is granted after the check exactly when
one key allows the permission and another key's record lets the number through.
-/

namespace CilPolicy

/-- The record lets the number through. -/
def AccessEntry.admits (x : AccessEntry) (n : Nat) : Bool :=
  x.datum.extended.any (·.admits (n / 256 % 256) (n % 256))

namespace KernelPolicy

variable {k : KernelPolicy} {source target cls : String}

/-- The entry allows the permission to the names. -/
structure Allows (k : KernelPolicy) (e : AccessEntry) (source target cls : String) (permission : Nat) :
    Prop where
  kinds : e.key.kinds.overlap RuleKinds.allowed = true
  names : k.Concerns e.key source target cls
  bit : e.datum.data.getLsbD permission = true

/-- The entry is a record of extended permissions that are allowed to the names. -/
structure Records (k : KernelPolicy) (x : AccessEntry) (source target cls : String) : Prop where
  kinds : x.key.kinds.overlap RuleKinds.extendedAllowed = true
  names : k.Concerns x.key source target cls

instance (k : KernelPolicy) (e : AccessEntry) (source target cls : String) (permission : Nat) :
    Decidable (k.Allows e source target cls permission) :=
  decidable_of_iff (e.key.kinds.overlap RuleKinds.allowed = true ∧ k.Concerns e.key source target cls ∧
      e.datum.data.getLsbD permission = true)
    ⟨fun ⟨kinds, names, bit⟩ => ⟨kinds, names, bit⟩, fun h => ⟨h.kinds, h.names, h.bit⟩⟩

instance (k : KernelPolicy) (x : AccessEntry) (source target cls : String) :
    Decidable (k.Records x source target cls) :=
  decidable_of_iff (x.key.kinds.overlap RuleKinds.extendedAllowed = true ∧
      k.Concerns x.key source target cls)
    ⟨fun ⟨kinds, names⟩ => ⟨kinds, names⟩, fun h => ⟨h.kinds, h.names⟩⟩

/-- The number is granted to the names: the permission that it refines is allowed, and
either there is no record for the names, or one lets the number through. -/
def GrantsNumber (k : KernelPolicy) (source target cls : String) (permission n : Nat) : Prop :=
  (∃ e ∈ k.rules.toList, k.Allows e source target cls permission) ∧
    ((∀ x ∈ k.rules.toList, ¬ k.Records x source target cls) ∨
      ∃ x ∈ k.rules.toList, k.Records x source target cls ∧ x.admits n = true)

/-- The permission is allowed by an entry under one key, and the number is let through by
a record under another. -/
def GrantsAcross (k : KernelPolicy) (source target cls : String) (permission n : Nat) : Prop :=
  ∃ e ∈ k.rules.toList, k.Allows e source target cls permission ∧
    ∃ x ∈ k.rules.toList, k.Records x source target cls ∧ x.admits n = true ∧
      e.key.place ≠ x.key.place

instance (k : KernelPolicy) (source target cls : String) (permission n : Nat) :
    Decidable (k.GrantsNumber source target cls permission n) :=
  inferInstanceAs (Decidable (_ ∧ _))

theorem Concerns.of_place {a b : AccessKey} (names : k.Concerns a source target cls)
    (same : a.place = b.place) : k.Concerns b source target cls := by
  obtain ⟨hsource, htarget, hcls⟩ := AccessKey.place_injective same
  rw [Concerns] at names ⊢
  rwa [← hsource, ← htarget, ← hcls]

end KernelPolicy

namespace Lowering

variable {l : Lowering} {k : KernelPolicy}

/-! ### What the records of a key let through -/

theorem mem_allowedRecords {table : AccessTable} {key : AccessKey} {x : AccessEntry} :
    x ∈ allowedRecords table key ↔ x ∈ table.toList ∧
      x.key.kinds.overlap RuleKinds.extendedAllowed = true ∧ x.key.place = key.place := by
  simp [allowedRecords, List.mem_filter]

theorem admitsAny_of_admits {numbers : BitSet} {x : AccessEntry} {n : Nat} (hn : n ∈ numbers)
    (admits : x.admits n = true) : admitsAny numbers x = true := by
  obtain ⟨set, hset, h⟩ := (Option.any_eq_true _ _).mp admits
  simp only [admitsAny, hset]
  exact List.any_eq_true.mpr ⟨n, BitSet.mem_toList_of_mem hn, h⟩

/-- When a key does not reach the numbers, it has records, and none lets one through. -/
theorem reaches_eq_false {table : AccessTable} {key : AccessKey} {numbers : BitSet}
    (h : reaches table key numbers = false) :
    (∃ x, x ∈ allowedRecords table key) ∧
      ∀ x ∈ allowedRecords table key, ∀ n ∈ numbers, x.admits n ≠ true := by
  obtain ⟨stored, none⟩ := Bool.or_eq_false_iff.mp h
  constructor
  · exact List.exists_mem_of_ne_nil _ (by simpa using stored)
  · intro x hx n hn admits
    have refused := List.any_eq_false.mp none x hx
    exact refused (admitsAny_of_admits hn admits)

/-! ### The permission that numbers refine -/

theorem hasIoctl_of_silent {location : Location} {spec : ExtendedSpec Id BitSet}
    (silent : l.db.ioctlFault location spec = []) : l.db.hasIoctl spec.cls = true := by
  rw [EvaluatedDatabase.ioctlFault] at silent
  split at silent
  · assumption
  · cases silent

/-- The rules of a verified policy give numbers to kernel classes that have the
permission. -/
theorem exists_ioctl (passed : l.db.Passed) {r : PlacedRule} (hr : r ∈ l.db.rules) {kind : AccessKind}
    {source : Id} {target : RuleTarget} {permissions : ExtendedArg Id BitSet}
    (hrule : r.rule = .extended kind source target permissions) {spec : ExtendedSpec Id BitSet}
    (hspec : l.db.extendedSpec? permissions = some spec) :
    ∃ c p, l.db.classes.value? spec.cls = some c ∧ c.isMap = false ∧
      l.db.findPermission? c "ioctl" = some p := by
  obtain ⟨named, given⟩ := List.append_eq_nil_iff.mp passed.extended
  have fits := passed.resolved.rules r hr
  rw [hrule] at fits
  obtain ⟨⟨c, declared, plain⟩, _⟩ := passed.resolved.specFits fits hspec
  have ioctl : l.db.hasIoctl spec.cls = true := by
    cases permissions with
    | named id =>
      obtain ⟨d, hd, hdspec⟩ := Registry.value?_eq_some.mp (Option.join_eq_some_iff.mp hspec)
      have silent := List.flatMap_eq_nil_iff.mp named d (Registry.mem_toList_of_get? hd)
      rw [hdspec] at silent
      exact hasIoctl_of_silent silent
    | given given' =>
      cases hspec
      have silent := List.flatMap_eq_nil_iff.mp given r hr
      rw [hrule] at silent
      exact hasIoctl_of_silent silent
  obtain ⟨c', declared', found⟩ := Registry.test_iff.mp ioctl
  cases declared.symm.trans declared'
  obtain ⟨p, hp⟩ := Option.isSome_iff_exists.mp found
  exact ⟨c, p, declared, plain, hp⟩

/-- A rule on numbers that could be lowered has numbers. -/
theorem exists_extendedSpec (done : l.rules.faults = []) {r : PlacedRule} (hr : r ∈ l.db.rules)
    {kind : AccessKind} {source : Id} {target : RuleTarget} {permissions : ExtendedArg Id BitSet}
    (hrule : r.rule = .extended kind source target permissions) :
    ∃ spec, l.db.extendedSpec? permissions = some spec := by
  obtain ⟨t, step⟩ := Step.gather_done done r hr
  simp only [addRule, hrule, addExtended] at step
  cases hspec : l.db.extendedSpec? permissions with
  | none =>
    rw [hspec] at step
    cases step
  | some spec => exact ⟨spec, rfl⟩

/-- The word of the permission marks it. -/
theorem getLsbD_ioctlGrant {cls : Id} {c : ClassInfo} {p : Nat}
    (declared : l.db.classes.value? cls = some c) (hp : l.db.findPermission? c "ioctl" = some p)
    (lt : p < 32) : (l.ioctlGrant cls).word.getLsbD p = true := by
  simp only [ioctlGrant, declared, Option.bind_some, hp]
  rw [BitVec.getLsbD_shiftLeft]
  simp [lt]

/-! ### Entries that pass the check -/

section Checked

variable {r : PlacedRule} {source : Id} {target : RuleTarget} {permissions : ExtendedArg Id BitSet}
  {spec : ExtendedSpec Id BitSet} {c : ClassInfo} {p : Nat} {s t : Id}
  (built : l.Built k) (numbered : l.Numbered) (passed : l.db.Passed)
  (check : l.options.checkNeverAllow = true) (hr : r ∈ l.db.rules)
  (hrule : r.rule = .extended .neverAllow source target permissions)
  (hspec : l.db.extendedSpec? permissions = some spec)
  (declared : l.db.classes.value? spec.cls = some c) (kernel : c.isMap = false)
  (ioctl : l.db.findPermission? c "ioctl" = some p) (aims : l.db.Aims source target s t)

include built numbered passed check hr hrule hspec declared kernel ioctl aims

/-- An entry that has passed the check has records under its own key, and none of them
lets a forbidden number through. -/
theorem records_of_checked {e : AccessEntry} (he : e ∈ k.rules.toList)
    (allows : k.Allows e (l.db.types.nameOf s) (l.db.types.nameOf t) (l.db.classes.nameOf spec.cls) p) :
    (∃ x, x ∈ allowedRecords k.rules e.key) ∧
      ∀ x ∈ allowedRecords k.rules e.key, ∀ n ∈ spec.numbers, x.admits n ≠ true := by
  obtain ⟨source', target'⟩ := passed.evaluated.concrete_of_aims aims
  have proper : l.db.Proper ⟨s, t, spec.cls, p⟩ :=
    ⟨source', target', c, declared, kernel, Database.lt_of_findPermission? ioctl⟩
  have speaks := (built.concerns_iff numbered passed proper).mp allows.names
  have lt : p < 32 := proper.lt_word passed
  let rule : NeverAllow := ⟨r.location, l.db.expandType source, l.targetTypes target,
    [l.ioctlGrant spec.cls], some spec.numbers⟩
  have forbids : l.forbidding? r = some rule := by
    simp only [forbidding?, hrule, hspec, Option.map_some, rule]
  have checked := (mem_allNeverAllows passed.declarations built.conditionalsDone).mpr ⟨r, hr, forbids⟩
  have unbroken := breaches_of_checkNeverAllows (built.checked check) rule checked
  have noBreach := breaches_eq_nil.mp unbroken k.rules List.mem_cons_self e he
  have covers : l.coversKey rule e.key = true :=
    (coversKey_iff passed.evaluated ⟨rfl, rfl⟩).mpr ⟨s, t, aims, speaks.source, speaks.target⟩
  have forbidden : ∃ g, l.forbidden? rule e.key = some g ∧ e.datum.data &&& g.word ≠ 0 := by
    refine ⟨l.ioctlGrant spec.cls, ?_, ?_⟩
    · have same : l.classes.value? (l.ioctlGrant spec.cls).cls = some e.key.cls.toNat := speaks.cls
      simp [forbidden?, rule, same]
    · exact exists_getLsbD_of_ne_zero.mpr
        ⟨p, lt, allows.bit, getLsbD_ioctlGrant declared ioctl lt⟩
  refine reaches_eq_false ?_
  cases reached : reaches k.rules e.key spec.numbers with
  | false => rfl
  | true =>
    obtain ⟨g, breach⟩ := breach?_eq_some.mpr ⟨allows.kinds, covers, forbidden, reached⟩
    cases noBreach.symm.trans breach

/-- After the check a forbidden number is granted exactly when the permission and the
number come from entries under different keys. -/
theorem grantsNumber_iff {n : Nat} (hn : n ∈ spec.numbers) :
    k.GrantsNumber (l.db.types.nameOf s) (l.db.types.nameOf t) (l.db.classes.nameOf spec.cls) p n ↔
      k.GrantsAcross (l.db.types.nameOf s) (l.db.types.nameOf t) (l.db.classes.nameOf spec.cls) p n := by
  have own := fun {e} => records_of_checked (e := e) built numbered passed check hr hrule hspec declared
    kernel ioctl aims
  constructor
  · rintro ⟨⟨e, he, allows⟩, none | ⟨x, hx, records, admits⟩⟩
    · obtain ⟨⟨x, hx⟩, _⟩ := own he allows
      obtain ⟨mem, kinds, same⟩ := mem_allowedRecords.mp hx
      exact absurd ⟨kinds, allows.names.of_place same.symm⟩ (none x mem)
    · refine ⟨e, he, allows, x, hx, records, admits, fun same => ?_⟩
      obtain ⟨_, refused⟩ := own he allows
      exact refused x (mem_allowedRecords.mpr ⟨hx, records.kinds, same.symm⟩) n hn admits
  · rintro ⟨e, he, allows, x, hx, records, admits, _⟩
    exact ⟨⟨e, he, allows⟩, Or.inr ⟨x, hx, records, admits⟩⟩

end Checked

end Lowering

namespace EvaluatedDatabase

variable {db : EvaluatedDatabase} {settings : Settings} {options : LoweringOptions} {k : KernelPolicy}

/-- A rule that forbids numbers has numbers of a class with the permission that they
refine. In a policy that has passed the check, a pair of types that the rule speaks of is
granted one of these numbers exactly when an entry under one key allows the permission
and a record under another key lets the number through. -/
theorem forbidden_number_granted_iff (verified : db.Verified)
    (check : options.checkNeverAllow = true) (run : (db.lower settings options).outcome.1 = .ok k)
    {r : PlacedRule} (hr : r ∈ db.rules) {source : Id} {target : RuleTarget}
    {permissions : ExtendedArg Id BitSet}
    (hrule : r.rule = .extended .neverAllow source target permissions) :
    ∃ spec c p, db.extendedSpec? permissions = some spec ∧ db.classes.value? spec.cls = some c ∧
      db.findPermission? c "ioctl" = some p ∧
      ∀ s t n, db.Aims source target s t → n ∈ spec.numbers →
        (k.GrantsNumber (db.types.nameOf s) (db.types.nameOf t) (db.classes.nameOf spec.cls) p n ↔
          k.GrantsAcross (db.types.nameOf s) (db.types.nameOf t) (db.classes.nameOf spec.cls) p n) := by
  have passed := verified.passed
  have built := built_of_lower run
  have numbered := Lowering.numbered_new db settings options
  obtain ⟨spec, hspec⟩ := Lowering.exists_extendedSpec built.rulesDone hr hrule
  obtain ⟨c, p, declared, kernel, ioctl⟩ := Lowering.exists_ioctl
    (l := Lowering.new db settings options) passed hr hrule hspec
  refine ⟨spec, c, p, hspec, declared, ioctl, fun s t n aims hn => ?_⟩
  exact Lowering.grantsNumber_iff built numbered passed check hr hrule hspec declared kernel ioctl aims hn

/-- A policy that allows the permission to an attribute, and the number to one of its
types by a rule of its own. -/
def splitPolicy : List Statement :=
  let number (n : String) : ExtendedArg String (Expr String) := .given ⟨"file", .list [.item n]⟩
  smallPolicy [.plain {} (.access .allow "both" "b" (.given "file" (.list [.item "ioctl"]))),
    .plain {} (.extended .allow "both" "b" (number "0x20")),
    .plain {} (.extended .allow "a" "b" (number "0x10")),
    .plain {} (.extended .neverAllow "a" "b" (number "0x10"))]

theorem splitPolicy_lowers : lowersTo splitPolicy {} (fun db _ k =>
    db.types.nameOf 0 == "a" && db.types.nameOf 1 == "b" && db.classes.nameOf 0 == "file" &&
    (db.expandType 0).has 0 && (db.expandType 1).has 1 &&
    (db.classes.value? 0).bind (db.findPermission? · "ioctl") == some 1 &&
    db.rules.any (·.rule == .extended .neverAllow 0 (.type 1) (.given ⟨0, BitSet.singleton 16⟩)) &&
    decide (k.GrantsNumber "a" "b" "file" 1 16)) = true := by
  decide +kernel

/-- A small policy passes the check and grants a number that it forbids. -/
theorem forbidden_number_granted_small :
    ∃ (db : EvaluatedDatabase) (settings : Settings) (k : KernelPolicy), db.Verified ∧
      (db.lower settings {}).outcome.1 = .ok k ∧
      (∃ r ∈ db.rules, r.rule = .extended .neverAllow 0 (.type 1) (.given ⟨0, BitSet.singleton 16⟩)) ∧
      k.GrantsNumber "a" "b" "file" 1 16 ∧ k.GrantsAcross "a" "b" "file" 1 16 := by
  obtain ⟨db, settings, k, verified, run, tested⟩ := exists_lowered splitPolicy_lowers
  simp only [Bool.and_eq_true, beq_iff_eq, decide_eq_true_eq, List.any_eq_true] at tested
  obtain ⟨⟨⟨⟨⟨⟨⟨a, b⟩, file⟩, source⟩, target⟩, permission⟩, r, hr, hrule⟩, grants⟩ := tested
  refine ⟨db, settings, k, verified, run, ⟨r, hr, hrule⟩, grants, ?_⟩
  obtain ⟨spec, c, p, hspec, declared, ioctl, iff⟩ :=
    forbidden_number_granted_iff verified rfl run hr hrule
  cases hspec
  dsimp only at declared iff
  rw [declared, Option.bind_some, ioctl] at permission
  cases permission
  rw [← a, ← b, ← file] at grants ⊢
  refine (iff 0 1 16 ⟨source, target⟩ ?_).mp grants
  exact (BitSet.mem_singleton).mpr rfl

end EvaluatedDatabase

end CilPolicy
