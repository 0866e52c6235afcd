import CilPolicy.Proofs.Lowering.Policy

/-!
# Access rules keep their meaning

What the tables of a kernel policy say of a pair of concrete types is read as the
kernel reads it: an entry counts when its source and target are among the values of
the two types in the attribute map. Read in this way, the tables say exactly what the
access rules of the policy state, in and outside conditionals, and whichever
attributes are kept.
-/

namespace CilPolicy

theorem forall₂_getElem? {α β : Type} {r : α → β → Prop} {as : List α} {bs : List β}
    (h : List.Forall₂ r as bs) (i : Nat) :
    (as[i]? = none ∧ bs[i]? = none) ∨ ∃ a b, as[i]? = some a ∧ bs[i]? = some b ∧ r a b := by
  induction h generalizing i with
  | nil => exact Or.inl ⟨rfl, rfl⟩
  | cons first _ ih =>
    cases i with
    | zero => exact Or.inr ⟨_, _, rfl, rfl, first⟩
    | succ i => exact ih i

theorem forall₂_comp {α β γ : Type} {r : α → β → Prop} {s : β → γ → Prop} {as : List α} {bs : List β}
    {cs : List γ} (first : List.Forall₂ r as bs) (second : List.Forall₂ s bs cs) :
    List.Forall₂ (fun a c => ∃ b, r a b ∧ s b c) as cs := by
  induction first generalizing cs with
  | nil =>
    cases second
    exact .nil
  | cons h _ ih =>
    cases second with
    | cons h' rest => exact .cons ⟨_, h, h'⟩ (ih rest)

/-! ### Places of rules -/

/-- Where a rule stands: outside conditionals, or in the arm of a conditional. -/
inductive RulePlace where
  | top
  | arm (conditional : Nat) (value : Bool)

/-- The rules of the place. -/
def Database.rulesAt (db : Database) : RulePlace → List PlacedRule
  | .top => db.rules
  | .arm i value => (db.conditionals[i]?.map fun c => c.rules value).getD []

/-- The handles of the arm that is taken for the value. -/
def ConditionalNode.arm (node : ConditionalNode) (value : Bool) : List Nat :=
  if value then node.whenTrue else node.whenFalse

namespace KernelPolicy

/-- The entries of the place. -/
def entriesAt (k : KernelPolicy) : RulePlace → List AccessEntry
  | .top => k.rules.toList
  | .arm i value =>
    (k.conditionals[i]?.map fun node => (node.arm value).filterMap k.conditionalRules.entry?).getD []

/-- The value is in the row of the type value. -/
def Maps (k : KernelPolicy) (type value : Nat) : Prop :=
  0 < value ∧ value - 1 ∈ k.typeAttributes.getD (type - 1) ∅

/-- The key is one for the named types and class: its values are among those of the
types. -/
def Concerns (k : KernelPolicy) (key : AccessKey) (source target cls : String) : Prop :=
  ∃ s t c, k.types.find? source = some s ∧ k.types.find? target = some t ∧
    k.classes.find? cls = some c ∧ k.Maps s.value key.source.toNat ∧
    k.Maps t.value key.target.toNat ∧ key.cls.toNat = c.value

instance (k : KernelPolicy) (type value : Nat) : Decidable (k.Maps type value) :=
  inferInstanceAs (Decidable (_ ∧ _))

instance (k : KernelPolicy) (key : AccessKey) (source target cls : String) :
    Decidable (k.Concerns key source target cls) :=
  match hs : k.types.find? source, ht : k.types.find? target, hc : k.classes.find? cls with
  | some s, some t, some c =>
    decidable_of_iff (k.Maps s.value key.source.toNat ∧ k.Maps t.value key.target.toNat ∧
      key.cls.toNat = c.value) (by simp [Concerns, hs, ht, hc])
  | none, _, _ => isFalse (by simp [Concerns, hs])
  | _, none, _ => isFalse (by simp [Concerns, ht])
  | _, _, none => isFalse (by simp [Concerns, hc])

/-- An entry of the kinds, under a key for the named types and class, marks the
permission. -/
def Marks (k : KernelPolicy) (kinds : RuleKinds) (place : RulePlace) (source target cls : String)
    (permission : Nat) : Prop :=
  ∃ e ∈ k.entriesAt place, e.key.kinds.overlap kinds = true ∧ k.Concerns e.key source target cls ∧
    marked kinds e.datum.data permission = true

instance (k : KernelPolicy) (kinds : RuleKinds) (place : RulePlace) (source target cls : String)
    (permission : Nat) : Decidable (k.Marks kinds place source target cls permission) :=
  inferInstanceAs (Decidable (∃ e ∈ k.entriesAt place, _))

end KernelPolicy

namespace EvaluatedDatabase

/-- The access is one that the kernel can ask for: its types are concrete, and its
permission is one of a kernel class. -/
structure Proper (db : EvaluatedDatabase) (a : Access) : Prop where
  source : db.IsConcrete a.source
  target : db.IsConcrete a.target
  cls : ∃ c, db.classes.value? a.cls = some c ∧ c.isMap = false ∧ a.permission < db.permissionCount c

instance (db : EvaluatedDatabase) (a : Access) : Decidable (db.Proper a) :=
  decidable_of_iff (db.IsConcrete a.source ∧ db.IsConcrete a.target ∧
      db.classes.test a.cls (fun c => !c.isMap && decide (a.permission < db.permissionCount c)) = true) (by
    simp only [Registry.test_iff, Bool.and_eq_true, Bool.not_eq_true', decide_eq_true_eq]
    exact ⟨fun ⟨source, target, cls⟩ => ⟨source, target, cls⟩,
      fun proper => ⟨proper.source, proper.target, proper.cls⟩⟩)

theorem Proper.lt_word {db : EvaluatedDatabase} {a : Access} (proper : db.Proper a)
    (passed : db.Passed) : a.permission < 32 := by
  obtain ⟨c, declared, kernel, lt⟩ := proper.cls
  exact Nat.lt_of_lt_of_le lt (passed.resolved.classes a.cls c declared kernel)

end EvaluatedDatabase

namespace Lowering

variable {l : Lowering} {k : KernelPolicy}

/-- The lowered access rules of the place. -/
def accessAt (l : Lowering) : RulePlace → AccessRules
  | .top => l.rules.table.access
  | .arm i value => (l.db.conditionals[i]?.map fun c =>
      (l.armRules l.rules.table.access c value).table.access).getD {}

theorem accessAt_kindsFit (place : RulePlace) : (l.accessAt place).KindsFit := by
  cases place with
  | top => exact rules_kindsFit
  | arm i value =>
    rw [accessAt]
    cases l.db.conditionals[i]? with
    | none => exact AccessRules.kindsFit_empty
    | some c => exact armRules_kindsFit

/-- Each conditional has a node, whose handles lead to the rules of its arms. -/
structure NodeOf (l : Lowering) (k : KernelPolicy) (c : Conditional) (node : ConditionalNode) : Prop where
  done : ∀ value, (l.armRules l.rules.table.access c value).faults = []
  entries : ∀ value, (node.arm value).filterMap k.conditionalRules.entry? =
    (l.armRules l.rules.table.access c value).table.access.toEntries

theorem Built.nodes (built : l.Built k) :
    List.Forall₂ (l.NodeOf k) l.db.conditionals k.conditionals := by
  obtain ⟨_, _, lowered, hlowered, lowers⟩ := foldl_addConditional built.conditionalsDone
  have same : l.loweredConditionals.table.conditionals = lowered := hlowered
  obtain ⟨_, _, leads⟩ := conditionalTable_spec (l := l) l.loweredConditionals.table.conditionals
  rw [built.conditionals, same] at leads
  refine (forall₂_comp lowers leads).imp ?_
  rintro c node ⟨lc, arms, leads⟩
  constructor
  · intro value
    cases value with
    | true => exact arms.trueDone
    | false => exact arms.falseDone
  · intro value
    cases value with
    | true => exact (leads.whenTrue _ List.prefix_rfl).trans (by rw [arms.whenTrue])
    | false => exact (leads.whenFalse _ List.prefix_rfl).trans (by rw [arms.whenFalse])

/-- The entries of a place are those of its lowered rules. -/
theorem Built.mem_entriesAt (built : l.Built k) (place : RulePlace) {e : AccessEntry} :
    e ∈ k.entriesAt place ↔ e ∈ (l.accessAt place).toEntries := by
  cases place with
  | top =>
    obtain ⟨listed, entries⟩ := accessTable_spec built.rules
    rw [KernelPolicy.entriesAt, AccessTable.mem_toList listed, entries]
    rfl
  | arm i value =>
    rw [KernelPolicy.entriesAt, accessAt]
    rcases forall₂_getElem? built.nodes i with ⟨none, none'⟩ | ⟨c, node, hc, hnode, leads⟩
    · simp [none, none', AccessRules.toEntries]
    · simp [hc, hnode, leads.entries value]

/-- The lowered rules of a place mark what the rules of the place state. -/
theorem Built.accessAt_iff (built : l.Built k) (numbered : l.Numbered) (passed : l.db.Passed)
    {kind : AccessKind} {kinds : RuleKinds} (hkind : kind.kinds? = some kinds) {a : Access}
    (hp : a.permission < 32) (place : RulePlace) :
    l.Marks (l.accessAt place) kinds a ↔ ∃ r ∈ l.db.rulesAt place, l.db.States kind r.rule a := by
  cases place with
  | top => exact rules_iff numbered passed hp hkind built.rulesDone
  | arm i value =>
    rw [accessAt, Database.rulesAt]
    rcases forall₂_getElem? built.nodes i with ⟨none, _⟩ | ⟨c, node, hc, _, leads⟩
    · simp [none, not_marks_empty]
    · simp only [hc, Option.map_some, Option.getD_some]
      exact armRules_iff numbered passed hp hkind (leads.done value)

/-- The row of a concrete type has the values that cover it. -/
theorem Built.maps_iff (built : l.Built k) (numbered : l.Numbered) (evaluated : l.db.Evaluated) {s : Id}
    (concrete : l.db.IsConcrete s) {sv : Nat} (hsv : l.types.value? s = some sv) {v : Nat} :
    k.Maps sv v ↔ l.Covers v s := by
  rw [KernelPolicy.Maps, built.typeAttributes, mem_typeAttributes numbered evaluated concrete hsv]
  cases v with
  | zero =>
    constructor
    · rintro ⟨h, _⟩
      exact absurd h (Nat.lt_irrefl 0)
    · rintro ⟨_, h, _⟩
      cases h
  | succ v => simp

/-- The keys for the names of two concrete types and a kernel class are those that speak of
them. -/
theorem Built.concerns_iff_speaks (built : l.Built k) (numbered : l.Numbered) (passed : l.db.Passed)
    {a : Access} (source : l.db.IsConcrete a.source) (target : l.db.IsConcrete a.target) {c : ClassInfo}
    (declared : l.db.classes.value? a.cls = some c) (kernel : c.isMap = false) {key : AccessKey} :
    k.Concerns key (l.db.types.nameOf a.source) (l.db.types.nameOf a.target)
        (l.db.classes.nameOf a.cls) ↔ l.Speaks key a := by
  obtain ⟨sv, hsv⟩ := numbered.exists_typeValue source
  obtain ⟨tv, htv⟩ := numbered.exists_typeValue target
  obtain ⟨cv, hcv⟩ := numbered.exists_classValue passed.placed declared kernel
  obtain ⟨s, hs, _, rfl⟩ := find?_typeSymbols built.types source hsv
  obtain ⟨t, ht, _, rfl⟩ := find?_typeSymbols built.types target htv
  obtain ⟨cls, hcls, rfl⟩ := find?_classSymbols built.classes declared hcv
  rw [KernelPolicy.Concerns]
  simp only [hs, ht, hcls, Option.some.injEq, exists_and_left, exists_eq_left',
    built.maps_iff numbered passed.evaluated source hsv,
    built.maps_iff numbered passed.evaluated target htv]
  constructor
  · rintro ⟨hsource, htarget, heq⟩
    exact ⟨hsource, htarget, heq ▸ hcv⟩
  · rintro ⟨hsource, htarget, hclass⟩
    exact ⟨hsource, htarget, Option.some.inj (hclass.symm.trans hcv)⟩

/-- The keys for the names of an access are those that speak of it. -/
theorem Built.concerns_iff (built : l.Built k) (numbered : l.Numbered) (passed : l.db.Passed)
    {a : Access} (proper : l.db.Proper a) {key : AccessKey} :
    k.Concerns key (l.db.types.nameOf a.source) (l.db.types.nameOf a.target)
        (l.db.classes.nameOf a.cls) ↔ l.Speaks key a := by
  obtain ⟨c, declared, kernel, _⟩ := proper.cls
  exact built.concerns_iff_speaks numbered passed proper.source proper.target declared kernel

/-- What the policy marks under the names of an access, its lowered rules mark. -/
theorem Built.marks_iff (built : l.Built k) (numbered : l.Numbered) (passed : l.db.Passed)
    {kinds : RuleKinds} (vector : kinds ∈ RuleKinds.vectorKinds) {a : Access} (proper : l.db.Proper a)
    (place : RulePlace) :
    k.Marks kinds place (l.db.types.nameOf a.source) (l.db.types.nameOf a.target)
        (l.db.classes.nameOf a.cls) a.permission ↔
      l.Marks (l.accessAt place) kinds a := by
  rw [KernelPolicy.Marks, Marks, ← AccessRules.exists_toEntries (accessAt_kindsFit place) vector]
  simp only [built.concerns_iff numbered passed proper, built.mem_entriesAt place]

end Lowering

namespace EvaluatedDatabase

variable {db : EvaluatedDatabase} {settings : Settings} {options : LoweringOptions} {k : KernelPolicy}

theorem built_of_lower (run : (db.lower settings options).outcome.1 = .ok k) :
    (Lowering.new db settings options).Built k :=
  Lowering.built_of_policy (Report.yields_of_outcome run)

/-- What a kernel policy marks is what the access rules of its source state. -/
theorem marks_iff_states (passed : db.Passed) (run : (db.lower settings options).outcome.1 = .ok k)
    {kind : AccessKind} {kinds : RuleKinds} (hkind : kind.kinds? = some kinds) {a : Access}
    (proper : db.Proper a) (place : RulePlace) :
    k.Marks kinds place (db.types.nameOf a.source) (db.types.nameOf a.target)
        (db.classes.nameOf a.cls) a.permission ↔
      ∃ r ∈ db.rulesAt place, db.States kind r.rule a := by
  have built := built_of_lower run
  have numbered := Lowering.numbered_new db settings options
  refine (built.marks_iff numbered passed (AccessKind.kinds?_vector hkind) proper place).trans ?_
  exact built.accessAt_iff numbered passed hkind (proper.lt_word passed) place

/-- Lowering keeps the meaning of access rules. Every conditional has its node; and in
each place, by name, the tables allow, audit or leave unaudited exactly the accesses that
some rule of the place states, whatever the options. -/
theorem lower_keeps_access_rules (verified : db.Verified)
    (run : (db.lower settings options).outcome.1 = .ok k) :
    k.conditionals.length = db.conditionals.length ∧
      ∀ (place : RulePlace) (kind : AccessKind) (kinds : RuleKinds) (a : Access),
        kind.kinds? = some kinds → db.Proper a →
        (k.Marks kinds place (db.types.nameOf a.source) (db.types.nameOf a.target)
            (db.classes.nameOf a.cls) a.permission ↔
          ∃ r ∈ db.rulesAt place, db.States kind r.rule a) ∧
        ∀ (settings' : Settings) (options' : LoweringOptions) (k' : KernelPolicy),
          (db.lower settings' options').outcome.1 = .ok k' →
          (k.Marks kinds place (db.types.nameOf a.source) (db.types.nameOf a.target)
              (db.classes.nameOf a.cls) a.permission ↔
            k'.Marks kinds place (db.types.nameOf a.source) (db.types.nameOf a.target)
              (db.classes.nameOf a.cls) a.permission) := by
  have passed := verified.passed
  refine ⟨(built_of_lower run).nodes.length_eq.symm, fun place kind kinds a hkind proper => ?_⟩
  have states := marks_iff_states passed run hkind proper place
  refine ⟨states, fun settings' options' k' run' => states.trans ?_⟩
  exact (marks_iff_states passed run' hkind proper place).symm

/-- A policy with a rule for an attribute, and one for the source itself in a conditional. -/
def ruledPolicy : List Statement :=
  smallPolicy [.plain {} (.access .allow "both" "b" (.given "file" (.list [.item "ioctl"]))),
    .plain {} (.boolean "on" false),
    .conditional {} (.item "on") [.mk {} .whenTrue
      [.plain {} (.access .allow "a" "self" (.given "file" (.list [.item "read"])))]]]

theorem ruledPolicy_lowers : lowersTo ruledPolicy {} (fun db _ k =>
    db.types.nameOf 0 == "a" && db.types.nameOf 1 == "b" && db.classes.nameOf 0 == "file" &&
    decide (db.Proper ⟨0, 1, 0, 1⟩) && decide (db.Proper ⟨1, 1, 0, 0⟩) &&
    decide (k.Marks RuleKinds.allowed .top "a" "b" "file" 1) &&
    decide (¬ k.Marks RuleKinds.allowed (.arm 0 true) "b" "b" "file" 0)) = true := by decide +kernel

/-- In a small policy, what the tables mark and what they leave out tells what the rules state. -/
theorem rules_of_marks_small :
    ∃ (db : EvaluatedDatabase) (settings : Settings) (k : KernelPolicy),
      db.Verified ∧ (db.lower settings {}).outcome.1 = .ok k ∧
      (∃ r ∈ db.rulesAt .top, db.States .allow r.rule ⟨0, 1, 0, 1⟩) ∧
      ¬ ∃ r ∈ db.rulesAt (.arm 0 true), db.States .allow r.rule ⟨1, 1, 0, 0⟩ := by
  obtain ⟨db, settings, k, verified, run, tested⟩ := exists_lowered ruledPolicy_lowers
  simp only [Bool.and_eq_true, beq_iff_eq, decide_eq_true_eq] at tested
  obtain ⟨⟨⟨⟨⟨⟨a, b⟩, file⟩, proper⟩, proper'⟩, marks⟩, leaves⟩ := tested
  obtain ⟨_, keeps⟩ := lower_keeps_access_rules verified run
  rw [← a, ← b, ← file] at marks
  rw [← b, ← file] at leaves
  refine ⟨db, settings, k, verified, run, ?_, ?_⟩
  · exact (keeps .top .allow _ ⟨0, 1, 0, 1⟩ rfl proper).1.mp marks
  · intro states
    exact leaves ((keeps (.arm 0 true) .allow _ ⟨1, 1, 0, 0⟩ rfl proper').1.mpr states)

end EvaluatedDatabase

end CilPolicy
