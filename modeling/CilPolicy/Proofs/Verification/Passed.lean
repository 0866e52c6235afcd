import CilPolicy.Proofs.Database.Resolution
import CilPolicy.Proofs.Evaluation.Category
import CilPolicy.Verification.Policy

/-!
# What a verified policy has passed

A policy that reaches lowering has been resolved, ordered, checked for cycles,
evaluated and verified. Each stage leaves a fact about the evaluated database: its
references fit, its kernel classes and sensitivities have their places, its users have
ranges, its class permissions do not run in a circle, its sets are those of its
declarations, and no check of the verification found a fault.
-/

namespace CilPolicy

/-! ### Labels in order -/

theorem mem_dropRepeats {σ κ : Type} {compare : σ → σ → Ordering} {agrees : κ → κ → Bool}
    {keyword : String} {kept labels : List (Label σ κ)} {x : Label σ κ}
    (h : x ∈ (dropRepeats compare agrees keyword kept labels).labels) : x ∈ kept ∨ x ∈ labels := by
  induction labels generalizing kept with
  | nil =>
    cases kept <;> exact Or.inl (List.mem_reverse.mp h)
  | cons l ls ih =>
    cases kept with
    | nil =>
      rcases ih h with h | h
      · exact Or.inr (List.mem_singleton.mp h ▸ List.mem_cons_self)
      · exact Or.inr (List.mem_cons_of_mem l h)
    | cons k kept =>
      rw [dropRepeats] at h
      split at h
      · rcases ih h with h | h
        · rcases List.mem_cons.mp h with heq | h
          · exact Or.inr (heq ▸ List.mem_cons_self)
          · exact Or.inl h
        · exact Or.inr (List.mem_cons_of_mem l h)
      · dsimp only at h
        split at h
        · exact (ih h).imp_right (List.mem_cons_of_mem l)
        · exact (ih h).imp_right (List.mem_cons_of_mem l)

/-- Sorting keeps labels that were given, though maybe not all of them. -/
theorem mem_of_mem_sortLabels {σ κ : Type} {compare : σ → σ → Ordering} {agrees : κ → κ → Bool}
    {keyword : String} {labels : List (Label σ κ)} {x : Label σ κ}
    (h : x ∈ (sortLabels compare agrees keyword labels).labels) : x ∈ labels := by
  rcases mem_dropRepeats h with h | h
  · cases h
  · exact List.mem_mergeSort.mp h

theorem Database.sortedLabels_allContexts {db : Database} {repeats : Bool} {p : ContextArg Id → Prop}
    (all : db.labels.AllContexts p) : (db.sortedLabels repeats).1.AllContexts p where
  files x hx := all.files x (mem_of_mem_sortLabels hx)
  filesystems x hx := all.filesystems x (mem_of_mem_sortLabels hx)
  genfs x hx := all.genfs x (mem_of_mem_sortLabels hx)
  ports x hx := all.ports x (mem_of_mem_sortLabels hx)
  nodes x hx := all.nodes x (mem_of_mem_sortLabels hx)
  interfaces x hx := all.interfaces x (mem_of_mem_sortLabels hx)
  partitionKeys x hx := all.partitionKeys x (mem_of_mem_sortLabels hx)
  endPorts x hx := all.endPorts x (mem_of_mem_sortLabels hx)
  interrupts x hx := all.interrupts x (mem_of_mem_sortLabels hx)
  ioMemory x hx := all.ioMemory x (mem_of_mem_sortLabels hx)
  ioPorts x hx := all.ioPorts x (mem_of_mem_sortLabels hx)
  pciDevices x hx := all.pciDevices x (mem_of_mem_sortLabels hx)
  deviceTrees x hx := all.deviceTrees x (mem_of_mem_sortLabels hx)

theorem Database.Resolved.evaluated {db : OrderedDatabase} {repeats : Bool} (resolved : db.Resolved) :
    Database.Resolved { db.toDatabase with labels := (db.sortedLabels repeats).1 } where
  classes := resolved.classes
  mappings := resolved.mappings
  sets := resolved.sets
  extendedSets := resolved.extendedSets
  rules := resolved.rules
  conditionals := resolved.conditionals
  levels := resolved.levels
  ranges := resolved.ranges
  contexts := resolved.contexts
  sids := resolved.sids
  users := resolved.users
  labels := sortedLabels_allContexts resolved.labels

/-! ### Places -/

/-- Everything that needs a place in an order has one. -/
structure OrderedDatabase.Placed (db : OrderedDatabase) : Prop where
  classes : ∀ id c, db.classes.value? id = some c → c.isMap = false → id ∈ db.orders.classes
  sids : ∀ id context, db.sids.value? id = some context → id ∈ db.orders.sids
  sensitivities : ∀ id, db.IsSensitivity id → id ∈ db.orders.sensitivities

theorem Database.mem_of_unplaced {α : Type} {r : Registry α} {kind : OrderKind} {needed : α → Bool}
    {order : List Id} (h : unplaced r kind needed order = []) {id : Id} {v : α}
    (hv : r.value? id = some v) (hneeded : needed v = true) : id ∈ order := by
  obtain ⟨d, hd, rfl⟩ := Registry.value?_eq_some.mp hv
  have none := List.filter_eq_nil_iff.mp (List.map_eq_nil_iff.mp h) (id, d) (Registry.mem_indexed.mpr hd)
  simpa [hneeded] using none

/-- Ordering changes nothing, and gives places to all that need one. -/
theorem Database.order_spec {db : Database} {ordered : OrderedDatabase} (run : db.order.Yields ordered) :
    ordered.toDatabase = db ∧ ordered.Placed := by
  rw [Database.order] at run
  obtain ⟨classes, _, run⟩ := Report.yields_bind run
  obtain ⟨sids, _, run⟩ := Report.yields_bind run
  obtain ⟨sensitivities, _, run⟩ := Report.yields_bind run
  obtain ⟨categories, _, run⟩ := Report.yields_bind run
  obtain ⟨_, placed, run⟩ := Report.yields_bind run
  cases Report.yields_pure run
  have none := Report.yields_reject placed
  simp only [List.append_eq_nil_iff] at none
  obtain ⟨⟨⟨sidsPlaced, classesPlaced⟩, _⟩, sensitivitiesPlaced⟩ := none
  refine ⟨rfl, ?_, fun id context h => mem_of_unplaced sidsPlaced h rfl, ?_⟩
  · intro id c hc kernel
    exact mem_of_unplaced classesPlaced hc (by simp [kernel])
  · rintro id ⟨s, hs, plain⟩
    exact mem_of_unplaced sensitivitiesPlaced hs (by simp [plain])

/-! ### All stages -/

namespace EvaluatedDatabase

/-- The database has passed every stage that comes before lowering. -/
def Verified (db : EvaluatedDatabase) : Prop :=
  ∃ statements repeats resolved ordered overrides settings,
    (Database.resolve repeats statements).outcome.1 = .ok resolved ∧
    resolved.order.outcome.1 = .ok ordered ∧
    ordered.preVerify.outcome.1 = .ok () ∧
    (ordered.evaluate repeats).outcome.1 = .ok db ∧
    (db.verify overrides).outcome.1 = .ok settings

/-- What the stages before lowering leave. -/
structure Passed (db : EvaluatedDatabase) : Prop where
  resolved : db.Resolved
  placed : db.Placed
  evaluated : db.Evaluated
  categories : KnownWithin db.categoryWhole db.categorySets
  users : db.userFaults = []
  acyclic : Graph.findCycle db.permissionNodes db.permissionNext = none
  declarations : db.declarationFaults = []
  contexts : db.contextFaults = []
  extended : db.extendedFaults = []

theorem verify_spec {db : EvaluatedDatabase} {overrides : SettingOverrides} {settings : Settings}
    (run : (db.verify overrides).Yields settings) :
    db.declarationFaults = [] ∧ db.contextFaults = [] ∧ db.extendedFaults = [] := by
  rw [verify] at run
  obtain ⟨_, declarations, run⟩ := Report.yields_bind run
  obtain ⟨_, others, _⟩ := Report.yields_bind run
  exact ⟨Report.yields_reject declarations, List.append_eq_nil_iff.mp (Report.yields_reject others)⟩

theorem passed_of_stages {repeats : Bool} {statements : List Statement} {resolved : Database}
    {ordered : OrderedDatabase} {db : EvaluatedDatabase} {overrides : SettingOverrides}
    {settings : Settings} (resolve : (Database.resolve repeats statements).Yields resolved)
    (order : resolved.order.Yields ordered) (preVerify : ordered.preVerify.Yields ())
    (evaluate : (ordered.evaluate repeats).Yields db) (verify : (db.verify overrides).Yields settings) :
    db.Passed := by
  obtain ⟨_, hresolved, run⟩ := Report.yields_bind resolve
  obtain ⟨_, _, run⟩ := Report.yields_bind run
  cases Report.yields_pure run
  have fits := Database.resolved_of_ofStatements (Report.yields_lift hresolved)
  obtain ⟨rfl, placed⟩ := Database.order_spec order
  obtain ⟨evaluated, same⟩ := OrderedDatabase.evaluate_spec evaluate
  obtain ⟨declarations, contexts, extended⟩ := verify_spec verify
  have none := Report.yields_reject preVerify
  simp only [Database.preliminaryFaults, List.append_eq_nil_iff] at none
  obtain ⟨⟨⟨⟨⟨⟨⟨users, _⟩, _⟩, cycle⟩, _⟩, _⟩, _⟩, _⟩ := none
  have acyclic : Graph.findCycle ordered.permissionNodes ordered.permissionNext = none := by
    rw [Database.permissionCycle] at cycle
    split at cycle
    · assumption
    · cases cycle
    · cases cycle
  have categories := OrderedDatabase.knownWithin_evaluate evaluate
  refine ⟨?_, ?_, evaluated, categories, ?_, ?_, declarations, contexts, extended⟩
  · rw [same]
    exact fits.evaluated
  · rw [same]
    exact ⟨placed.classes, placed.sids, placed.sensitivities⟩
  · rw [same]
    exact users
  · rw [same]
    exact acyclic

theorem Verified.passed {db : EvaluatedDatabase} (verified : db.Verified) : db.Passed := by
  obtain ⟨statements, repeats, resolved, ordered, overrides, settings, resolve, order, preVerify,
    evaluate, verify⟩ := verified
  exact passed_of_stages (Report.yields_of_outcome resolve) (Report.yields_of_outcome order)
    (Report.yields_of_outcome preVerify) (Report.yields_of_outcome evaluate)
    (Report.yields_of_outcome verify)

end EvaluatedDatabase

end CilPolicy
