import CilPolicy.Lowering.Conditional
import CilPolicy.Proofs.Access.Table
import CilPolicy.Proofs.Lowering.Rules

/-!
# Conditionals and their table

Each conditional is lowered to the rules of its two arms. All arms share one table;
the handles of an arm lead to the entries of its own rules, and every entry of the
table belongs to some arm.
-/

namespace CilPolicy

/-- The value of the boolean that the item is. -/
def CondItem.bool? : CondItem → Option Nat
  | .bool value => some value
  | _ => none

namespace Expr

mutual

/-- In reverse Polish order, too, the booleans stand as they are written. -/
theorem bools_conditionItems {value : Id → Nat} : (e : Expr Id) → {items : List CondItem} →
    e.conditionItems value = some items → items.filterMap CondItem.bool? = e.leaves.map value
  | item id, items, h => by
    cases h
    rfl
  | list [], items, h => by simp [conditionItems] at h
  | list [e], items, h => by
    rw [conditionItems] at h
    simpa [leaves, leavesAll] using bools_conditionItems e h
  | list (_ :: _ :: _), items, h => by simp [conditionItems] at h
  | apply op operands, items, h => by
    rw [conditionItems] at h
    cases hop : op.condition? with
    | none => simp [hop] at h
    | some shape =>
      obtain ⟨arity, last⟩ := shape
      simp only [hop] at h
      split at h
      · obtain ⟨inner, hinner, rfl⟩ := Option.map_eq_some_iff.mp h
        have plain : last.bool? = none := by cases op <;> cases hop <;> rfl
        rw [List.filterMap_append, bools_conditionItemsAll operands hinner]
        simp [leaves, plain]
      · cases h

theorem bools_conditionItemsAll {value : Id → Nat} : (es : List (Expr Id)) → {items : List CondItem} →
    conditionItemsAll value es = some items → items.filterMap CondItem.bool? = (leavesAll es).map value
  | [], items, h => by
    cases h
    rfl
  | e :: es, items, h => by
    obtain ⟨first, hfirst, h⟩ := Option.bind_eq_some_iff.mp h
    obtain ⟨others, hothers, h⟩ := Option.bind_eq_some_iff.mp h
    cases h
    rw [List.filterMap_append, bools_conditionItems e hfirst, bools_conditionItemsAll es hothers]
    simp [leavesAll]

end

/-- The booleans of a condition are those of its leaves. -/
theorem bool_mem_conditionItems {value : Id → Nat} {e : Expr Id} {items : List CondItem}
    (h : e.conditionItems value = some items) : ∀ b, .bool b ∈ items → ∃ id ∈ e.leaves, value id = b := by
  intro b hb
  have listed : b ∈ items.filterMap CondItem.bool? := List.mem_filterMap.mpr ⟨_, hb, rfl⟩
  rw [bools_conditionItems e h] at listed
  exact List.mem_map.mp listed

end Expr

/-- The entries of both arms. -/
def LoweredConditional.entries (c : LoweredConditional) : List AccessEntry :=
  c.whenTrue.toEntries ++ c.whenFalse.toEntries

namespace Lowering

variable {l : Lowering} {base : AccessRules}

/-! ### Arms -/

section Arms

variable {kinds : RuleKinds} {a : Access}

theorem addArmRule_iff (numbered : l.Numbered) (passed : l.db.Passed) (hp : a.permission < 32)
    {kind : AccessKind} (hkind : kind.kinds? = some kinds) {t : RuleTables} {r : PlacedRule}
    (done : (l.addArmRule base t r).fault? = none) :
    l.Marks (l.addArmRule base t r).table.access kinds a ↔
      l.Marks t.access kinds a ∨ l.db.States kind r.rule a := by
  rw [addArmRule] at done ⊢
  split at done
  · rename_i k source target permissions hrule
    simp only [hrule]
    exact addAccess_iff numbered passed hp hkind done
  · rename_i hrule
    simp only [hrule, EvaluatedDatabase.States, or_false]
    exact addTypeRule_marks (AccessKind.kinds?_vector hkind)
  · cases done
  · cases done

/-- The rules of an arm mark what some rule of the arm states. -/
theorem armRules_iff (numbered : l.Numbered) (passed : l.db.Passed) (hp : a.permission < 32)
    {kind : AccessKind} (hkind : kind.kinds? = some kinds) {c : Conditional} {value : Bool}
    (done : (l.armRules base c value).faults = []) :
    l.Marks (l.armRules base c value).table.access kinds a ↔
      ∃ r ∈ c.rules value, l.db.States kind r.rule a := by
  refine (Step.gather_iff (fun t => l.Marks t.access kinds a) (fun t r _ ok =>
    addArmRule_iff numbered passed hp hkind ok) done).trans ?_
  exact or_iff_right not_marks_empty

end Arms

theorem armRules_kindsFit {c : Conditional} {value : Bool} :
    (l.armRules base c value).table.access.KindsFit := by
  refine Step.gather_invariant (fun t : RuleTables => t.access.KindsFit) (fun t r fit => ?_)
    AccessRules.kindsFit_empty
  rw [addArmRule]
  split
  · exact addAccess_kindsFit fit
  · exact addTypeRule_kindsFit fit
  · exact fit
  · exact fit

/-! ### Conditionals -/

/-- The lowered conditional has the rules of both arms, and neither arm has a fault. -/
structure Lowers (l : Lowering) (base : AccessRules) (c : Conditional) (lowered : LoweredConditional) :
    Prop where
  whenTrue : lowered.whenTrue = (l.armRules base c true).table.access
  whenFalse : lowered.whenFalse = (l.armRules base c false).table.access
  trueDone : (l.armRules base c true).faults = []
  falseDone : (l.armRules base c false).faults = []

/-- What the arms of a conditional forbid. -/
def armNeverAllows (l : Lowering) (base : AccessRules) (c : Conditional) : List NeverAllow :=
  (l.armRules base c true).table.neverAllows ++ (l.armRules base c false).table.neverAllows

theorem foldl_addConditional {cs : List Conditional} {all : Step.Gathered LoweredConditionals}
    (done : (cs.foldl (l.addConditional base) all).faults = []) :
    all.faults = [] ∧
      (cs.foldl (l.addConditional base) all).table.neverAllows =
        all.table.neverAllows ++ cs.flatMap (l.armNeverAllows base) ∧
      ∃ lowered, (cs.foldl (l.addConditional base) all).table.conditionals =
        all.table.conditionals ++ lowered ∧ List.Forall₂ (l.Lowers base) cs lowered := by
  induction cs generalizing all with
  | nil => exact ⟨done, by simp, [], by simp, .nil⟩
  | cons c rest ih =>
    obtain ⟨none, neverAllows, lowered, heq, hrest⟩ := ih done
    rw [List.foldl_cons]
    cases hcondition : l.condition? c with
    | none =>
      simp only [addConditional, hcondition] at none
      exact absurd (List.append_eq_nil_iff.mp none).2 (List.cons_ne_nil _ _)
    | some condition =>
      simp only [addConditional, hcondition] at none
      obtain ⟨before, falseDone⟩ := List.append_eq_nil_iff.mp none
      obtain ⟨before, trueDone⟩ := List.append_eq_nil_iff.mp before
      refine ⟨before, ?_, ⟨condition, _, _⟩ :: lowered, ?_,
        .cons ⟨rfl, rfl, trueDone, falseDone⟩ hrest⟩
      · rw [neverAllows]
        simp [addConditional, hcondition, armNeverAllows]
      · rw [heq]
        simp [addConditional, hcondition]

/-- Each conditional is lowered to its condition. -/
theorem conditions_foldl_addConditional {cs : List Conditional} {all : Step.Gathered LoweredConditionals}
    (done : (cs.foldl (l.addConditional base) all).faults = []) :
    (cs.foldl (l.addConditional base) all).table.conditionals.map (fun c => some c.condition) =
      all.table.conditionals.map (fun c => some c.condition) ++ cs.map l.condition? := by
  induction cs generalizing all with
  | nil => simp
  | cons c rest ih =>
    rw [List.foldl_cons] at done
    obtain ⟨none, _⟩ := foldl_addConditional done
    rw [List.foldl_cons, ih done]
    cases hcondition : l.condition? c with
    | none =>
      simp only [addConditional, hcondition] at none
      exact absurd (List.append_eq_nil_iff.mp none).2 (List.cons_ne_nil _ _)
    | some condition => simp [addConditional, hcondition]

/-! ### Tables -/

theorem accessTable_spec {rules : AccessRules} {t : AccessTable} (run : accessTable rules = .ok t) :
    t.Listed ∧ t.entries.toList = rules.toEntries := by
  obtain ⟨listed, entries⟩ := AccessTable.foldlM_insert (AccessTable.listed_withCapacity _) run
  exact ⟨listed, by simpa [AccessTable.withCapacity] using entries⟩

/-- The handles of some entries, in every table that has grown from this one, lead to the
entries. -/
def LeadTo (t : AccessTable) (handles : List Nat) (entries : List AccessEntry) : Prop :=
  ∀ t' : AccessTable, t.entries.toList <+: t'.entries.toList → handles.filterMap t'.entry? = entries

theorem LeadTo.mono {t t' : AccessTable} {handles : List Nat} {entries : List AccessEntry}
    (leads : LeadTo t handles entries) (grown : t.entries.toList <+: t'.entries.toList) :
    LeadTo t' handles entries :=
  fun later further => leads later (grown.trans further)

theorem leadTo_nil (t : AccessTable) : LeadTo t [] [] :=
  fun _ _ => rfl

theorem leadTo_add {t : AccessTable} {handles : List Nat} {entries : List AccessEntry}
    (leads : LeadTo t handles entries) (e : AccessEntry) :
    LeadTo (t.add e.key e.datum).2 (handles ++ [t.entries.size]) (entries ++ [e]) := by
  intro t' grown
  rw [AccessTable.entries_add, Array.toList_push] at grown
  have found : t'.entry? t.entries.size = some e := by
    obtain ⟨more, heq⟩ := grown
    change t'.entries[t.entries.size]? = some e
    rw [← Array.getElem?_toList, ← heq]
    simp
  rw [List.filterMap_append, leads t' ((List.prefix_append _ _).trans grown)]
  simp [found]

theorem foldl_addEntries {entries old : List AccessEntry} {t : AccessTable} {handles : List Nat}
    (listed : t.Listed) (leads : LeadTo t handles old) :
    let result := entries.foldl (fun (handles, table) e =>
      let (handle, table) := table.add e.key e.datum
      (handles ++ [handle], table)) (handles, t)
    result.2.Listed ∧ result.2.entries.toList = t.entries.toList ++ entries ∧
      LeadTo result.2 result.1 (old ++ entries) := by
  induction entries generalizing t handles old with
  | nil => exact ⟨listed, by simp, by simpa using leads⟩
  | cons e rest ih =>
    obtain ⟨hlisted, hentries, hleads⟩ :=
      ih (AccessTable.listed_add listed e.key e.datum) (leadTo_add leads e)
    refine ⟨hlisted, ?_, ?_⟩
    · rw [List.foldl_cons]
      exact hentries.trans (by simp)
    · rw [List.append_cons]
      exact hleads

/-- The handles of added entries lead to them. -/
theorem addEntries_spec (entries : List AccessEntry) {t : AccessTable} (listed : t.Listed) :
    (addEntries t entries).2.Listed ∧
      (addEntries t entries).2.entries.toList = t.entries.toList ++ entries ∧
      LeadTo (addEntries t entries).2 (addEntries t entries).1 entries :=
  foldl_addEntries listed (leadTo_nil t)

/-- The handles of the node lead to the rules of the conditional. -/
structure NodeLeads (t : AccessTable) (c : LoweredConditional) (node : ConditionalNode) : Prop where
  whenTrue : LeadTo t node.whenTrue c.whenTrue.toEntries
  whenFalse : LeadTo t node.whenFalse c.whenFalse.toEntries

theorem NodeLeads.mono {t t' : AccessTable} {c : LoweredConditional} {node : ConditionalNode}
    (leads : NodeLeads t c node) (grown : t.entries.toList <+: t'.entries.toList) :
    NodeLeads t' c node :=
  ⟨leads.whenTrue.mono grown, leads.whenFalse.mono grown⟩

theorem addNode_spec {state : List ConditionalNode × AccessTable} (listed : state.2.Listed)
    (c : LoweredConditional) :
    (l.addNode state c).2.Listed ∧
      (l.addNode state c).2.entries.toList = state.2.entries.toList ++ c.entries ∧
      ∃ node, (l.addNode state c).1 = state.1 ++ [node] ∧ NodeLeads (l.addNode state c).2 c node := by
  obtain ⟨listedTrue, entriesTrue, leadsTrue⟩ := addEntries_spec c.whenTrue.toEntries listed
  obtain ⟨listedFalse, entriesFalse, leadsFalse⟩ :=
    addEntries_spec c.whenFalse.toEntries listedTrue
  have grown := List.prefix_append (addEntries state.2 c.whenTrue.toEntries).2.entries.toList
    c.whenFalse.toEntries
  rw [← entriesFalse] at grown
  refine ⟨listedFalse, ?_, _, rfl, leadsTrue.mono grown, leadsFalse⟩
  change (addEntries (addEntries state.2 c.whenTrue.toEntries).2 c.whenFalse.toEntries).2.entries.toList = _
  rw [entriesFalse, entriesTrue, List.append_assoc]
  rfl

theorem foldl_addNode (cs : List LoweredConditional) (state : List ConditionalNode × AccessTable)
    (listed : state.2.Listed) :
    (cs.foldl l.addNode state).2.Listed ∧
      (cs.foldl l.addNode state).2.entries.toList =
        state.2.entries.toList ++ cs.flatMap LoweredConditional.entries ∧
      ∃ nodes, (cs.foldl l.addNode state).1 = state.1 ++ nodes ∧
        List.Forall₂ (NodeLeads (cs.foldl l.addNode state).2) cs nodes := by
  induction cs generalizing state with
  | nil => exact ⟨listed, by simp, [], by simp, .nil⟩
  | cons c rest ih =>
    obtain ⟨hlisted, hentries, node, hnode, leads⟩ := addNode_spec listed c
    obtain ⟨finalListed, finalEntries, nodes, hnodes, others⟩ := ih _ hlisted
    rw [List.foldl_cons]
    have grown := List.prefix_append (l.addNode state c).2.entries.toList
      (rest.flatMap LoweredConditional.entries)
    rw [← finalEntries] at grown
    refine ⟨finalListed, ?_, node :: nodes, ?_, .cons (leads.mono grown) others⟩
    · rw [finalEntries, hentries]
      simp
    · rw [hnodes, hnode]
      simp

/-- The table of conditionals has the entries of all arms, and the handles of each node
lead to the rules of its conditional. -/
theorem conditionalTable_spec (cs : List LoweredConditional) :
    (l.conditionalTable cs).2.Listed ∧
      (l.conditionalTable cs).2.entries.toList = cs.flatMap LoweredConditional.entries ∧
      List.Forall₂ (NodeLeads (l.conditionalTable cs).2) cs (l.conditionalTable cs).1 := by
  have start := AccessTable.listed_withCapacity
    (cs.foldl (fun size c => size + c.whenTrue.size + c.whenFalse.size) 0)
  obtain ⟨listed, entries, nodes, hnodes, leads⟩ := foldl_addNode (l := l) cs ([], _) start
  refine ⟨listed, entries, ?_⟩
  have same : (l.conditionalTable cs).1 = nodes := hnodes
  rw [same]
  exact leads

/-- A node has the condition of its conditional. -/
theorem conditions_conditionalTable (cs : List LoweredConditional) :
    (l.conditionalTable cs).1.map (·.condition) = cs.map (·.condition) := by
  suffices folded : ∀ state, (cs.foldl l.addNode state).1.map (·.condition) =
      state.1.map (·.condition) ++ cs.map (·.condition) from folded _
  induction cs with
  | nil => simp
  | cons c rest ih =>
    intro state
    rw [List.foldl_cons, ih]
    simp [addNode]

end Lowering

end CilPolicy
