import CilPolicy.Proofs.Lowering.Values

/-!
# Conditions keep their meaning

A condition denotes a truth value once its booleans have values. Its items are run on a stack, and
whatever is on the stack already, they leave the value of the condition on top of it; so a condition
in reverse Polish order has the value that the condition denotes. The state of a node is that value
when each boolean has the value that it is declared with.
-/

namespace CilPolicy

namespace Expr

/-- Lists have one member, and operators are those of conditions with their operands. -/
def IsCondition : Expr Id → Prop
  | item _ => True
  | list members =>
    match members with
    | [e] => e.IsCondition
    | _ => False
  | apply op operands =>
    match op, operands with
    | .not, [a] => a.IsCondition
    | .and, [a, b] | .or, [a, b] | .xor, [a, b] | .eq, [a, b] | .neq, [a, b] =>
      a.IsCondition ∧ b.IsCondition
    | _, _ => False

/-- The truth value of a condition. -/
def truth (values : Id → Bool) : Expr Id → Bool
  | item id => values id
  | list members =>
    match members with
    | [e] => e.truth values
    | _ => false
  | apply op operands =>
    match op, operands with
    | .not, [a] => !a.truth values
    | .and, [a, b] => a.truth values && b.truth values
    | .or, [a, b] => a.truth values || b.truth values
    | .xor, [a, b] => a.truth values ^^ b.truth values
    | .eq, [a, b] => a.truth values == b.truth values
    | .neq, [a, b] => a.truth values != b.truth values
    | _, _ => false

variable {value : Id → Nat} {values : Id → Bool} {state : Nat → Bool} {op : Operator} {arity : Nat}
  {last : CondItem} {operands : List (Expr Id)}

/-! ### Operators -/

theorem isCondition_apply : (apply op operands).IsCondition ↔
    ∃ arity last, op.condition? = some (arity, last) ∧ operands.length = arity ∧
      ∀ e ∈ operands, e.IsCondition := by
  cases op <;> rcases operands with _ | ⟨a, _ | ⟨b, _ | ⟨c, rest⟩⟩⟩ <;>
    simp [IsCondition, Operator.condition?]

/-- The item of an operator replaces the values of the operands by the value of the operation. -/
theorem runCondition_operator (shape : op.condition? = some (arity, last)) (few : operands.length = arity)
    (rest : List CondItem) (stack : List Bool) :
    runCondition state (last :: rest) ((operands.map (truth values)).reverse ++ stack) =
      runCondition state rest ((apply op operands).truth values :: stack) := by
  cases op with
  | all | range => cases shape
  | not =>
    cases shape
    obtain ⟨a, rfl⟩ := List.length_eq_one_iff.mp few
    rfl
  | and | or | xor | eq | neq =>
    cases shape
    obtain ⟨a, b, rfl⟩ := List.length_eq_two.mp few
    rfl

/-! ### Which conditions have items -/

mutual

/-- A condition has items exactly when every operator and every list in it is proper. -/
theorem exists_conditionItems_iff : (e : Expr Id) →
    ((∃ items, e.conditionItems value = some items) ↔ e.IsCondition)
  | item id => iff_of_true ⟨_, rfl⟩ trivial
  | list [e] => exists_conditionItems_iff e
  | list [] | list (_ :: _ :: _) => iff_of_false (by rintro ⟨_, ⟨⟩⟩) id
  | apply op operands => by
    rw [isCondition_apply, conditionItems, ← exists_conditionItemsAll_iff operands]
    cases op.condition? with
    | none => simp only [reduceCtorEq, exists_false, false_and]
    | some shape =>
      obtain ⟨arity, last⟩ := shape
      simp only [Option.ite_none_right_eq_some, Option.map_eq_some_iff, Option.some.injEq, Prod.mk.injEq]
      constructor
      · rintro ⟨_, few, items, run, _⟩
        exact ⟨arity, last, ⟨rfl, rfl⟩, few, items, run⟩
      · rintro ⟨_, _, ⟨rfl, rfl⟩, few, items, run⟩
        exact ⟨_, few, items, run, rfl⟩

theorem exists_conditionItemsAll_iff : (es : List (Expr Id)) →
    ((∃ items, conditionItemsAll value es = some items) ↔ ∀ e ∈ es, e.IsCondition)
  | [] => iff_of_true ⟨_, rfl⟩ (by simp)
  | e :: es => by
    rw [List.forall_mem_cons, ← exists_conditionItems_iff e, ← exists_conditionItemsAll_iff es]
    simp only [conditionItemsAll, Option.bind_eq_bind, Option.bind_eq_some_iff]
    constructor
    · rintro ⟨_, first, hfirst, others, hothers, _⟩
      exact ⟨⟨first, hfirst⟩, others, hothers⟩
    · rintro ⟨⟨first, hfirst⟩, others, hothers⟩
      exact ⟨_, first, hfirst, others, hothers, rfl⟩

end

/-! ### Running the items -/

mutual

/-- The items of a condition leave its value on whatever is on the stack. -/
theorem runCondition_conditionItems : (e : Expr Id) → {items : List CondItem} →
    e.conditionItems value = some items → ∀ rest stack,
      runCondition state (items ++ rest) stack =
        runCondition state rest (e.truth (fun id => state (value id)) :: stack)
  | item id, _, run, rest, stack => by
    cases run
    rfl
  | list [e], _, run, rest, stack => runCondition_conditionItems e run rest stack
  | list [], _, run, _, _ | list (_ :: _ :: _), _, run, _, _ => by cases run
  | apply op operands, _, run, rest, stack => by
    rw [conditionItems] at run
    cases shape : op.condition? with
    | none =>
      rw [shape] at run
      cases run
    | some pair =>
      obtain ⟨arity, last⟩ := pair
      rw [shape] at run
      dsimp only at run
      split at run
      · rename_i few
        obtain ⟨inner, inside, rfl⟩ := Option.map_eq_some_iff.mp run
        rw [List.append_assoc, runCondition_conditionItemsAll operands inside]
        exact runCondition_operator shape few rest stack
      · cases run

/-- The items of the operands leave their values, the last on top. -/
theorem runCondition_conditionItemsAll : (es : List (Expr Id)) → {items : List CondItem} →
    conditionItemsAll value es = some items → ∀ rest stack,
      runCondition state (items ++ rest) stack =
        runCondition state rest ((es.map (truth fun id => state (value id))).reverse ++ stack)
  | [], _, run, rest, stack => by
    cases run
    rfl
  | e :: es, _, run, rest, stack => by
    obtain ⟨first, hfirst, run⟩ := Option.bind_eq_some_iff.mp run
    obtain ⟨others, hothers, run⟩ := Option.bind_eq_some_iff.mp run
    cases run
    rw [List.append_assoc, runCondition_conditionItems e hfirst,
      runCondition_conditionItemsAll es hothers, List.map_cons, List.reverse_cons, List.append_assoc]
    rfl

end

theorem evalCondition_conditionItems {e : Expr Id} {items : List CondItem}
    (run : e.conditionItems value = some items) :
    evalCondition items state = some (e.truth fun id => state (value id)) := by
  have ran : runCondition state (items ++ []) [] =
      runCondition state [] [e.truth fun id => state (value id)] :=
    runCondition_conditionItems e run [] []
  rw [List.append_nil] at ran
  rw [evalCondition, ran]
  rfl

/-! ### Booleans of a condition -/

theorem truth_apply_congr {other : Id → Bool}
    (same : operands.map (truth values) = operands.map (truth other)) :
    (apply op operands).truth values = (apply op operands).truth other := by
  rcases operands with _ | ⟨a, _ | ⟨b, _ | ⟨c, rest⟩⟩⟩ <;>
    simp only [List.map_cons, List.cons.injEq, List.map_nil, and_true] at same <;>
    cases op <;> simp only [truth, same]

mutual

/-- Only the booleans that are named in a condition matter. -/
theorem truth_congr {other : Id → Bool} : (e : Expr Id) → (∀ id ∈ e.leaves, values id = other id) →
    e.truth values = e.truth other
  | item id, same => same id List.mem_cons_self
  | list [e], same => truth_congr e fun id hid => same id (by simpa [leaves, leavesAll] using hid)
  | list [], _ | list (_ :: _ :: _), _ => rfl
  | apply _ operands, same => truth_apply_congr (map_truth_congr operands same)

theorem map_truth_congr {other : Id → Bool} : (es : List (Expr Id)) →
    (∀ id ∈ leavesAll es, values id = other id) → es.map (truth values) = es.map (truth other)
  | [], _ => rfl
  | e :: es, same => by
    have first := truth_congr e fun id hid => same id (List.mem_append_left _ hid)
    have others := map_truth_congr es fun id hid => same id (List.mem_append_right _ hid)
    rw [List.map_cons, List.map_cons, first, others]

end

end Expr

namespace Lowering

variable {l : Lowering} {k : KernelPolicy}

/-- The value of a boolean by its number, when the booleans have these values. -/
def assigned (l : Lowering) (values : Id → Bool) (number : Nat) : Bool :=
  ((l.booleans.id? number).map values).getD false

/-- The value that a boolean is declared with. -/
def declaredDefault (l : Lowering) (id : Id) : Bool :=
  (l.db.booleans.value? id).getD false

/-- The condition has items if it is proper, and they have its value under every assignment. -/
structure Keeps (l : Lowering) (c : Conditional) : Prop where
  proper : (∃ items, l.condition? c = some items) ↔ c.condition.IsCondition
  value : ∀ items, l.condition? c = some items → ∀ values : Id → Bool,
    evalCondition items (l.assigned values) = some (c.condition.truth values)

/-- The node has the items of the conditional, and its state is the value of the condition under the
declared values. -/
structure InState (l : Lowering) (c : Conditional) (node : ConditionalNode) : Prop where
  items : l.condition? c = some node.condition
  state : node.state = c.condition.truth l.declaredDefault

section Booleans

variable (numbered : l.booleans = .ofRegistry l.db.booleans fun _ _ => true)

include numbered

theorem keeps_of_declared {c : Conditional} (declared : ∀ id ∈ c.condition.leaves, id < l.db.booleans.size) :
    l.Keeps c where
  proper := Expr.exists_conditionItems_iff c.condition
  value items run values := by
    rw [Expr.evalCondition_conditionItems run]
    refine congrArg some (Expr.truth_congr _ fun id hid => ?_)
    obtain ⟨v, hv⟩ := exists_booleanValue numbered (declared id hid)
    rw [hv, Option.getD_some, assigned, Numbering.id?_of_value? hv]
    rfl

/-- The items have the value that the condition has under the declared values. -/
theorem declaredValue_eq {c : Conditional} {items : List CondItem} (run : l.condition? c = some items) :
    l.declaredValue items = c.condition.truth l.declaredDefault := by
  rw [declaredValue, Expr.evalCondition_conditionItems run, Option.getD_some]
  refine Expr.truth_congr _ fun id _ => ?_
  cases found : l.booleans.value? id with
  | some v =>
    rw [Option.getD_some, Numbering.id?_of_value? found]
    rfl
  | none =>
    have none : l.db.booleans.value? id = none := by
      refine Option.eq_none_iff_forall_ne_some.mpr fun value declared => ?_
      obtain ⟨v, hv⟩ := exists_booleanValue numbered (Registry.lt_of_value? declared)
      cases found.symm.trans hv
    rw [declaredDefault, none]
    rfl

end Booleans

/-- The state of a node is the value of its condition under the declared values. -/
theorem state_conditionalTable (cs : List LoweredConditional) :
    ∀ node ∈ (l.conditionalTable cs).1, node.state = l.declaredValue node.condition := by
  refine List.foldlRecOn (motive := fun state : List ConditionalNode × AccessTable =>
    ∀ node ∈ state.1, node.state = l.declaredValue node.condition) cs l.addNode (by simp) ?_
  intro state held c _ node hnode
  rcases List.mem_append.mp hnode with old | new
  · exact held node old
  · cases List.mem_singleton.mp new
    rfl

theorem Built.inState (built : l.Built k) (numbered : l.booleans = .ofRegistry l.db.booleans fun _ _ => true) :
    List.Forall₂ l.InState l.db.conditionals k.conditionals := by
  have items := built.forall₂_conditions
  have states := state_conditionalTable (l := l) l.loweredConditionals.table.conditionals
  rw [built.conditionals] at states
  refine ((List.forall₂_and_left _ _).mpr ⟨states, items.flip⟩).flip.imp ?_
  rintro c node ⟨state, items⟩
  exact ⟨items, state.trans (declaredValue_eq numbered items)⟩

end Lowering

namespace EvaluatedDatabase

/-- Conditions keep their meaning. A condition over declared booleans has items exactly when it is
proper, and then the items have its value under every assignment; the conditions of a policy are over
declared booleans; and the state of every node is the value of its condition under the declared
values. -/
theorem conditions_kept (db : EvaluatedDatabase) (settings : Settings) (options : LoweringOptions) :
    let l := Lowering.new db settings options
    (∀ c : Conditional, (∀ id ∈ c.condition.leaves, id < db.booleans.size) → l.Keeps c) ∧
      (db.Verified → ∀ c ∈ db.conditionals, ∀ id ∈ c.condition.leaves, id < db.booleans.size) ∧
      ∀ k, (db.lower settings options).outcome.1 = .ok k →
        List.Forall₂ l.InState db.conditionals k.conditionals := by
  refine ⟨fun c declared => Lowering.keeps_of_declared rfl declared, fun verified c hc => ?_, fun k run => ?_⟩
  · obtain ⟨closed, _⟩ := verified.linked
    exact (closed.within.conditionals c hc).condition
  · exact (built_of_lower run).inState rfl

/-- A policy with the condition that one boolean has another value than the other has. -/
def switchedPolicy : List Statement :=
  smallPolicy [.plain {} (.access .allow "both" "b" (.given "file" (.list [.item "ioctl"]))),
    .plain {} (.boolean "on" false), .plain {} (.boolean "off" true),
    .conditional {} (.apply .eq [.list [.item "on"], .apply .not [.item "off"]]) [.mk {} .whenTrue
      [.plain {} (.access .allow "a" "self" (.given "file" (.list [.item "read"])))]]]

theorem switchedPolicy_lowers : lowersTo switchedPolicy {} (fun _ _ k =>
    k.conditionals.map (fun node => (node.state, node.condition)) ==
      [(true, [.bool 1, .bool 2, .not, .eq])]) = true := by
  decide +kernel

/-- In reverse Polish order the condition has this value whatever the two booleans are. -/
theorem conditions_kept_switched :
    ∃ (db : EvaluatedDatabase) (settings : Settings) (k : KernelPolicy) (c : Conditional),
      db.Verified ∧ (db.lower settings {}).outcome.1 = .ok k ∧ db.conditionals = [c] ∧
      c.condition.IsCondition ∧ c.condition.truth (Lowering.new db settings {}).declaredDefault = true ∧
      ∀ values : Id → Bool,
        evalCondition [.bool 1, .bool 2, .not, .eq] ((Lowering.new db settings {}).assigned values) =
          some (c.condition.truth values) := by
  obtain ⟨db, settings, k, verified, run, tested⟩ := exists_lowered switchedPolicy_lowers
  have nodes := beq_iff_eq.mp tested
  obtain ⟨node, only, same⟩ := List.map_eq_singleton_iff.mp nodes
  obtain ⟨state, items⟩ := Prod.mk.inj same
  obtain ⟨keeps, declared, inState⟩ := conditions_kept db settings {}
  have inState := inState k run
  rw [only] at inState
  obtain ⟨c, _, here, ⟨⟩, conditionals⟩ := List.forall₂_cons_right_iff.mp inState
  have keeps := keeps c (declared verified c (by rw [conditionals]; exact List.mem_singleton_self c))
  have found := here.items.trans (congrArg some items)
  exact ⟨db, settings, k, c, verified, run, conditionals, keeps.proper.mp ⟨_, found⟩,
    here.state.symm.trans state, keeps.value _ found⟩

end EvaluatedDatabase

end CilPolicy
