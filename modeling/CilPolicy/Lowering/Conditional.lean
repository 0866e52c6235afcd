import CilPolicy.Lowering.Rules

/-!
Conditionals in kernel values: the condition in reverse Polish order and the rules of the
two arms, which are handles into a table of their own.
-/

namespace CilPolicy

/-- Number of operands and item of an operator that a condition may have. -/
def Operator.condition? : Operator → Option (Nat × CondItem)
  | .not => some (1, .not)
  | .and => some (2, .and)
  | .or => some (2, .or)
  | .xor => some (2, .xor)
  | .eq => some (2, .eq)
  | .neq => some (2, .neq)
  | .all | .range => none

namespace Expr

mutual

/-- The condition in reverse Polish order, where each operator has its operands and each
list one member. -/
def conditionItems (value : Id → Nat) : Expr Id → Option (List CondItem)
  | item id => some [.bool (value id)]
  | list members =>
    match members with
    | [e] => e.conditionItems value
    | _ => none
  | apply op operands =>
    match op.condition? with
    | none => none
    | some (arity, last) =>
      if operands.length = arity then (conditionItemsAll value operands).map (· ++ [last]) else none

def conditionItemsAll (value : Id → Nat) : List (Expr Id) → Option (List CondItem)
  | [] => some []
  | e :: es => do
    let first ← e.conditionItems value
    let others ← conditionItemsAll value es
    return first ++ others

end

end Expr

/-- A conditional with the rules of its arms. -/
structure LoweredConditional where
  condition : List CondItem
  whenTrue : AccessRules
  whenFalse : AccessRules
deriving Inhabited

/-- The conditionals so far, and the rules in them that forbid access. -/
structure LoweredConditionals where
  conditionals : List LoweredConditional := []
  neverAllows : List NeverAllow := []
deriving Inhabited

namespace Lowering

/-- Adds a rule to an arm; `base` has the rules outside conditionals. -/
def addArmRule (l : Lowering) (base : AccessRules) (t : RuleTables) (r : PlacedRule) :
    Step RuleTables :=
  match r.rule with
  | .access kind source target permissions =>
    l.addAccess t r.location kind source target permissions
  | .type kind source target cls result =>
    l.addTypeRule base t r.location kind source target cls result
  | .namedTransition .. => .fail t (.violation .namedTransitionInBlock (some r.location))
  | _ => .fail t (.violation .ruleInBlock (some r.location))

/-- The rules of an arm. -/
def armRules (l : Lowering) (base : AccessRules) (c : Conditional) (value : Bool) :
    Step.Gathered RuleTables :=
  Step.gather (l.addArmRule base) {} (c.rules value)

/-- The condition of a conditional. -/
def condition? (l : Lowering) (c : Conditional) : Option (List CondItem) :=
  c.condition.conditionItems fun id => (l.booleans.value? id).getD 0

/-- Adds a conditional. -/
def addConditional (l : Lowering) (base : AccessRules) (all : Step.Gathered LoweredConditionals)
    (c : Conditional) : Step.Gathered LoweredConditionals :=
  match l.condition? c with
  | none => { all with faults := all.faults ++ [.violation .condition (some c.location)] }
  | some condition =>
    let yes := l.armRules base c true
    let no := l.armRules base c false
    { table := {
        conditionals := all.table.conditionals ++ [⟨condition, yes.table.access, no.table.access⟩]
        neverAllows := all.table.neverAllows ++ yes.table.neverAllows ++ no.table.neverAllows }
      messages := all.messages ++ yes.messages ++ no.messages
      faults := all.faults ++ yes.faults ++ no.faults }

/-- All conditionals, beside the rules outside them. -/
def conditionals (l : Lowering) (base : AccessRules) : Step.Gathered LoweredConditionals :=
  l.db.conditionals.foldl (l.addConditional base) { table := {} }

/-! ### Tables -/

/-- The table of the rules outside conditionals. -/
def accessTable (rules : AccessRules) : Except KernelError AccessTable :=
  rules.toEntries.foldlM (fun table e => table.insert e.key e.datum) (.withCapacity rules.size)

/-- Adds entries to a table; gives their handles. -/
def addEntries (table : AccessTable) (entries : List AccessEntry) : List Nat × AccessTable :=
  entries.foldl (fun (handles, table) e =>
    let (handle, table) := table.add e.key e.datum
    (handles ++ [handle], table)) ([], table)

/-- The value of a condition under the values with which the booleans are declared. -/
def declaredValue (l : Lowering) (condition : List CondItem) : Bool :=
  (evalCondition condition fun b =>
    ((l.booleans.id? b).bind l.db.booleans.value?).getD false).getD false

/-- Puts the rules of a conditional into the table. -/
def addNode (l : Lowering) (state : List ConditionalNode × AccessTable) (c : LoweredConditional) :
    List ConditionalNode × AccessTable :=
  let (whenTrue, table) := addEntries state.2 c.whenTrue.toEntries
  let (whenFalse, table) := addEntries table c.whenFalse.toEntries
  (state.1 ++ [⟨l.declaredValue c.condition, c.condition, whenTrue, whenFalse⟩], table)

/-- The nodes of all conditionals and the table of their rules. -/
def conditionalTable (l : Lowering) (conditionals : List LoweredConditional) :
    List ConditionalNode × AccessTable :=
  let size := conditionals.foldl (fun size c => size + c.whenTrue.size + c.whenFalse.size) 0
  conditionals.foldl l.addNode ([], .withCapacity size)

end Lowering

end CilPolicy
