import CilPolicy.Lowering.Policy

/-!
# What rules have no part in

The symbols of a policy, its object contexts and what single rules add to the tables depend on the
declarations and on the numberings alone, and not on the rules that stand outside conditionals.
-/

namespace CilPolicy

/-- The same database with other rules outside conditionals. -/
def EvaluatedDatabase.withRules (db : EvaluatedDatabase) (rules : List PlacedRule) : EvaluatedDatabase :=
  { db with rules }

/-- The same lowering of other rules outside conditionals. -/
def Lowering.withRules (l : Lowering) (rules : List PlacedRule) : Lowering :=
  { l with db := l.db.withRules rules }

namespace EvaluatedDatabase

variable (db : EvaluatedDatabase) (rules : List PlacedRule)

theorem categoryLeaf_withRules (known : Array (Option BitSet)) (fuel : Nat) :
    (db.withRules rules).categoryLeaf known fuel = db.categoryLeaf known fuel := by
  induction fuel with
  | zero => rfl
  | succ fuel ih =>
    funext id
    rw [OrderedDatabase.categoryLeaf, OrderedDatabase.categoryLeaf, ih]
    rfl

@[simp] theorem evalLevel_withRules : (db.withRules rules).evalLevel = db.evalLevel := by
  have bits : (db.withRules rules).categoryBits = db.categoryBits := by
    funext known e
    rw [OrderedDatabase.categoryBits, categoryLeaf_withRules]
    rfl
  funext level
  rw [evalLevel, evalLevel, bits]
  rfl

@[simp] theorem evalRange_withRules : (db.withRules rules).evalRange = db.evalRange := by
  funext range
  rw [evalRange, evalRange, evalLevel_withRules]
  rfl

theorem leafGrants_withRules (fuel : Nat) :
    (db.withRules rules).leafGrants fuel = db.leafGrants fuel := by
  induction fuel with
  | zero => rfl
  | succ fuel ih =>
    funext ref
    cases ref with
    | given cls permissions =>
      rw [Database.leafGrants, Database.leafGrants, ih]
      rfl
    | named id =>
      rw [Database.leafGrants, Database.leafGrants, ih]
      rfl

@[simp] theorem grants_withRules : (db.withRules rules).grants = db.grants := by
  funext ref
  rw [Database.grants, Database.grants, leafGrants_withRules]
  rfl

end EvaluatedDatabase

namespace Lowering

variable (l : Lowering) (rules : List PlacedRule)

@[simp] theorem evalRange_withRules : (l.withRules rules).evalRange = l.evalRange := by
  funext range
  rw [evalRange, evalRange, withRules, EvaluatedDatabase.evalRange_withRules]
  rfl

@[simp] theorem evalLevel_withRules : (l.withRules rules).evalLevel = l.evalLevel := by
  funext level
  rw [evalLevel, evalLevel, withRules, EvaluatedDatabase.evalLevel_withRules]
  rfl

theorem userSymbol_withRules : (l.withRules rules).userSymbol = l.userSymbol := by
  funext value id d
  rw [userSymbol, userSymbol, evalRange_withRules, evalLevel_withRules]
  rfl

theorem symbols_withRules : (l.withRules rules).symbols = l.symbols := by
  have users : (l.withRules rules).userSymbols = l.userSymbols := by
    rw [userSymbols, userSymbols, userSymbol_withRules]
    rfl
  rw [symbols, symbols, users]
  rfl

@[simp] theorem context_withRules : (l.withRules rules).context = l.context := by
  funext location context
  rw [Lowering.context, Lowering.context, evalRange_withRules]
  rfl

theorem labeled_withRules {σ β : Type} : @labeled σ β (l.withRules rules) = labeled l := by
  funext make labels
  rw [labeled, labeled, context_withRules]

theorem objects_withRules : (l.withRules rules).objects = l.objects := by
  have sids : (l.withRules rules).initialSids = l.initialSids := by
    rw [initialSids, initialSids, context_withRules]
    rfl
  have interfaces : (l.withRules rules).interfaces = l.interfaces := by
    rw [Lowering.interfaces, Lowering.interfaces, context_withRules]
    rfl
  have nodes : (l.withRules rules).nodes = l.nodes := by
    rw [Lowering.nodes, Lowering.nodes, context_withRules]
    rfl
  have selinux : (l.withRules rules).selinuxObjects = l.selinuxObjects := by
    funext sids
    simp only [selinuxObjects, labeled_withRules, interfaces, nodes]
    rfl
  have xen : (l.withRules rules).xenObjects = l.xenObjects := by
    funext sids
    simp only [xenObjects, labeled_withRules]
    rfl
  rw [Lowering.objects, Lowering.objects, sids, selinux, xen]
  rfl

theorem genfs_withRules : (l.withRules rules).genfs = l.genfs := by
  rw [genfs, genfs, labeled_withRules]
  rfl

/-! ### Single rules -/

@[simp] theorem addAccess_withRules : (l.withRules rules).addAccess = l.addAccess := by
  funext t location kind source target permissions
  unfold addAccess
  rw [withRules, EvaluatedDatabase.grants_withRules]
  rfl

theorem addRule_withRules : (l.withRules rules).addRule = l.addRule := by
  funext t r
  unfold addRule
  cases r.rule with
  | access => rw [addAccess_withRules]
  | rangeTransition =>
    dsimp only
    unfold addRangeTransition
    rw [evalRange_withRules]
    rfl
  | _ => rfl

theorem conditionals_withRules : (l.withRules rules).conditionals = l.conditionals := by
  have rule : (l.withRules rules).addArmRule = l.addArmRule := by
    funext base t r
    unfold addArmRule
    rw [addAccess_withRules]
    rfl
  have arm : (l.withRules rules).armRules = l.armRules := by
    funext base c value
    rw [armRules, armRules, rule]
  funext base
  unfold conditionals addConditional
  rw [arm]
  rfl

end Lowering

end CilPolicy
