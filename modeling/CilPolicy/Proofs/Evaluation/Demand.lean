import CilPolicy.Proofs.Evaluation.Group
import Mathlib.Logic.Function.Iterate

/-!
# Attributes evaluated on demand

The sets of attributes are evaluated in rounds. They may also be evaluated one by one,
each when it is first asked for: then an attribute that stands in the sets of another is
evaluated on the way, and is marked as long as that takes. Where attributes lie in layers,
both ways come to the same sets, and nothing asks for an attribute that is marked.
-/

namespace CilPolicy

/-- What is known of the set of an attribute. -/
inductive Memo where
  | unknown
  | underway
  | known (set : BitSet)
deriving DecidableEq, Repr

/-- Why an evaluation on demand does not go on. -/
inductive Stuck where
  /-- The attribute is asked for while its own set is evaluated. -/
  | underway (id : Id)
  /-- More calls are nested than the bound allows. -/
  | depth
deriving DecidableEq, Repr

/-- A computation that may evaluate attributes. -/
abbrev Demand := StateT (Array Memo) (Except Stuck)

namespace Expr

mutual

/-- The set of an expression, whose leaves are asked for from left to right. -/
def demand (whole : BitSet) (leaf : Id → Demand BitSet) : Expr Id → Demand BitSet
  | item id => leaf id
  | list members => demandUnion whole leaf ∅ members
  | apply op operands => do
    let sets ← demandOperands whole leaf operands
    return op.apply whole sets

def demandUnion (whole : BitSet) (leaf : Id → Demand BitSet) (acc : BitSet) :
    List (Expr Id) → Demand BitSet
  | [] => return acc
  | e :: es => do
    let set ← demand whole leaf e
    demandUnion whole leaf (acc.union set) es

def demandOperands (whole : BitSet) (leaf : Id → Demand BitSet) :
    List (Expr Id) → Demand (List BitSet)
  | [] => return []
  | e :: es => do
    let first ← demand whole leaf e
    let others ← demandOperands whole leaf es
    return first :: others

end

mutual

/-- The set of an expression depends on its leaves only. -/
theorem evaluate_congr {whole : BitSet} {leaf other : Id → BitSet} : (e : Expr Id) →
    (∀ id ∈ e.leaves, leaf id = other id) → e.evaluate whole leaf = e.evaluate whole other
  | item id, same => same id (List.mem_singleton.mpr rfl)
  | list members, same => evaluateUnion_congr members same
  | apply op operands, same => congrArg (op.apply whole) (evaluateAll_congr operands same)

theorem evaluateUnion_congr {whole : BitSet} {leaf other : Id → BitSet} : (es : List (Expr Id)) →
    {acc : BitSet} → (∀ id ∈ leavesAll es, leaf id = other id) →
    evaluateUnion whole leaf acc es = evaluateUnion whole other acc es
  | [], _, _ => rfl
  | e :: es, acc, same => by
    rw [evaluateUnion, evaluateUnion, evaluate_congr e fun id hid => same id (List.mem_append_left _ hid)]
    exact evaluateUnion_congr es fun id hid => same id (List.mem_append_right _ hid)

theorem evaluateAll_congr {whole : BitSet} {leaf other : Id → BitSet} : (es : List (Expr Id)) →
    (∀ id ∈ leavesAll es, leaf id = other id) → evaluateAll whole leaf es = evaluateAll whole other es
  | [], _ => rfl
  | e :: es, same => by
    rw [evaluateAll, evaluateAll, evaluate_congr e fun id hid => same id (List.mem_append_left _ hid),
      evaluateAll_congr es fun id hid => same id (List.mem_append_right _ hid)]

end

theorem mem_leavesAll {es : List (Expr Id)} {id : Id} : id ∈ leavesAll es ↔ ∃ e ∈ es, id ∈ e.leaves := by
  induction es with
  | nil => simp [leavesAll]
  | cons e es ih => simp [leavesAll, ih]

end Expr

namespace Demand

/-- The set of an attribute, computed when it is first asked for. The attribute is marked
until its set is known. -/
def once (id : Id) (compute : Demand BitSet) : Demand BitSet := fun table =>
  match table[id]? with
  | some (.known set) => .ok (set, table)
  | some .underway => .error (.underway id)
  | _ => do
    let (set, after) ← compute (table.setIfInBounds id .underway)
    return (set, after.setIfInBounds id (.known set))

/-- The computation comes to the value from every table with the property, and leaves a
table with the property. -/
def Gives {α : Type} (Inv : Array Memo → Prop) (d : Demand α) (a : α) : Prop :=
  ∀ table, Inv table → ∃ after, d.run table = .ok (a, after) ∧ Inv after

variable {α β : Type} {Inv : Array Memo → Prop}

theorem gives_pure (a : α) : Gives Inv (pure a) a :=
  fun table held => ⟨table, rfl, held⟩

theorem gives_bind {d : Demand α} {f : α → Demand β} {a : α} {b : β} (first : Gives Inv d a)
    (next : Gives Inv (f a) b) : Gives Inv (d >>= f) b := by
  intro table held
  obtain ⟨mid, run, held⟩ := first table held
  obtain ⟨after, rest, held⟩ := next mid held
  refine ⟨after, ?_, held⟩
  rw [StateT.run_bind, run]
  exact rest

theorem gives_mapM {f : α → Demand β} {g : α → β} (items : List α)
    (each : ∀ a ∈ items, Gives Inv (f a) (g a)) : Gives Inv (items.mapM f) (items.map g) := by
  induction items with
  | nil =>
    rw [List.mapM_nil]
    exact gives_pure []
  | cons a rest ih =>
    rw [List.mapM_cons]
    refine gives_bind (each a List.mem_cons_self) ?_
    exact gives_bind (ih fun b hb => each b (List.mem_cons_of_mem a hb)) (gives_pure _)

end Demand

namespace Expr

open Demand

section

variable {Inv : Array Memo → Prop} {whole : BitSet} {leaf : Id → Demand BitSet} {stands : Id → BitSet}

mutual

/-- An expression comes to its set when its leaves come to theirs. -/
theorem gives_demand : (e : Expr Id) → (∀ id ∈ e.leaves, Gives Inv (leaf id) (stands id)) →
    Gives Inv (e.demand whole leaf) (e.evaluate whole stands)
  | item id, leaves => leaves id (List.mem_singleton.mpr rfl)
  | list members, leaves => gives_demandUnion members ∅ leaves
  | apply _ operands, leaves => gives_bind (gives_demandOperands operands leaves) (gives_pure _)

theorem gives_demandUnion : (es : List (Expr Id)) → (acc : BitSet) →
    (∀ id ∈ leavesAll es, Gives Inv (leaf id) (stands id)) →
    Gives Inv (demandUnion whole leaf acc es) (evaluateUnion whole stands acc es)
  | [], acc, _ => gives_pure acc
  | e :: es, _, leaves =>
    gives_bind (gives_demand e fun id hid => leaves id (List.mem_append_left _ hid))
      (gives_demandUnion es _ fun id hid => leaves id (List.mem_append_right _ hid))

theorem gives_demandOperands : (es : List (Expr Id)) →
    (∀ id ∈ leavesAll es, Gives Inv (leaf id) (stands id)) →
    Gives Inv (demandOperands whole leaf es) (evaluateAll whole stands es)
  | [], _ => gives_pure []
  | e :: es, leaves =>
    gives_bind (gives_demand e fun id hid => leaves id (List.mem_append_left _ hid))
      (gives_bind (gives_demandOperands es fun id hid => leaves id (List.mem_append_right _ hid)) (gives_pure _))

end

end

end Expr

namespace Member

/-- What a declaration stands for, evaluated on demand. -/
def demand (members : Array Member) (whole : BitSet) : (fuel : Nat) → Id → Demand BitSet
  | 0, _ => throw .depth
  | fuel + 1, id =>
    match members[id]? with
    | some concrete => return .singleton id
    | some (aliasName (some actual)) => demand members whole fuel actual
    | some (aliasName none) => return .singleton id
    | some (attr sets) => Demand.once id do
      let set ← Expr.demand whole (demand members whole fuel) (.list sets)
      return set.inter whole
    | none => return ∅

/-- What some declarations stand for, when they are asked for in turn and nothing is known
at first. -/
def demandAll (members : Array Member) (ids : List Id) : Except Stuck (List BitSet × Array Memo) :=
  (ids.mapM (demand members (concretes members) (members.size + 2))).run (members.map fun _ => .unknown)

example : demandAll #[concrete, attr [.item 2, .item 0], attr [.item 1]] [0, 1] = .error (.underway 1) := by
  cbv

/-- Attributes lie in layers: in the sets of an attribute stand concrete declarations and
attributes of lower layers. An alias stands for a declaration that is no alias. -/
structure Layered (members : Array Member) (layer : Id → Nat) : Prop where
  bounded : ∀ (id : Nat) sets, members[id]? = some (attr sets) → layer id < members.size
  below : ∀ (id : Nat) sets, members[id]? = some (attr sets) → ∀ e ∈ sets, ∀ leaf ∈ e.leaves,
    ∀ inner, members[leaf]? = some (attr inner) → layer leaf < layer id
  plain : ∀ (id : Nat) sets, members[id]? = some (attr sets) → ∀ e ∈ sets, ∀ leaf ∈ e.leaves,
    ∀ actual, members[leaf]? ≠ some (aliasName actual)
  aliases : ∀ (id : Nat) actual, members[id]? = some (aliasName actual) →
    ∃ a, actual = some a ∧ (members[a]? = some concrete ∨ ∃ sets, members[a]? = some (attr sets))

/-! ### Rounds -/

theorem settle_eq_iterate {α : Type} [DecidableEq α] (step : α → α) (n : Nat) (a : α) :
    settle step n a = step^[n] a := by
  induction n generalizing a with
  | zero => rfl
  | succ n ih =>
    rw [settle]
    split
    · rename_i fixed
      exact (Function.iterate_fixed fixed (n + 1)).symm
    · rw [ih, Function.iterate_succ_apply]

/-- The table after some rounds. -/
def rounds (members : Array Member) (n : Nat) : Array BitSet :=
  (round members (concretes members))^[n] (members.map fun _ => ∅)

theorem evaluate_eq_rounds (members : Array Member) : evaluate members = rounds members (members.size + 1) :=
  settle_eq_iterate _ _ _

theorem getD_rounds_succ {members : Array Member} {n : Nat} {id : Id} {sets : List (Expr Id)}
    (h : members[id]? = some (attr sets)) : (rounds members (n + 1)).getD id ∅ =
      (Expr.evaluate (concretes members) (expand members (rounds members n)) (.list sets)).inter
        (concretes members) := by
  rw [rounds, Function.iterate_succ_apply', round, Array.getD_eq_getD_getElem?, Array.getElem?_map, h]
  rfl

/-- After as many rounds as its layer is high, the set of an attribute stays. -/
theorem Layered.settled {members : Array Member} {layer : Id → Nat} (layered : Layered members layer)
    {n : Nat} {id : Id} {sets : List (Expr Id)} (h : members[id]? = some (attr sets)) (low : layer id < n) :
    (rounds members (n + 1)).getD id ∅ = (rounds members n).getD id ∅ := by
  induction n generalizing id sets with
  | zero => exact absurd low (Nat.not_lt_zero _)
  | succ n ih =>
    rw [getD_rounds_succ h, getD_rounds_succ h]
    congr 1
    refine Expr.evaluate_congr _ fun leaf hleaf => ?_
    obtain ⟨e, he, hleaf⟩ := Expr.mem_leavesAll.mp hleaf
    rw [expand, expand]
    split
    · rfl
    · rename_i other
      exact absurd other (layered.plain id sets h e he leaf hleaf _)
    · rfl
    · rename_i inner found
      have lower := layered.below id sets h e he leaf hleaf inner found
      exact ih found (by omega)
    · rfl

/-- The set of an attribute is that of its expressions. -/
theorem Layered.expand_attr {members : Array Member} {layer : Id → Nat} (layered : Layered members layer)
    {id : Id} {sets : List (Expr Id)} (h : members[id]? = some (attr sets)) :
    expand members (evaluate members) id =
      (Expr.evaluate (concretes members) (expand members (evaluate members)) (.list sets)).inter
        (concretes members) := by
  have low := layered.bounded id sets h
  rw [evaluate_eq_rounds, ← getD_rounds_succ h, layered.settled h (by omega), expand, h]

/-- An alias stands for what its declaration stands for. -/
theorem expand_alias {members : Array Member} {table : Array BitSet} {id actual : Id}
    (h : members[id]? = some (aliasName (some actual)))
    (plain : members[actual]? = some concrete ∨ ∃ sets, members[actual]? = some (attr sets)) :
    expand members table id = expand members table actual := by
  rcases plain with found | ⟨sets, found⟩
  · rw [expand, h, expand, found]
    dsimp only
    rw [found]
  · rw [expand, h, expand, found]
    dsimp only
    rw [found]

/-! ### Demands -/

/-- The table has right sets, and only attributes of some declarations are marked. -/
structure Tidy (members : Array Member) (busy : Id → Prop) (table : Array Memo) : Prop where
  size : table.size = members.size
  known : ∀ (id : Nat) (set : BitSet), table[id]? = some (.known set) →
    set = expand members (evaluate members) id
  underway : ∀ id : Nat, table[id]? = some .underway → busy id

variable {members : Array Member} {layer : Id → Nat} {busy : Id → Prop}

theorem Tidy.mark {table : Array Memo} (tidy : Tidy members busy table) (id : Nat) :
    Tidy members (fun p => p = id ∨ busy p) (table.setIfInBounds id .underway) where
  size := (Array.size_setIfInBounds ..).trans tidy.size
  known p set h := by
    rw [Array.getElem?_setIfInBounds] at h
    split at h
    · split at h <;> cases h
    · exact tidy.known p set h
  underway p h := by
    rw [Array.getElem?_setIfInBounds] at h
    split at h
    · rename_i same
      exact Or.inl same.symm
    · exact Or.inr (tidy.underway p h)

theorem Tidy.keep {table : Array Memo} {id : Nat} (tidy : Tidy members (fun p => p = id ∨ busy p) table)
    (declared : id < members.size) {set : BitSet} (right : set = expand members (evaluate members) id) :
    Tidy members busy (table.setIfInBounds id (.known set)) where
  size := (Array.size_setIfInBounds ..).trans tidy.size
  known p s h := by
    rw [Array.getElem?_setIfInBounds] at h
    split at h
    · rename_i same
      subst same
      rw [if_pos (tidy.size ▸ declared)] at h
      cases h
      exact right
    · exact tidy.known p s h
  underway p h := by
    rw [Array.getElem?_setIfInBounds] at h
    split at h
    · split at h <;> cases h
    · rename_i other
      exact (tidy.underway p h).resolve_left fun same => other same.symm

open Demand

theorem gives_once {id : Nat} {compute : Demand BitSet} (declared : id < members.size) (unmarked : ¬ busy id)
    (computed : Gives (Tidy members fun p => p = id ∨ busy p) compute (expand members (evaluate members) id)) :
    Gives (Tidy members busy) (once id compute) (expand members (evaluate members) id) := by
  intro table tidy
  change ∃ after, once id compute table = .ok _ ∧ _
  unfold once
  split
  · rename_i set found
    exact ⟨table, by rw [tidy.known id set found], tidy⟩
  · rename_i found
    exact absurd (tidy.underway id found) unmarked
  · obtain ⟨after, run, tidy⟩ := computed _ (tidy.mark id)
    exact ⟨_, bind_eq_ok.mpr ⟨_, run, rfl⟩, tidy.keep declared rfl⟩

/-- While the marked attributes are all of higher layers, a declaration that is no alias
comes to what it stands for. -/
theorem Layered.gives_demand (layered : Layered members layer) {fuel : Nat} {id : Id}
    (plain : ∀ actual, members[id]? ≠ some (aliasName actual)) (positive : 0 < fuel)
    (enough : ∀ sets, members[id]? = some (attr sets) → layer id + 1 < fuel)
    (free : ∀ sets, members[id]? = some (attr sets) → ∀ p, busy p → layer id < layer p) :
    Gives (Tidy members busy) (demand members (concretes members) fuel id)
      (expand members (evaluate members) id) := by
  induction fuel generalizing id busy with
  | zero => exact absurd positive (Nat.lt_irrefl 0)
  | succ fuel ih =>
    rw [demand]
    split
    · rename_i h
      rw [expand, h]
      exact gives_pure _
    · rename_i h
      exact absurd h (plain _)
    · rename_i h
      exact absurd h (plain _)
    · rename_i sets h
      have enough := enough sets h
      have unmarked : ¬ busy id := fun marked => Nat.lt_irrefl _ (free sets h id marked)
      have inner : ∀ leaf ∈ (Expr.list sets).leaves,
          Gives (Tidy members fun p => p = id ∨ busy p) (demand members (concretes members) fuel leaf)
            (expand members (evaluate members) leaf) := by
        intro leaf hleaf
        obtain ⟨e, he, hleaf⟩ := Expr.mem_leavesAll.mp hleaf
        have lower := layered.below id sets h e he leaf hleaf
        refine ih (layered.plain id sets h e he leaf hleaf) (by omega) (fun inner found => ?_)
          (fun inner found p hp => ?_)
        · have := lower inner found
          omega
        · rcases hp with rfl | hp
          · exact lower inner found
          · exact Nat.lt_trans (lower inner found) (free sets h p hp)
      refine gives_once (Array.getElem?_eq_some_iff.mp h).1 unmarked ?_
      rw [layered.expand_attr h]
      exact gives_bind (Expr.gives_demand (.list sets) inner) (gives_pure _)
    · rename_i h
      rw [expand, h]
      exact gives_pure _

/-- Whatever is asked for, nothing asks for a marked attribute or goes too deep, and each
declaration comes to what it stands for. -/
theorem Layered.demandAll_ok (layered : Layered members layer) (ids : List Id) :
    ∃ table, demandAll members ids = .ok (ids.map fun id => (expandAll members).getD id ∅, table) := by
  have start : Tidy members (fun _ => False) (members.map fun _ => .unknown) := by
    refine ⟨Array.size_map .., fun id set h => ?_, fun id h => ?_⟩
    · rw [Array.getElem?_map] at h
      cases hm : members[id]? <;> simp [hm] at h
    · rw [Array.getElem?_map] at h
      cases hm : members[id]? <;> simp [hm] at h
  have each : ∀ id ∈ ids, Gives (Tidy members fun _ => False)
      (demand members (concretes members) (members.size + 2) id) ((expandAll members).getD id ∅) := by
    intro id _
    rw [getD_expandAll]
    by_cases named : ∃ actual, members[id]? = some (aliasName actual)
    · obtain ⟨actual, h⟩ := named
      obtain ⟨a, rfl, plain⟩ := layered.aliases id actual h
      rw [demand, h, expand_alias h plain]
      have noAlias : ∀ other, members[a]? ≠ some (aliasName other) := by
        rcases plain with found | ⟨sets, found⟩ <;> simp [found]
      refine layered.gives_demand noAlias (Nat.succ_pos _) (fun sets found => ?_) (fun _ _ _ marked => marked.elim)
      have := layered.bounded a sets found
      omega
    · refine layered.gives_demand (fun actual h => named ⟨actual, h⟩) (Nat.succ_pos _) (fun sets found => ?_)
        (fun _ _ _ marked => marked.elim)
      have := layered.bounded id sets found
      omega
  obtain ⟨table, run, _⟩ := gives_mapM ids each _ start
  exact ⟨table, run⟩

end Member

end CilPolicy
