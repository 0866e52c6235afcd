import CilPolicy.Graph.Cycle
import CilPolicy.Proofs.Report
import Mathlib.Data.List.Perm.Subperm
import Mathlib.Logic.Relation
import Mathlib.Order.WellFounded

/-!
# A search in depth finds a cycle if there is one

The nodes finished by a search are listed so that every node comes before its
successors are listed, and their order gives each node a rank above the ranks of its
successors. The fuel bounds the path, and a path has no node twice, so it never runs
out before the search does. A search that closes a cycle names a node that leads back to
itself. So a search that finds nothing leaves no node that does, and no endless path.
-/

namespace CilPolicy.Graph

variable {α : Type} [DecidableEq α] {next : α → List α}

/-- Each node of the list has its successors further back. -/
def Settled (next : α → List α) : List α → Prop
  | [] => True
  | node :: rest => (∀ child ∈ next node, child ∈ rest) ∧ Settled next rest

/-- The number of nodes from the last occurrence of a node on. -/
def rankIn : List α → α → Nat
  | [], _ => 0
  | node :: rest, a => if a ∈ rest then rankIn rest a else if a = node then rest.length + 1 else 0

theorem rankIn_le (nodes : List α) (a : α) : rankIn nodes a ≤ nodes.length := by
  induction nodes with
  | nil => exact Nat.le_refl _
  | cons node rest ih =>
    rw [rankIn]
    split
    · exact Nat.le_succ_of_le ih
    · split
      · exact Nat.le_refl _
      · exact Nat.zero_le _

theorem rankIn_lt {nodes : List α} (settled : Settled next nodes) {a : α} (ha : a ∈ nodes)
    {child : α} (hc : child ∈ next a) : child ∈ nodes ∧ rankIn nodes child < rankIn nodes a := by
  induction nodes with
  | nil => cases ha
  | cons node rest ih =>
    obtain ⟨children, settled⟩ := settled
    by_cases hrest : a ∈ rest
    · obtain ⟨hmem, hlt⟩ := ih settled hrest
      exact ⟨List.mem_cons_of_mem node hmem, by simpa only [rankIn, if_pos hrest, if_pos hmem]⟩
    · have heq : a = node := (List.mem_cons.mp ha).resolve_right hrest
      have hmem := children child (heq ▸ hc)
      refine ⟨List.mem_cons_of_mem node hmem, ?_⟩
      simp only [rankIn, if_neg hrest, if_pos hmem, if_pos heq]
      exact Nat.lt_succ_of_le (rankIn_le rest child)

/-- Nodes finished later: they are settled, and none of those before is lost. -/
structure Finished (next : α → List α) (before after : List α) : Prop where
  settled : Settled next after
  keeps : before ⊆ after

omit [DecidableEq α] in
/-- Steps that each finish a node finish all nodes when they run one after the other. -/
theorem foldlM_finished {step : List α → α → Except α (List α)} {items : List α}
    (steps : ∀ a ∈ items, ∀ before after, Settled next before → step before a = .ok after →
      Finished next before after ∧ a ∈ after)
    {before after : List α} (settled : Settled next before)
    (run : items.foldlM step before = .ok after) :
    Finished next before after ∧ ∀ a ∈ items, a ∈ after := by
  induction items generalizing before with
  | nil =>
    rw [List.foldlM_nil] at run
    cases run
    exact ⟨⟨settled, fun _ h => h⟩, by simp⟩
  | cons a rest ih =>
    rw [List.foldlM_cons, bind_eq_ok] at run
    obtain ⟨mid, first, run⟩ := run
    obtain ⟨hmid, ha⟩ := steps a List.mem_cons_self before mid settled first
    obtain ⟨hlast, hall⟩ := ih (fun b hb => steps b (List.mem_cons_of_mem a hb)) hmid.settled run
    refine ⟨⟨hlast.settled, fun b hb => hlast.keeps (hmid.keeps hb)⟩, ?_⟩
    intro b hb
    rcases List.mem_cons.mp hb with heq | hb
    · exact heq ▸ hlast.keeps ha
    · exact hall b hb

/-- The path that a search is on: no node twice, and no more nodes than there are. -/
structure OnPath (nodes path : List α) (fuel : Nat) : Prop where
  nodup : path.Nodup
  inside : path ⊆ nodes
  budget : fuel + path.length = nodes.length + 1

omit [DecidableEq α] in
theorem OnPath.length_le {nodes path : List α} {fuel : Nat} (h : OnPath nodes path fuel) :
    path.length ≤ nodes.length :=
  (List.subperm_of_subset h.nodup h.inside).length_le

/-- The nodes have every successor that has successors itself. -/
def ClosedUnder (next : α → List α) (nodes : List α) : Prop :=
  ∀ a ∈ nodes, ∀ child ∈ next a, next child ≠ [] → child ∈ nodes

theorem search_finished {nodes : List α} (closed : ClosedUnder next nodes) {fuel : Nat}
    {path before after : List α} {node : α} (onPath : OnPath nodes path fuel)
    (fresh : node ∉ path) (inside : next node ≠ [] → node ∈ nodes) (settled : Settled next before)
    (run : search next fuel path before node = .ok after) :
    Finished next before after ∧ node ∈ after := by
  induction fuel generalizing path before after node with
  | zero =>
    have := onPath.length_le
    have := onPath.budget
    omega
  | succ fuel ih =>
    rw [search] at run
    obtain ⟨mid, children, done⟩ := bind_eq_ok.mp run
    cases done
    have steps : ∀ a ∈ next node, ∀ before after, Settled next before →
        (if a ∈ node :: path then .error a else if a ∈ before then .ok before
          else search next fuel (node :: path) before a) = .ok after →
        Finished next before after ∧ a ∈ after := by
      intro a ha before after settled run
      split at run
      · cases run
      · rename_i hfresh
        split at run
        · rename_i hdone
          cases run
          exact ⟨⟨settled, fun _ h => h⟩, hdone⟩
        · have hnode : node ∈ nodes := inside (List.ne_nil_of_mem ha)
          have hpath : OnPath nodes (node :: path) fuel := by
            refine ⟨List.nodup_cons.mpr ⟨fresh, onPath.nodup⟩,
              List.cons_subset.mpr ⟨hnode, onPath.inside⟩, ?_⟩
            have := onPath.budget
            rw [List.length_cons]
            omega
          exact ih hpath hfresh (closed node hnode a ha) settled run
    obtain ⟨hmid, hall⟩ := foldlM_finished steps settled children
    exact ⟨⟨⟨hall, hmid.settled⟩, fun b hb => List.mem_cons_of_mem node (hmid.keeps hb)⟩,
      List.mem_cons_self⟩

/-- Where no cycle is found, ranks go down along every edge. -/
theorem exists_rank_of_findCycle {nodes : List α} (closed : ClosedUnder next nodes)
    (acyclic : findCycle nodes next = none) :
    ∃ rank : α → Nat, ∀ a ∈ nodes, ∀ child ∈ next a, rank child < rank a := by
  unfold findCycle at acyclic
  dsimp only at acyclic
  split at acyclic
  · rename_i done run
    have steps : ∀ a ∈ nodes, ∀ before after, Settled next before →
        (if a ∈ before then .ok before else search next (nodes.length + 1) [] before a) = .ok after →
        Finished next before after ∧ a ∈ after := by
      intro a ha before after settled run
      split at run
      · rename_i hdone
        cases run
        exact ⟨⟨settled, fun _ h => h⟩, hdone⟩
      · exact search_finished closed ⟨List.nodup_nil, List.nil_subset _, rfl⟩ List.not_mem_nil
          (fun _ => ha) settled run
    have start : Settled next [] := trivial
    obtain ⟨finished, hall⟩ := foldlM_finished steps start run
    exact ⟨rankIn done, fun a ha child hc => (rankIn_lt finished.settled (hall a ha) hc).2⟩
  · cases acyclic

omit [DecidableEq α] in
theorem countP_lt_countP {p q : α → Bool} {nodes : List α} (weaker : ∀ a, p a = true → q a = true)
    {b : α} (hb : b ∈ nodes) (hp : p b = false) (hq : q b = true) :
    nodes.countP p < nodes.countP q := by
  induction nodes with
  | nil => cases hb
  | cons c rest ih =>
    rw [List.countP_cons, List.countP_cons]
    rcases List.mem_cons.mp hb with heq | hb
    · subst heq
      have := List.countP_mono_left (l := rest) fun a _ => weaker a
      simp only [hp, hq, if_true]
      simp only [Bool.false_eq_true, if_false]
      omega
    · have := ih hb
      by_cases hc : p c = true
      · simp only [hc, weaker c hc, if_true]
        omega
      · simp only [hc, Bool.false_eq_true, if_false]
        omega

/-- Ranks may be chosen below the number of nodes. -/
theorem exists_level_of_findCycle {nodes : List α} (closed : ClosedUnder next nodes)
    (acyclic : findCycle nodes next = none) :
    ∃ level : α → Nat, (∀ a ∈ nodes, level a < nodes.length) ∧
      ∀ a ∈ nodes, ∀ child ∈ next a, child ∈ nodes → level child < level a := by
  obtain ⟨rank, down⟩ := exists_rank_of_findCycle closed acyclic
  refine ⟨fun a => nodes.countP fun b => decide (rank b < rank a), ?_, ?_⟩
  · intro a ha
    have all : nodes.countP (fun _ => true) = nodes.length := by simp
    rw [← all]
    exact countP_lt_countP (by simp) ha (by simp) rfl
  · intro a ha child hc inside
    have hlt := down a ha child hc
    refine countP_lt_countP ?_ inside (by simp) (by simpa using hlt)
    intro b hb
    simp only [decide_eq_true_eq] at hb ⊢
    omega

/-! ### Cycles -/

/-- Some node leads back to itself. -/
def Circular (edge : α → α → Prop) : Prop :=
  ∃ a, Relation.TransGen edge a a

omit [DecidableEq α] in
theorem exists_error_of_foldlM {ε β : Type} {step : β → α → Except ε β} {items : List α} {x : β} {e : ε}
    (run : items.foldlM step x = .error e) : ∃ a ∈ items, ∃ y, step y a = .error e := by
  induction items generalizing x with
  | nil => cases run
  | cons a rest ih =>
    rw [List.foldlM_cons] at run
    cases first : step x a with
    | error e' =>
      rw [first] at run
      cases run
      exact ⟨a, List.mem_cons_self, x, first⟩
    | ok y =>
      rw [first] at run
      obtain ⟨b, hb, found⟩ := ih run
      exact ⟨b, List.mem_cons_of_mem a hb, found⟩

/-- The node at which a search closes a cycle leads back to itself: all nodes on the path
lead to the node that the search is at. -/
theorem transGen_of_search {fuel : Nat} {path done : List α} {node back : α}
    (leads : ∀ a ∈ path, Relation.TransGen (fun a b => b ∈ next a) a node)
    (run : search next fuel path done node = .error back) :
    Relation.TransGen (fun a b => b ∈ next a) back back := by
  induction fuel generalizing path done node with
  | zero => cases run
  | succ fuel ih =>
    rw [search] at run
    cases children : (next node).foldlM (fun done child =>
        if child ∈ node :: path then .error child
        else if child ∈ done then .ok done
        else search next fuel (node :: path) done child) done with
    | ok mid =>
      rw [children] at run
      cases run
    | error e =>
      rw [children] at run
      cases run
      obtain ⟨child, edge, before, found⟩ := exists_error_of_foldlM children
      have onward : ∀ a ∈ node :: path, Relation.TransGen (fun a b => b ∈ next a) a child := by
        intro a ha
        rcases List.mem_cons.mp ha with rfl | ha
        · exact .single edge
        · exact (leads a ha).tail edge
      split at found
      · rename_i closes
        cases found
        exact onward _ closes
      · split at found
        · cases found
        · exact ih onward found

theorem transGen_of_findCycle {nodes : List α} {back : α} (found : findCycle nodes next = some back) :
    Relation.TransGen (fun a b => b ∈ next a) back back := by
  unfold findCycle at found
  dsimp only at found
  split at found
  · cases found
  · rename_i e run
    cases found
    obtain ⟨node, _, done, run⟩ := exists_error_of_foldlM run
    split at run
    · cases run
    · exact transGen_of_search (by simp) run

section Acyclic

variable {nodes : List α} (reached : ∀ a, ∀ child ∈ next a, next child ≠ [] → child ∈ nodes)

include reached

/-- Where a search finds nothing, every path comes to an end. -/
theorem wellFounded_of_findCycle (acyclic : findCycle nodes next = none) :
    WellFounded fun child a => child ∈ next a := by
  obtain ⟨rank, down⟩ := exists_rank_of_findCycle (fun a _ => reached a) acyclic
  have listed : ∀ bound, ∀ a ∈ nodes, rank a < bound → Acc (fun child a => child ∈ next a) a := by
    intro bound
    induction bound with
    | zero => exact fun a _ h => absurd h (Nat.not_lt_zero _)
    | succ bound ih =>
      refine fun a ha h => Acc.intro a fun child hc => ?_
      by_cases last : next child = []
      · exact Acc.intro child fun b hb => absurd hb (by simp [last])
      · exact ih child (reached a child hc last) (Nat.lt_of_lt_of_le (down a ha child hc) (Nat.le_of_lt_succ h))
  refine ⟨fun a => Acc.intro a fun child hc => ?_⟩
  by_cases last : next child = []
  · exact Acc.intro child fun b hb => absurd hb (by simp [last])
  · exact listed _ child (reached a child hc last) (Nat.lt_succ_self _)

/-- A search finds a cycle exactly when there is one. -/
theorem findCycle_eq_none_iff : findCycle nodes next = none ↔ ¬ Circular fun a b => b ∈ next a := by
  constructor
  · rintro acyclic ⟨a, loop⟩
    have ends := (wellFounded_of_findCycle reached acyclic).transGen
    have back : Relation.TransGen (fun child a => child ∈ next a) a a := Relation.transGen_swap.mp loop
    exact ends.asymmetric a a back back
  · intro acyclic
    cases found : findCycle nodes next with
    | none => rfl
    | some back => exact absurd ⟨back, transGen_of_findCycle found⟩ acyclic

end Acyclic

end CilPolicy.Graph
