import CilPolicy.Evaluation.Database
import CilPolicy.Proofs.Evaluation.Expression
import CilPolicy.Proofs.Report

/-!
# The sets of an evaluated policy

Whatever the rounds of an evaluation come to, every set is well formed and has
concrete declarations only. The same holds of what is granted to roles and users.
-/

namespace CilPolicy

open BitSet

theorem settle_invariant {α : Type} [DecidableEq α] {step : α → α} (Inv : α → Prop)
    (keeps : ∀ a, Inv a → Inv (step a)) (n : Nat) {a : α} (start : Inv a) :
    Inv (settle step n a) := by
  induction n generalizing a with
  | zero => exact start
  | succ n ih =>
    unfold settle
    dsimp only
    split
    · exact start
    · exact ih (keeps a start)

/-- The set is well formed and has numbers of the whole only. -/
structure Within (whole set : BitSet) : Prop where
  wellFormed : set.WellFormed
  inside : ∀ n, n ∈ set → n ∈ whole

theorem within_empty (whole : BitSet) : Within whole ∅ :=
  ⟨wellFormed_empty, by simp⟩

theorem within_singleton {whole : BitSet} {id : Nat} (h : id ∈ whole) : Within whole (.singleton id) :=
  ⟨wellFormed_singleton id, fun _ hn => mem_singleton.mp hn ▸ h⟩

theorem within_union {whole a b : BitSet} (ha : Within whole a) (hb : Within whole b) :
    Within whole (a.union b) := by
  refine ⟨wellFormed_union ha.wellFormed hb.wellFormed, fun n hn => ?_⟩
  rcases (mem_union ha.wellFormed hb.wellFormed).mp hn with hn | hn
  · exact ha.inside n hn
  · exact hb.inside n hn

/-- Every set of the table is within the whole. -/
def AllWithin (whole : BitSet) (table : Array BitSet) : Prop :=
  ∀ id, Within whole (table.getD id ∅)

theorem allWithin_map {α : Type} {whole : BitSet} {items : Array α} {f : α → BitSet}
    (h : ∀ a, Within whole (f a)) : AllWithin whole (items.map f) := by
  intro id
  rw [Array.getD_eq_getD_getElem?, Array.getElem?_map]
  cases items[id]? with
  | none => exact within_empty whole
  | some a => exact h a

namespace Member

theorem mem_concretes {members : Array Member} {n : Nat} :
    n ∈ concretes members ↔ members[n]? = some concrete := by
  rw [concretes, mem_ofList, List.mem_filter, List.mem_range]
  constructor
  · rintro ⟨_, h⟩
    split at h
    · assumption
    · cases h
  · intro h
    refine ⟨(Array.getElem?_eq_some_iff.mp h).1, ?_⟩
    simp [h]

theorem within_expand {members : Array Member} {table : Array BitSet}
    (bounded : AllWithin (concretes members) table) (id : Id) :
    Within (concretes members) (expand members table id) := by
  rw [expand]
  split
  · rename_i h
    exact within_singleton (mem_concretes.mpr h)
  · rename_i actual h
    split
    · rename_i h
      exact within_singleton (mem_concretes.mpr h)
    · exact bounded actual
  · exact within_empty _
  · exact bounded id
  · exact within_empty _

theorem allWithin_round {members : Array Member} {table : Array BitSet}
    (bounded : AllWithin (concretes members) table) :
    AllWithin (concretes members) (round members (concretes members) table) := by
  have whole : (concretes members).WellFormed := wellFormed_ofList _
  apply allWithin_map
  intro m
  split
  · rename_i sets
    have leaves := fun id => (within_expand bounded id).wellFormed
    have set := (Expr.represents_evaluate whole leaves (.list sets)).1
    exact ⟨wellFormed_inter set whole, fun n hn => ((mem_inter set whole).mp hn).2⟩
  · exact within_empty _

theorem allWithin_evaluate (members : Array Member) :
    AllWithin (concretes members) (evaluate members) := by
  apply settle_invariant (AllWithin (concretes members)) fun _ => allWithin_round
  exact allWithin_map fun _ => within_empty _

theorem getD_expandAll (members : Array Member) (id : Id) :
    (expandAll members).getD id ∅ = expand members (evaluate members) id := by
  rw [expandAll, Array.getD_eq_getD_getElem?, Array.getElem?_map, Array.getElem?_range]
  by_cases h : id < members.size
  · simp [h]
  · simp [h, expand]

theorem allWithin_expandAll (members : Array Member) :
    AllWithin (concretes members) (expandAll members) := by
  intro id
  rw [getD_expandAll]
  exact within_expand (allWithin_evaluate members) id

theorem lt_of_mem_expandAll {members : Array Member} {id : Id} {n : Nat} (h : n ∈ (expandAll members).getD id ∅) :
    n < (expandAll members).size := by
  have concrete := mem_concretes.mp ((allWithin_expandAll members id).inside n h)
  simpa [expandAll] using (Array.getElem?_eq_some_iff.mp concrete).1

/-- A concrete declaration stands for itself. -/
theorem expandAll_concrete {members : Array Member} {id : Id} (h : members[id]? = some concrete) :
    (expandAll members).getD id ∅ = .singleton id := by
  rw [getD_expandAll, expand, h]

end Member

theorem within_foldl {α : Type} {whole : BitSet} {f : BitSet → α → BitSet}
    (keeps : ∀ acc a, Within whole acc → Within whole (f acc a)) (items : List α) {acc : BitSet}
    (start : Within whole acc) : Within whole (items.foldl f acc) := by
  induction items generalizing acc with
  | nil => exact start
  | cons a rest ih => exact ih (keeps acc a start)

theorem within_unionOf {whole : BitSet} {sets : Array BitSet} (bounded : AllWithin whole sets)
    (ids : List Id) : Within whole (unionOf sets ids) :=
  within_foldl (fun _ id hacc => within_union hacc (bounded id)) ids (within_empty whole)

theorem allWithin_spreadGrants {whole : BitSet} (owners : Array BitSet) {grants : Array BitSet}
    (bounded : AllWithin whole grants) : AllWithin whole (spreadGrants owners grants) := by
  apply allWithin_map
  intro owner
  apply within_foldl ?_ _ (within_empty whole)
  intro acc giver hacc
  split
  · exact within_union hacc (bounded giver)
  · exact hacc

theorem mem_foldl_union {α : Type} {f : α → BitSet} (wellFormed : ∀ a, (f a).WellFormed) (items : List α)
    {acc : BitSet} (start : acc.WellFormed) {n : Nat} :
    n ∈ items.foldl (fun acc a => acc.union (f a)) acc ↔ n ∈ acc ∨ ∃ a ∈ items, n ∈ f a := by
  induction items generalizing acc with
  | nil => simp
  | cons a rest ih =>
    rw [List.foldl_cons, ih (wellFormed_union start (wellFormed a)), mem_union start (wellFormed a), or_assoc]
    simp

theorem mem_unionOf {whole : BitSet} {sets : Array BitSet} (bounded : AllWithin whole sets) {ids : List Id}
    {n : Nat} : n ∈ unionOf sets ids ↔ ∃ id ∈ ids, n ∈ sets.getD id ∅ := by
  rw [unionOf, mem_foldl_union (fun id => (bounded id).wellFormed) ids wellFormed_empty]
  simp

theorem mem_spreadGrants {whole : BitSet} {owners grants : Array BitSet} (bounded : AllWithin whole grants)
    {owner n : Nat} : n ∈ (spreadGrants owners grants).getD owner ∅ ↔
      owner < owners.size ∧ ∃ giver, owner ∈ owners.getD giver ∅ ∧ n ∈ grants.getD giver ∅ := by
  rw [spreadGrants, Array.getD_eq_getD_getElem?, Array.getElem?_map, Array.getElem?_range]
  by_cases inside : owner < owners.size
  · simp only [inside, if_true, Option.map_some, Option.getD_some, true_and]
    rw [← List.foldl_filter, mem_foldl_union (fun giver => (bounded giver).wellFormed) _ wellFormed_empty]
    constructor
    · intro h
      obtain ⟨giver, given, granted⟩ := h.resolve_left (not_mem_empty n)
      exact ⟨giver, (List.mem_filter.mp given).2, granted⟩
    · rintro ⟨giver, given, granted⟩
      refine Or.inr ⟨giver, List.mem_filter.mpr ⟨List.mem_range.mpr ?_, given⟩, granted⟩
      by_contra outside
      rw [Array.getD_eq_getD_getElem?, Array.getElem?_eq_none (Nat.le_of_not_lt outside)] at given
      exact not_mem_empty _ given
  · simp [inside]

/-- An owner is granted all that is granted to what stands for it. -/
theorem mem_spread_unionOf {α : Type} {whole : BitSet} {owners sets : Array BitSet} (bounded : AllWithin whole sets)
    {r : Registry α} {grants : α → List Id} {owner n : Nat} :
    n ∈ (spreadGrants owners (r.entries.map fun d => unionOf sets (grants d.value))).getD owner ∅ ↔
      owner < owners.size ∧ ∃ giver, owner ∈ owners.getD giver ∅ ∧
        ∃ what ∈ ((r.value? giver).map grants).getD [], n ∈ sets.getD what ∅ := by
  rw [mem_spreadGrants (allWithin_map fun _ => within_unionOf bounded _)]
  refine and_congr_right fun _ => exists_congr fun giver => and_congr_right fun _ => ?_
  rw [Array.getD_eq_getD_getElem?, Array.getElem?_map, Registry.value?, Registry.get?]
  cases r.entries[giver]? with
  | none => simp
  | some d => exact mem_unionOf bounded

/-! ### The evaluated database -/

namespace EvaluatedDatabase

/-- The sets of the database are those of its declarations. -/
structure Evaluated (db : EvaluatedDatabase) : Prop where
  types : db.typeSets = Member.expandAll db.typeMembers
  roles : db.roleSets = Member.expandAll db.roleMembers
  users : db.userSets = Member.expandAll db.userMembers
  roleTypes : db.roleTypes =
    spreadGrants db.roleSets (db.roles.entries.map fun d => unionOf db.typeSets d.value.types)
  userRoles : db.userRoles =
    spreadGrants db.userSets (db.users.entries.map fun d => unionOf db.roleSets d.value.roles)

variable {db : EvaluatedDatabase}

theorem mem_concretes_types {id : Id} :
    id ∈ Member.concretes db.typeMembers ↔ db.types.test id (·.kind == .concrete) = true := by
  rw [Member.mem_concretes, Database.typeMembers, Array.getElem?_map]
  simp only [Registry.test, Registry.value?, Registry.get?]
  cases db.types.entries[id]? with
  | none => simp
  | some d =>
    obtain ⟨_, _, t⟩ := d
    cases hk : t.kind <;> simp [hk]

theorem Evaluated.within_expandType (h : db.Evaluated) (id : Id) :
    Within (Member.concretes db.typeMembers) (db.expandType id) := by
  rw [expandType, h.types]
  exact Member.allWithin_expandAll _ id

theorem Evaluated.expandType_wellFormed (h : db.Evaluated) (id : Id) :
    (db.expandType id).WellFormed :=
  (h.within_expandType id).wellFormed

/-- A type stands for concrete types. -/
theorem Evaluated.concrete_of_mem (h : db.Evaluated) {id s : Id} (hs : s ∈ db.expandType id) :
    db.types.test s (·.kind == .concrete) = true :=
  mem_concretes_types.mp ((h.within_expandType id).inside s hs)

/-- A concrete type stands for itself. -/
theorem Evaluated.mem_expandType_concrete (h : db.Evaluated) {id s : Id}
    (concrete : db.types.test id (·.kind == .concrete) = true) : s ∈ db.expandType id ↔ s = id := by
  have member := Member.mem_concretes.mp (mem_concretes_types.mpr concrete)
  rw [expandType, h.types, Member.expandAll_concrete member, mem_singleton]

theorem Evaluated.within_roleTypes (h : db.Evaluated) (role : Id) :
    Within (Member.concretes db.typeMembers) (db.roleTypes.getD role ∅) := by
  rw [h.roleTypes]
  refine allWithin_spreadGrants _ (allWithin_map fun d => within_unionOf ?_ _) role
  rw [h.types]
  exact Member.allWithin_expandAll _

theorem Evaluated.within_userRoles (h : db.Evaluated) (user : Id) :
    Within (Member.concretes db.roleMembers) (db.userRoles.getD user ∅) := by
  rw [h.userRoles]
  refine allWithin_spreadGrants _ (allWithin_map fun d => within_unionOf ?_ _) user
  rw [h.roles]
  exact Member.allWithin_expandAll _

end EvaluatedDatabase

/-- Evaluation changes no declaration and no rule; it puts the labels in order. -/
theorem OrderedDatabase.evaluate_spec {db : OrderedDatabase} {repeats : Bool}
    {result : EvaluatedDatabase} (run : (db.evaluate repeats).Yields result) :
    result.Evaluated ∧
      result.toOrderedDatabase = { db with labels := (db.sortedLabels repeats).1 } := by
  rw [OrderedDatabase.evaluate] at run
  obtain ⟨_, _, run⟩ := Report.yields_bind run
  obtain ⟨_, _, run⟩ := Report.yields_bind run
  cases Report.yields_pure run
  exact ⟨⟨rfl, rfl, rfl, rfl, rfl⟩, rfl⟩

end CilPolicy
