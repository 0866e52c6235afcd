import CilPolicy.Proofs.Kernel.FilenameMap
import Mathlib.Data.Set.Card

/-!
# Transitions by object name, call by call

Rules are added in place: a call makes an entry for its key before it looks at the sources, and what
is in the table when the call fails stays there. The entry of a new key has no groups, though, so
nothing can be in the way of the rule, and the call fills the entry. The table keeps the first result
for each source and key, and its groups say it once.
-/

namespace CilPolicy

namespace FilenameTransitions

variable {t t' : FilenameTransitions} {source result : Nat} {key : FilenameKey}

/-! ### Calls in place -/

/-- A call that fails leaves the table as it was, and otherwise it leaves what adding the rule gives. -/
theorem call_eq (t : FilenameTransitions) (c : FilenameCall) :
    t.call c = match t.add c.source c.key c.result with
      | .ok (new, t') => (.ok new, t')
      | .error fault => (.error fault, t) := by
  rw [call_of_groups, add_eq]
  cases (t.groups c.key).find? (·.sources.has (c.source - 1)) with
  | none => rfl
  | some g =>
    by_cases agrees : g.result = c.result
    · simp [agrees]
    · simp [agrees]

/-- The table that calls leave, the first of them on the empty table. -/
def after (calls : List FilenameCall) : FilenameTransitions :=
  calls.foldl (fun t c => (t.call c).2) default

/-- The groups of a key: each has a source, none of them one of another's, and the results differ. -/
structure Partitioned (groups : List FilenameGroup) : Prop where
  filled : groups ≠ []
  inhabited : ∀ g ∈ groups, ∃ n, n ∈ g.sources
  apart : groups.Pairwise fun g h => ∀ n, n ∈ g.sources → n ∉ h.sources
  results : (groups.map (·.result)).Nodup

theorem inhabited_extend {bit : Nat} {groups : List FilenameGroup}
    (wellFormed : ∀ g ∈ groups, g.sources.WellFormed) (inhabited : ∀ g ∈ groups, ∃ n, n ∈ g.sources) :
    ∀ g ∈ extend bit result groups, ∃ n, n ∈ g.sources := by
  intro g member
  rcases mem_extend member with rfl | old | ⟨old, listed, rfl⟩
  · exact ⟨bit, BitSet.mem_singleton.mpr rfl⟩
  · exact inhabited g old
  · exact ⟨bit, (BitSet.mem_insert (wellFormed old listed)).mpr (Or.inl rfl)⟩

/-- The table denotes the map, and the groups of every key divide its sources. -/
structure Holds (t : FilenameTransitions) (map : Nat → FilenameKey → Option Nat) : Prop where
  grouped : t.Grouped
  partitioned : ∀ entry ∈ t.entries, Partitioned entry.2
  result : ∀ source key, 0 < source → t.result? source key = map source key

namespace Holds

variable {map : Nat → FilenameKey → Option Nat}

theorem partitioned_extend (holds : t.Holds map) {bit : Nat} (fresh : ∀ g ∈ t.groups key, bit ∉ g.sources) :
    Partitioned (extend bit result (t.groups key)) := by
  obtain ⟨wellFormed, apart⟩ := holds.grouped.groups key
  have known : (∀ g ∈ t.groups key, ∃ n, n ∈ g.sources) ∧ ((t.groups key).map (·.result)).Nodup := by
    rw [groups]
    cases found : Chain.find? FilenameKey.order key t.entries with
    | none => exact ⟨fun g listed => absurd listed List.not_mem_nil, .nil⟩
    | some groups =>
      have partitioned := holds.partitioned _ (Chain.mem_of_find? found)
      exact ⟨partitioned.inhabited, partitioned.results⟩
  exact ⟨extend_ne_nil, inhabited_extend wellFormed known.1, apart_extend wellFormed fresh apart,
    nodup_extend known.2⟩

/-- A rule without a result for its source and key is added, and the map has it then. -/
theorem add_new (holds : t.Holds map) (positive : 0 < source) (absent : map source key = none) (result : Nat) :
    ∃ t', t.add source key result = .ok (true, t') ∧
      t'.Holds fun s k => if source = s ∧ key = k then some result else map s k := by
  have missing : (t.groups key).find? (·.sources.has (source - 1)) = none := by
    rw [← holds.result source key positive, result?, Option.map_eq_none_iff] at absent
    exact absent
  have run : t.add source key result =
      .ok (true, t.setGroups key (extend (source - 1) result (t.groups key))) := by
    rw [add_eq, missing]
  refine ⟨_, run, holds.grouped.add run, fun entry listed => ?_, fun s k pos => Option.ext fun r => ?_⟩
  · rcases mem_setGroups listed with old | rfl
    · exact holds.partitioned entry old
    · exact holds.partitioned_extend (fresh_of_find? missing)
  · rw [result?_add holds.grouped run, holds.result s k pos]
    by_cases same : source = s ∧ key = k
    · obtain ⟨rfl, rfl⟩ := same
      simp [absent, eq_comm]
    · have other : ¬ (s - 1 = source - 1 ∧ k = key ∧ r = result) := by
        rintro ⟨bit, rfl, rfl⟩
        exact same ⟨by omega, rfl⟩
      simp [same, other]

/-- A rule with a result for its source and key is there already, or in conflict with it. -/
theorem add_known (holds : t.Holds map) (positive : 0 < source) {r : Nat} (present : map source key = some r)
    (result : Nat) :
    t.add source key result =
      if r = result then .ok (false, t) else .error (.transitionConflict source r result) := by
  rw [← holds.result source key positive, result?] at present
  obtain ⟨g, found, rfl⟩ := Option.map_eq_some_iff.mp present
  rw [add_eq, found]

/-- What a call does depends on the map alone. -/
theorem call (holds : t.Holds map) (c : FilenameCall) (positive : 0 < c.source) :
    match map c.source c.key with
    | some r => t.call c =
        (if r = c.result then .ok false else .error (.transitionConflict c.source r c.result), t)
    | none => ∃ t', t.call c = (.ok true, t') ∧
        t'.Holds fun s k => if c.source = s ∧ c.key = k then some c.result else map s k := by
  split
  · rename_i r present
    rw [call_eq, holds.add_known positive present c.result]
    by_cases same : r = c.result
    · rw [if_pos same, if_pos same]
    · rw [if_neg same, if_neg same]
  · rename_i absent
    obtain ⟨t', run, holds'⟩ := holds.add_new positive absent c.result
    exact ⟨t', by rw [call_eq, run], holds'⟩

end Holds

/-- A rule is listed for each entry of the map and for nothing else. -/
theorem Holds.exists_rule {map : Nat → FilenameKey → Option Nat} (holds : t.Holds map)
    (zero : ∀ key, map 0 key = none) {p : FilenameKey → Nat → Nat → Prop} :
    (∃ r ∈ t.rules, p r.1 (r.2.2 + 1) r.2.1) ↔
      ∃ key source result, map source key = some result ∧ p key source result := by
  constructor
  · rintro ⟨⟨key, result, bit⟩, member, fact⟩
    refine ⟨key, bit + 1, result, ?_, fact⟩
    rw [← holds.result _ _ bit.succ_pos]
    exact holds.grouped.mem_rules.mp member
  · rintro ⟨key, source, result, known, fact⟩
    cases source with
    | zero =>
      rw [zero] at known
      cases known
    | succ bit =>
      rw [← holds.result _ _ bit.succ_pos] at known
      exact ⟨(key, result, bit), holds.grouped.mem_rules.mpr known, fact⟩

/-- There are as many rules as entries of the map. -/
theorem Holds.ruleCount {map : Nat → FilenameKey → Option Nat} (holds : t.Holds map)
    (zero : ∀ key, map 0 key = none) :
    t.ruleCount = {p : Nat × FilenameKey | map p.1 p.2 ≠ none}.ncard := by
  have listed : ∀ p : Nat × FilenameKey, p ∈ (t.rules.map fun r => (r.2.2 + 1, r.1)) ↔ map p.1 p.2 ≠ none := by
    intro p
    rw [List.mem_map, holds.exists_rule zero (p := fun key source _ => (source, key) = p),
      Option.ne_none_iff_exists']
    constructor
    · rintro ⟨key, source, result, known, rfl⟩
      exact ⟨result, known⟩
    · rintro ⟨result, known⟩
      exact ⟨p.2, p.1, result, known, rfl⟩
  have nodup : (t.rules.map fun r => (r.2.2 + 1, r.1)).Nodup := by
    have pairs : t.rules.map (fun r => (r.2.2 + 1, r.1)) =
        (t.rules.map fun r => (r.1, r.2.2)).map fun p => (p.2 + 1, p.1) := by
      rw [List.map_map]
      rfl
    rw [pairs]
    refine holds.grouped.nodup_rules.map ?_
    rintro ⟨k, bit⟩ ⟨k', bit'⟩ same
    simpa [and_comm] using same
  have domain : {p : Nat × FilenameKey | map p.1 p.2 ≠ none} =
      ((t.rules.map fun r => (r.2.2 + 1, r.1)).toFinset : Set (Nat × FilenameKey)) := by
    ext p
    rw [Finset.mem_coe, List.mem_toFinset, listed]
    rfl
  rw [domain, Set.ncard_coe_finset, List.toFinset_card_of_nodup nodup, List.length_map, length_rules]

end FilenameTransitions

end CilPolicy
