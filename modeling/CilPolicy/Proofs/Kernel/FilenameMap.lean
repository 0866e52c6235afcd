import CilPolicy.Proofs.Kernel.FilenameTransition

/-!
# Transitions by object name as a map

Whatever the order in which rules are added, they come to a map from sources and keys to results.
A source is in one group of a key at most, so the map has one entry for each source and key, and the
rules that are listed are these entries.
-/

namespace CilPolicy

namespace FilenameTransitions

/-- The result to which the source leads under the key. -/
def result? (t : FilenameTransitions) (source : Nat) (key : FilenameKey) : Option Nat :=
  ((t.groups key).find? (·.sources.has (source - 1))).map (·.result)

/-- The keys ascend, each has a source, and no two groups of a key have a source in common. -/
structure Grouped (t : FilenameTransitions) : Prop where
  ascending : Chain.Ascending FilenameKey.order t.entries
  wellFormed : ∀ entry ∈ t.entries, ∀ g ∈ entry.2, g.sources.WellFormed
  inhabited : ∀ entry ∈ t.entries, ∃ g ∈ entry.2, ∃ n, n ∈ g.sources
  apart : ∀ entry ∈ t.entries, entry.2.Pairwise fun g h => ∀ n, n ∈ g.sources → n ∉ h.sources

theorem grouped_default : Grouped default where
  ascending := .nil
  wellFormed _ mem := absurd mem List.not_mem_nil
  inhabited _ mem := absurd mem List.not_mem_nil
  apart _ mem := absurd mem List.not_mem_nil

/-! ### Groups of one key -/

section Groups

variable {bit n result : Nat} {groups : List FilenameGroup}
  (wellFormed : ∀ g ∈ groups, g.sources.WellFormed)

include wellFormed

theorem wellFormed_extend : ∀ g ∈ extend bit result groups, g.sources.WellFormed := by
  intro g mem
  rcases mem_extend mem with rfl | old | ⟨old, hold, rfl⟩
  · exact BitSet.wellFormed_singleton bit
  · exact wellFormed g old
  · exact BitSet.wellFormed_insert (wellFormed old hold) bit

/-- Only the new source is in a group in which it was not before. -/
theorem source_of_mem_extend {g : FilenameGroup} (mem : g ∈ extend bit result groups)
    (source : n ∈ g.sources) : n = bit ∨ ∃ old ∈ groups, n ∈ old.sources := by
  rcases mem_extend mem with rfl | old | ⟨old, hold, rfl⟩
  · exact .inl (BitSet.mem_singleton.mp source)
  · exact .inr ⟨g, old, source⟩
  · exact ((BitSet.mem_insert (wellFormed old hold)).mp source).imp_right fun source => ⟨old, hold, source⟩

theorem apart_extend (fresh : ∀ g ∈ groups, bit ∉ g.sources)
    (apart : groups.Pairwise fun g h => ∀ n, n ∈ g.sources → n ∉ h.sources) :
    (extend bit result groups).Pairwise fun g h => ∀ n, n ∈ g.sources → n ∉ h.sources := by
  induction groups with
  | nil => exact List.pairwise_singleton _ _
  | cons first rest ih =>
    obtain ⟨ahead, apart⟩ := List.pairwise_cons.mp apart
    have others := fun g hg => wellFormed g (List.mem_cons_of_mem first hg)
    rw [extend]
    split
    · refine List.pairwise_cons.mpr ⟨fun h hh n source => ?_, apart⟩
      rcases (BitSet.mem_insert (wellFormed first List.mem_cons_self)).mp source with rfl | source
      · exact fresh h (List.mem_cons_of_mem first hh)
      · exact ahead h hh n source
    · refine List.pairwise_cons.mpr ⟨fun h hh n source shared => ?_,
        ih others (fun g hg => fresh g (List.mem_cons_of_mem first hg)) apart⟩
      rcases source_of_mem_extend others hh shared with rfl | ⟨old, hold, shared⟩
      · exact fresh first List.mem_cons_self source
      · exact ahead old hold n source shared

/-- Another source stays where it is. -/
theorem find?_extend_of_ne (differ : n ≠ bit) :
    ((extend bit result groups).find? (·.sources.has n)).map (·.result) =
      (groups.find? (·.sources.has n)).map (·.result) := by
  induction groups with
  | nil =>
    have absent : (BitSet.singleton bit).has n = false := by
      rw [← Bool.not_eq_true, ← BitSet.mem_iff_has, BitSet.mem_singleton]
      exact differ
    simp [extend, absent]
  | cons first rest ih =>
    rw [extend]
    split
    · have same : (first.sources.insert bit).has n = first.sources.has n := by
        rw [Bool.eq_iff_iff, ← BitSet.mem_iff_has, ← BitSet.mem_iff_has,
          BitSet.mem_insert (wellFormed first List.mem_cons_self)]
        exact or_iff_right differ
      rw [List.find?_cons, List.find?_cons, same]
      cases first.sources.has n <;> rfl
    · rw [List.find?_cons, List.find?_cons]
      cases first.sources.has n with
      | true => rfl
      | false => exact ih fun g hg => wellFormed g (List.mem_cons_of_mem first hg)

/-- A new source is found with its result. -/
theorem find?_extend_self (fresh : ∀ g ∈ groups, bit ∉ g.sources) :
    ((extend bit result groups).find? (·.sources.has bit)).map (·.result) = some result := by
  induction groups with
  | nil =>
    have found : (BitSet.singleton bit).has bit = true :=
      BitSet.mem_iff_has.mp (BitSet.mem_singleton.mpr rfl)
    simp [extend, found]
  | cons first rest ih =>
    rw [extend]
    split
    · rename_i same
      have found : (first.sources.insert bit).has bit = true :=
        BitSet.mem_iff_has.mp ((BitSet.mem_insert (wellFormed first List.mem_cons_self)).mpr (.inl rfl))
      rw [List.find?_cons, found]
      exact congrArg some same
    · have absent : first.sources.has bit = false := by
        rw [← Bool.not_eq_true, ← BitSet.mem_iff_has]
        exact fresh first List.mem_cons_self
      rw [List.find?_cons, absent]
      exact ih (fun g hg => wellFormed g (List.mem_cons_of_mem first hg))
        fun g hg => fresh g (List.mem_cons_of_mem first hg)

theorem exists_source_extend (fresh : ∀ g ∈ groups, bit ∉ g.sources) :
    ∃ g ∈ extend bit result groups, ∃ n, n ∈ g.sources := by
  have leads : ((extend bit result groups).find? (·.sources.has bit)).map (·.result) = some result :=
    find?_extend_self wellFormed fresh
  obtain ⟨g, found, _⟩ := Option.map_eq_some_iff.mp leads
  have source := List.find?_some (p := fun h : FilenameGroup => h.sources.has bit) found
  exact ⟨g, List.mem_of_find?_eq_some found, bit, BitSet.mem_iff_has.mpr source⟩

end Groups

/-! ### Adding a rule -/

section Add

variable {t t' : FilenameTransitions} {source s result r : Nat} {key k : FilenameKey} {new : Bool}

/-- A rule is refused when its source leads to another result under its key. -/
theorem add_error_iff :
    (∃ e, t.add source key result = .error e) ↔ ∃ r, t.result? source key = some r ∧ r ≠ result := by
  rw [add_eq, result?]
  cases (t.groups key).find? (·.sources.has (source - 1)) with
  | none => simp
  | some g =>
    by_cases same : g.result = result
    · simp [same]
    · simp [same]

theorem fresh_of_find? (absent : (t.groups key).find? (·.sources.has (source - 1)) = none) :
    ∀ g ∈ t.groups key, source - 1 ∉ g.sources := by
  intro g mem shared
  exact List.find?_eq_none.mp absent g mem (BitSet.mem_iff_has.mp shared)

theorem Grouped.groups (grouped : t.Grouped) (key : FilenameKey) :
    (∀ g ∈ t.groups key, g.sources.WellFormed) ∧
      (t.groups key).Pairwise fun g h => ∀ n, n ∈ g.sources → n ∉ h.sources := by
  rw [FilenameTransitions.groups]
  cases found : Chain.find? FilenameKey.order key t.entries with
  | none => exact ⟨fun g mem => absurd mem List.not_mem_nil, .nil⟩
  | some groups =>
    have mem := Chain.mem_of_find? found
    exact ⟨grouped.wellFormed _ mem, grouped.apart _ mem⟩

theorem Grouped.add (grouped : t.Grouped) (run : t.add source key result = .ok (new, t')) : t'.Grouped := by
  obtain ⟨wellFormed, apart⟩ := grouped.groups key
  rw [add_eq] at run
  split at run
  · split at run
    · cases run
      exact grouped
    · cases run
  · rename_i absent
    cases run
    refine ⟨ascending_setGroups grouped.ascending, fun entry mem => ?_, fun entry mem => ?_, fun entry mem => ?_⟩
    · rcases mem_setGroups mem with old | rfl
      · exact grouped.wellFormed entry old
      · exact wellFormed_extend wellFormed
    · rcases mem_setGroups mem with old | rfl
      · exact grouped.inhabited entry old
      · exact exists_source_extend wellFormed (fresh_of_find? absent)
    · rcases mem_setGroups mem with old | rfl
      · exact grouped.apart entry old
      · exact apart_extend wellFormed (fresh_of_find? absent) apart

/-- A rule that is added gives its source its result under its key, and nothing else changes. -/
theorem result?_add (grouped : t.Grouped) (run : t.add source key result = .ok (new, t')) :
    t'.result? s k = some r ↔ t.result? s k = some r ∨ (s - 1 = source - 1 ∧ k = key ∧ r = result) := by
  obtain ⟨wellFormed, _⟩ := grouped.groups key
  rw [add_eq] at run
  split at run
  · rename_i g found
    split at run
    · rename_i same
      cases run
      refine (or_iff_left_of_imp ?_).symm
      rintro ⟨bit, rfl, rfl⟩
      rw [result?, bit, found, Option.map_some, same]
    · cases run
  · rename_i absent
    cases run
    have fresh := fresh_of_find? absent
    rw [result?, result?, groups_setGroups]
    by_cases here : k = key
    · subst here
      rw [if_pos rfl]
      by_cases bit : s - 1 = source - 1
      · rw [bit, find?_extend_self wellFormed fresh, absent]
        simp [eq_comm]
      · rw [find?_extend_of_ne wellFormed bit]
        simp [bit]
    · simp [here]

end Add

/-! ### The rules that are listed -/

theorem mem_spread {κ β : Type} {lists : List (κ × List β)} {key : κ} {b : β} :
    (key, b) ∈ spread lists ↔ ∃ members, (key, members) ∈ lists ∧ b ∈ members := by
  rw [spread, List.mem_flatMap]
  constructor
  · rintro ⟨⟨k, members⟩, listed, mem⟩
    obtain ⟨c, hc, same⟩ := List.mem_map.mp mem
    cases same
    exact ⟨members, listed, hc⟩
  · rintro ⟨members, listed, mem⟩
    exact ⟨(key, members), listed, List.mem_map.mpr ⟨b, mem, rfl⟩⟩

theorem mem_groupRules {groups : List FilenameGroup} (wellFormed : ∀ g ∈ groups, g.sources.WellFormed)
    {result bit : Nat} :
    (result, bit) ∈ groupRules groups ↔ ∃ g ∈ groups, g.result = result ∧ bit ∈ g.sources := by
  rw [groupRules, mem_spread]
  constructor
  · rintro ⟨members, listed, mem⟩
    obtain ⟨g, hg, same⟩ := List.mem_map.mp listed
    cases same
    exact ⟨g, hg, rfl, (BitSet.mem_toList (wellFormed g hg)).mp mem⟩
  · rintro ⟨g, hg, rfl, source⟩
    exact ⟨_, List.mem_map.mpr ⟨g, hg, rfl⟩, (BitSet.mem_toList (wellFormed g hg)).mpr source⟩

/-- The first group with a source is the only one. -/
theorem find?_source_iff {groups : List FilenameGroup}
    (apart : groups.Pairwise fun g h => ∀ n, n ∈ g.sources → n ∉ h.sources) {bit : Nat} {g : FilenameGroup} :
    groups.find? (·.sources.has bit) = some g ↔ g ∈ groups ∧ bit ∈ g.sources := by
  constructor
  · intro found
    have source := List.find?_some (p := fun h : FilenameGroup => h.sources.has bit) found
    exact ⟨List.mem_of_find?_eq_some found, BitSet.mem_iff_has.mpr source⟩
  · rintro ⟨mem, source⟩
    induction groups with
    | nil => cases mem
    | cons first rest ih =>
      obtain ⟨ahead, apart⟩ := List.pairwise_cons.mp apart
      rw [List.find?_cons]
      rcases List.mem_cons.mp mem with rfl | later
      · rw [BitSet.mem_iff_has.mp source]
      · have absent : first.sources.has bit = false := by
          rw [← Bool.not_eq_true, ← BitSet.mem_iff_has]
          exact fun shared => ahead g later bit shared source
        rw [absent]
        exact ih apart later

section Listed

variable {t : FilenameTransitions} (grouped : t.Grouped)

include grouped

theorem Grouped.mem_rules {key : FilenameKey} {result bit : Nat} :
    (key, result, bit) ∈ t.rules ↔ t.result? (bit + 1) key = some result := by
  obtain ⟨wellFormed, apart⟩ := grouped.groups key
  rw [rules, mem_spread, result?, Option.map_eq_some_iff, Nat.add_sub_cancel]
  constructor
  · rintro ⟨members, listed, mem⟩
    obtain ⟨⟨k, groups⟩, entry, same⟩ := List.mem_map.mp listed
    cases same
    have here : t.groups key = groups := by
      rw [FilenameTransitions.groups, Chain.find?_of_mem grouped.ascending entry, Option.getD_some]
    obtain ⟨g, hg, rfl, source⟩ := (mem_groupRules (here ▸ wellFormed)).mp mem
    exact ⟨g, (find?_source_iff apart).mpr ⟨here ▸ hg, source⟩, rfl⟩
  · rintro ⟨g, found, rfl⟩
    obtain ⟨hg, source⟩ := (find?_source_iff apart).mp found
    have mem := (mem_groupRules wellFormed).mpr ⟨g, hg, rfl, source⟩
    refine ⟨_, List.mem_map.mpr ⟨(key, t.groups key), ?_, rfl⟩, mem⟩
    rw [FilenameTransitions.groups] at hg ⊢
    cases entry : Chain.find? FilenameKey.order key t.entries with
    | none =>
      rw [entry] at hg
      cases hg
    | some groups => exact Chain.mem_of_find? entry

/-- Under every key some source leads to a result. -/
theorem Grouped.exists_result? {key : FilenameKey} (listed : key ∈ t.entries.map Prod.fst) :
    ∃ source result, 0 < source ∧ t.result? source key = some result := by
  obtain ⟨⟨_, groups⟩, entry, rfl⟩ := List.mem_map.mp listed
  obtain ⟨g, hg, bit, source⟩ := grouped.inhabited _ entry
  have mem := (mem_groupRules (grouped.wellFormed _ entry)).mpr ⟨g, hg, rfl, source⟩
  exact ⟨bit + 1, g.result, Nat.succ_pos bit, grouped.mem_rules.mp (mem_spread.mpr
    ⟨_, List.mem_map.mpr ⟨_, entry, rfl⟩, mem⟩)⟩

/-- No two rules have one key and one source. -/
theorem Grouped.nodup_rules : (t.rules.map fun r => (r.1, r.2.2)).Nodup := by
  have listed : t.rules.map (fun r => (r.1, r.2.2)) =
      t.entries.flatMap fun entry => (entry.2.flatMap (·.sources.toList)).map (entry.1, ·) := by
    simp [rules, groupRules, spread, List.flatMap_map, List.map_flatMap, Function.comp_def]
  rw [listed, List.nodup_flatMap]
  refine ⟨fun entry mem => ?_, grouped.ascending.imp fun below => ?_⟩
  · refine List.Nodup.map (fun _ _ same => (Prod.mk.inj same).2) (List.nodup_flatMap.mpr ⟨?_, ?_⟩)
    · intro g hg
      exact (BitSet.pairwise_toList (grouped.wellFormed entry mem g hg)).imp Nat.ne_of_lt
    · refine (grouped.apart entry mem).imp_of_mem fun {g h} hg hh apart n source shared => ?_
      exact apart n ((BitSet.mem_toList (grouped.wellFormed entry mem g hg)).mp source)
        ((BitSet.mem_toList (grouped.wellFormed entry mem h hh)).mp shared)
  · -- The keys of two entries differ, since they ascend.
    rintro rule mem mem'
    obtain ⟨_, _, rfl⟩ := List.mem_map.mp mem
    obtain ⟨_, _, same⟩ := List.mem_map.mp mem'
    rw [(Prod.mk.inj same).1, show FilenameKey.order _ _ = .eq from Std.ReflCmp.compare_self] at below
    cases below

end Listed

end FilenameTransitions

end CilPolicy
