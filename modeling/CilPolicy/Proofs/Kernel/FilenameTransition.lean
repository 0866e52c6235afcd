import CilPolicy.Kernel.FilenameTransition
import CilPolicy.Proofs.BitSet.Refinement
import CilPolicy.Proofs.Table.Chain

/-!
# Transitions by object name

Transitions are built by adding one rule after the other. Their keys ascend, the groups of
a key have different results, and no group is empty; so the rules, listed one by one with
their keys and results, say how they were grouped.
-/

namespace CilPolicy

instance : Std.TransCmp FilenameKey.order := by
  have lexical : FilenameKey.order =
      compareLex (compareOn (·.target)) (compareLex (compareOn (·.cls)) (compareOn (·.name))) := rfl
  rw [lexical]
  infer_instance

instance : Std.LawfulEqCmp FilenameKey.order where
  eq_of_compare := by
    intro a b h
    simp only [FilenameKey.order, Ordering.then_eq_eq, Std.LawfulEqOrd.compare_eq_iff_eq] at h
    obtain ⟨target, cls, name⟩ := h
    cases a
    cases b
    simp only at target cls name
    rw [target, cls, name]

/-! ### Adding in place -/

namespace FilenameTransitions

section Add

variable {t : FilenameTransitions} {key k : FilenameKey}

theorem groups_setGroups {groups : List FilenameGroup} :
    (t.setGroups key groups).groups k = if k = key then groups else t.groups k := by
  rw [setGroups]
  split
  · rename_i entries run
    have found := Chain.find?_update? (k := k) run
    have present : (Chain.find? FilenameKey.order key t.entries).isSome = true := by
      have updated : (Chain.update? FilenameKey.order key (fun _ => groups) t.entries).isSome = true := by
        rw [run]
        rfl
      rwa [Chain.update?_isSome] at updated
    obtain ⟨old, hold⟩ := Option.isSome_iff_exists.mp present
    rw [FilenameTransitions.groups, found, hold]
    split <;> rfl
  · rename_i run
    have absent : Chain.find? FilenameKey.order key t.entries = none := by
      have unchanged : (Chain.update? FilenameKey.order key (fun _ => groups) t.entries).isSome = false := by
        rw [run]
        rfl
      rwa [Chain.update?_isSome, Option.isSome_eq_false_iff, Option.isNone_iff_eq_none] at unchanged
    obtain ⟨entries, inserted⟩ : ∃ entries,
        Chain.insert? FilenameKey.order key groups t.entries = some entries := Chain.exists_insert? absent
    have found : Chain.find? FilenameKey.order k entries =
        if k = key then some groups else Chain.find? FilenameKey.order k t.entries := by
      refine Option.ext fun d => ?_
      rw [Chain.find?_insert? inserted]
      by_cases here : k = key
      · subst here
        simp [absent, eq_comm]
      · simp [here]
    rw [inserted, FilenameTransitions.groups, Option.getD_some, found]
    split <;> rfl

theorem setGroups_setGroups {groups : List FilenameGroup}
    (absent : Chain.find? FilenameKey.order key t.entries = none) :
    (t.setGroups key []).setGroups key groups = t.setGroups key groups := by
  have unchanged : ∀ groups, Chain.update? FilenameKey.order key (fun _ => groups) t.entries = none := by
    intro groups
    rw [← Option.not_isSome_iff_eq_none, Chain.update?_isSome, absent]
    exact Bool.false_ne_true
  have inserts : ∀ groups, ∃ entries, Chain.insert? FilenameKey.order key groups t.entries = some entries :=
    fun _ => Chain.exists_insert? absent
  obtain ⟨empty, inserted⟩ := inserts []
  obtain ⟨filled, inserted'⟩ := inserts groups
  have first : t.setGroups key [] = ⟨empty⟩ := by
    rw [setGroups, unchanged, inserted]
    rfl
  have second : t.setGroups key groups = ⟨filled⟩ := by
    rw [setGroups, unchanged, inserted']
    rfl
  rw [first, second, setGroups, Chain.update?_of_insert? inserted, inserted']

/-- The entry that a call makes for a new key has no groups, so it stands in the way of nothing. -/
theorem call_of_groups (t : FilenameTransitions) (c : FilenameCall) :
    t.call c = match (t.groups c.key).find? (·.sources.has (c.source - 1)) with
      | some g =>
        (if g.result = c.result then .ok false else .error (.transitionConflict c.source g.result c.result), t)
      | none => (.ok true, t.setGroups c.key (extend (c.source - 1) c.result (t.groups c.key))) := by
  cases present : Chain.find? FilenameKey.order c.key t.entries with
  | some groups =>
    have same : t.touch c.key = t := by rw [touch, present]
    rewrite [call, same]
    rfl
  | none =>
    have touched : t.touch c.key = t.setGroups c.key [] := by rw [touch, present]
    have empty : t.groups c.key = [] := by rw [groups, present, Option.getD_none]
    have empty' : (t.setGroups c.key []).groups c.key = [] := by rw [groups_setGroups, if_pos rfl]
    rw [call, touched, empty, empty']
    exact congrArg (Prod.mk _) (setGroups_setGroups present)

/-- A rule is added to the groups of its key, unless its source has a result there. -/
theorem add_eq (t : FilenameTransitions) (source : Nat) (key : FilenameKey) (result : Nat) :
    t.add source key result = match (t.groups key).find? (·.sources.has (source - 1)) with
      | some g =>
        if g.result = result then .ok (false, t) else .error (.transitionConflict source g.result result)
      | none => .ok (true, t.setGroups key (extend (source - 1) result (t.groups key))) := by
  rw [add, call_of_groups]
  cases (t.groups key).find? (·.sources.has (source - 1)) with
  | none => rfl
  | some g =>
    by_cases agrees : g.result = result
    · simp [agrees, Except.map]
    · simp [agrees, Except.map]

end Add

end FilenameTransitions

/-! ### What adding rules builds -/

/-- The numbers of the key fit in words, and so does the length of its name. -/
structure FilenameKey.Fits (key : FilenameKey) : Prop where
  target : key.target < wordBound
  cls : key.cls < wordBound
  name : key.name.utf8ByteSize < wordBound

/-- A group with a source; the sources and the result fit in words. -/
structure FilenameGroup.Sound (g : FilenameGroup) : Prop where
  wellFormed : g.sources.WellFormed
  inhabited : ∃ bit, bit ∈ g.sources
  below : ∀ bit, bit ∈ g.sources → bit < BitSet.bitLimit
  result : g.result < wordBound

namespace FilenameTransitions

/-- The groups of one key: there is one, and no two have one result. -/
structure GroupsSound (groups : List FilenameGroup) : Prop where
  nonempty : groups ≠ []
  results : (groups.map (·.result)).Nodup
  each : ∀ g ∈ groups, g.Sound

/-- Transitions that come of adding rules, whose numbers are words, to none. -/
inductive Built : FilenameTransitions → Prop
  | none : Built default
  | add {t t' : FilenameTransitions} {source result : Nat} {key : FilenameKey} {new : Bool}
      (built : Built t) (positive : 0 < source) (source_le : source ≤ BitSet.bitLimit)
      (key_fits : key.Fits) (result_lt : result < wordBound)
      (run : t.add source key result = .ok (new, t')) : Built t'

structure Sound (t : FilenameTransitions) : Prop where
  ascending : Chain.Ascending FilenameKey.order t.entries
  keys : ∀ entry ∈ t.entries, entry.1.Fits
  groups : ∀ entry ∈ t.entries, GroupsSound entry.2

theorem result_mem_extend {bit result r : Nat} {groups : List FilenameGroup} :
    r ∈ (extend bit result groups).map (·.result) ↔ r = result ∨ r ∈ groups.map (·.result) := by
  induction groups with
  | nil => simp [extend]
  | cons g rest ih =>
    rw [extend]
    split
    · rename_i same
      simp only [List.map_cons, List.mem_cons, same]
      exact ⟨Or.inr, fun h => h.elim Or.inl id⟩
    · rw [List.map_cons, List.map_cons, List.mem_cons, List.mem_cons, ih]
      exact or_left_comm

theorem extend_ne_nil {bit result : Nat} {groups : List FilenameGroup} : extend bit result groups ≠ [] := by
  have listed : result ∈ (extend bit result groups).map (·.result) := result_mem_extend.mpr (Or.inl rfl)
  rintro none
  rw [none] at listed
  cases listed

theorem nodup_extend {bit result : Nat} {groups : List FilenameGroup} (nodup : (groups.map (·.result)).Nodup) :
    ((extend bit result groups).map (·.result)).Nodup := by
  induction groups with
  | nil => exact List.nodup_singleton result
  | cons g rest ih =>
    obtain ⟨fresh, nodup⟩ := List.nodup_cons.mp nodup
    rw [extend]
    split
    · exact List.nodup_cons.mpr ⟨fresh, nodup⟩
    · rename_i differ
      refine List.nodup_cons.mpr ⟨fun listed => ?_, ih nodup⟩
      exact (result_mem_extend.mp listed).elim differ fresh

theorem mem_extend {bit result : Nat} {groups : List FilenameGroup} {g : FilenameGroup}
    (mem : g ∈ extend bit result groups) :
    g = ⟨BitSet.singleton bit, result⟩ ∨ g ∈ groups ∨
      ∃ old ∈ groups, g = { old with sources := old.sources.insert bit } := by
  induction groups with
  | nil => exact .inl (List.mem_singleton.mp mem)
  | cons first rest ih =>
    rw [extend] at mem
    split at mem
    · rcases List.mem_cons.mp mem with rfl | mem
      · exact .inr (.inr ⟨first, List.mem_cons_self, rfl⟩)
      · exact .inr (.inl (List.mem_cons_of_mem first mem))
    · rcases List.mem_cons.mp mem with rfl | mem
      · exact .inr (.inl List.mem_cons_self)
      · rcases ih mem with new | old | ⟨old, hold, rfl⟩
        · exact .inl new
        · exact .inr (.inl (List.mem_cons_of_mem first old))
        · exact .inr (.inr ⟨old, List.mem_cons_of_mem first hold, rfl⟩)

theorem groupsSound_extend {bit result : Nat} (below : bit < BitSet.bitLimit)
    (result_lt : result < wordBound) {groups : List FilenameGroup}
    (results : (groups.map (·.result)).Nodup) (each : ∀ g ∈ groups, g.Sound) :
    GroupsSound (extend bit result groups) := by
  refine ⟨extend_ne_nil, nodup_extend results, fun g member => ?_⟩
  rcases mem_extend member with rfl | old | ⟨old, listed, rfl⟩
  · exact ⟨BitSet.wellFormed_singleton bit, ⟨bit, BitSet.mem_singleton.mpr rfl⟩,
      fun n hn => BitSet.mem_singleton.mp hn ▸ below, result_lt⟩
  · exact each g old
  · obtain ⟨wellFormed, _, under, narrow⟩ := each old listed
    have mem : ∀ n, n ∈ old.sources.insert bit ↔ n = bit ∨ n ∈ old.sources :=
      fun n => BitSet.mem_insert wellFormed
    refine ⟨BitSet.wellFormed_insert wellFormed bit, ⟨bit, (mem bit).mpr (Or.inl rfl)⟩, fun n hn => ?_, narrow⟩
    rcases (mem n).mp hn with rfl | hn
    · exact below
    · exact under n hn

theorem mem_setGroups {t : FilenameTransitions} {key : FilenameKey} {groups : List FilenameGroup}
    {entry : FilenameKey × List FilenameGroup} (mem : entry ∈ (t.setGroups key groups).entries) :
    entry ∈ t.entries ∨ entry = (key, groups) := by
  rw [setGroups] at mem
  split at mem
  · rename_i entries run
    exact (Chain.mem_of_update? run mem).imp_right fun ⟨_, same⟩ => same
  · cases run : Chain.insert? FilenameKey.order key groups t.entries with
    | none =>
      rw [run] at mem
      exact .inl mem
    | some entries =>
      rw [run] at mem
      exact Chain.mem_of_insert? run mem

theorem ascending_setGroups {t : FilenameTransitions} {key : FilenameKey}
    (ascending : Chain.Ascending FilenameKey.order t.entries) {groups : List FilenameGroup} :
    Chain.Ascending FilenameKey.order (t.setGroups key groups).entries := by
  rw [setGroups]
  split
  · rename_i entries run
    exact Chain.ascending_keys (Chain.keys_update? run) ascending
  · cases run : Chain.insert? FilenameKey.order key groups t.entries with
    | none => exact ascending
    | some entries => exact Chain.ascending_insert? ascending run

theorem sound_setGroups {t : FilenameTransitions} (sound : t.Sound) {key : FilenameKey}
    (fits : key.Fits) {groups : List FilenameGroup} (groupsSound : GroupsSound groups) :
    (t.setGroups key groups).Sound where
  ascending := ascending_setGroups sound.ascending
  keys entry mem := by
    rcases mem_setGroups mem with old | new
    · exact sound.keys entry old
    · exact new ▸ fits
  groups entry mem := by
    rcases mem_setGroups mem with old | new
    · exact sound.groups entry old
    · exact new ▸ groupsSound

theorem sound_add {t t' : FilenameTransitions} (sound : t.Sound) {source result : Nat}
    {key : FilenameKey} {new : Bool} (positive : 0 < source) (source_le : source ≤ BitSet.bitLimit)
    (key_fits : key.Fits) (result_lt : result < wordBound)
    (run : t.add source key result = .ok (new, t')) : t'.Sound := by
  have below : source - 1 < BitSet.bitLimit := by omega
  have known : (∀ g ∈ t.groups key, g.Sound) ∧ ((t.groups key).map (·.result)).Nodup := by
    rw [FilenameTransitions.groups]
    cases found : Chain.find? FilenameKey.order key t.entries with
    | none => exact ⟨fun g hg => (List.not_mem_nil hg).elim, List.nodup_nil⟩
    | some groups =>
      have groupsSound := sound.groups _ (Chain.mem_of_find? found)
      exact ⟨groupsSound.each, groupsSound.results⟩
  rw [add_eq] at run
  split at run
  · split at run
    · cases run
      exact sound
    · cases run
  · cases run
    exact sound_setGroups sound key_fits (groupsSound_extend below result_lt known.2 known.1)

theorem Built.sound {t : FilenameTransitions} (built : t.Built) : t.Sound := by
  induction built with
  | none => exact ⟨.nil, by simp [default], by simp [default]⟩
  | add _ positive source_le key_fits result_lt run ih =>
    exact sound_add ih positive source_le key_fits result_lt run

end FilenameTransitions

/-! ### Rules one by one -/

theorem eq_of_map_eq {α β : Type} {f : α → β} {xs ys : List α} (same : xs.map f = ys.map f)
    (injective : ∀ a ∈ xs, ∀ b ∈ ys, f a = f b → a = b) : xs = ys := by
  induction xs generalizing ys with
  | nil => exact (List.map_eq_nil_iff.mp same.symm).symm
  | cons a xs ih =>
    cases ys with
    | nil => cases same
    | cons b ys =>
      obtain ⟨first, rest⟩ := List.cons.inj same
      rw [injective a List.mem_cons_self b List.mem_cons_self first,
        ih rest fun a ha b hb =>
          injective a (List.mem_cons_of_mem _ ha) b (List.mem_cons_of_mem _ hb)]

section Spread

variable {κ β : Type}

/-- Every member with the key of its list. -/
def spread (lists : List (κ × List β)) : List (κ × β) :=
  lists.flatMap fun (key, members) => members.map (key, ·)

theorem spread_cons (key : κ) (members : List β) (rest : List (κ × List β)) :
    spread ((key, members) :: rest) = members.map (key, ·) ++ spread rest := rfl

theorem key_of_mem_spread {lists : List (κ × List β)} {key : κ} {b : β}
    (mem : (key, b) ∈ spread lists) : key ∈ lists.map Prod.fst := by
  obtain ⟨⟨k, members⟩, hlist, hb⟩ := List.mem_flatMap.mp mem
  obtain ⟨c, _, heq⟩ := List.mem_map.mp hb
  cases heq
  exact List.mem_map.mpr ⟨_, hlist, rfl⟩

/-- The members of the first key stand before all others. -/
theorem filter_spread_cons [DecidableEq κ] {key : κ} {rest : List (κ × List β)}
    (apart : key ∉ rest.map Prod.fst) (members : List β) :
    (spread ((key, members) :: rest)).filter (·.1 = key) = members.map (key, ·) ∧
      (spread ((key, members) :: rest)).filter (·.1 ≠ key) = spread rest := by
  have others : ∀ entry ∈ spread rest, entry.1 ≠ key := by
    rintro ⟨k, b⟩ mem rfl
    exact apart (key_of_mem_spread mem)
  have none : (spread rest).filter (·.1 = key) = [] :=
    List.filter_eq_nil_iff.mpr fun entry mem => by simpa using others entry mem
  have all : (spread rest).filter (·.1 ≠ key) = spread rest :=
    List.filter_eq_self.mpr fun entry mem => by simpa using others entry mem
  rw [spread_cons, List.filter_append, List.filter_append, none, all]
  simp [List.filter_map, Function.comp_def]

/-- Lists under different keys, none of them empty, are known by their members with their
keys. -/
theorem eq_of_spread_eq [DecidableEq κ] {xs ys : List (κ × List β)} (left : (xs.map Prod.fst).Nodup)
    (right : (ys.map Prod.fst).Nodup) (filledLeft : ∀ x ∈ xs, x.2 ≠ [])
    (filledRight : ∀ y ∈ ys, y.2 ≠ []) (same : spread xs = spread ys) : xs = ys := by
  induction xs generalizing ys with
  | nil =>
    cases ys with
    | nil => rfl
    | cons y ys =>
      obtain ⟨key, members⟩ := y
      have empty : members.map (key, ·) ++ spread ys = [] := same.symm
      have none := List.map_eq_nil_iff.mp (List.append_eq_nil_iff.mp empty).1
      exact absurd none (filledRight _ List.mem_cons_self)
  | cons x xs ih =>
    obtain ⟨key, members⟩ := x
    obtain ⟨apart, restNodup⟩ := List.nodup_cons.mp left
    obtain ⟨b, bs, rfl⟩ := List.exists_cons_of_ne_nil (filledLeft _ List.mem_cons_self)
    cases ys with
    | nil => cases same
    | cons y ys =>
      obtain ⟨key', members'⟩ := y
      obtain ⟨apart', restNodup'⟩ := List.nodup_cons.mp right
      obtain ⟨b', bs', rfl⟩ := List.exists_cons_of_ne_nil (filledRight _ List.mem_cons_self)
      -- The first rules agree, so both lists begin with the same key.
      have first := (List.cons.inj same).1
      cases first
      obtain ⟨mine, others⟩ := filter_spread_cons apart (b :: bs)
      obtain ⟨mine', others'⟩ := filter_spread_cons apart' (b :: bs')
      have members : (b :: bs).map (key, ·) = (b :: bs').map (key, ·) := by
        rw [← mine, ← mine', same]
      have rest : spread xs = spread ys := by rw [← others, ← others', same]
      have injective : Function.Injective (fun c : β => (key, c)) := fun _ _ h => (Prod.mk.inj h).2
      rw [List.map_injective_iff.mpr injective members,
        ih restNodup restNodup' (fun x hx => filledLeft x (List.mem_cons_of_mem _ hx))
          (fun y hy => filledRight y (List.mem_cons_of_mem _ hy)) rest]

/-- No fewer members than lists, when no list is empty. -/
theorem length_le_spread {lists : List (κ × List β)} (filled : ∀ x ∈ lists, x.2 ≠ []) :
    lists.length ≤ (spread lists).length := by
  induction lists with
  | nil => exact Nat.le_refl _
  | cons x rest ih =>
    have first := List.length_pos_of_ne_nil (filled x List.mem_cons_self)
    have tail := ih fun y hy => filled y (List.mem_cons_of_mem x hy)
    rw [spread_cons, List.length_append, List.length_map, List.length_cons]
    omega

theorem length_member_le_spread {lists : List (κ × List β)} {x : κ × List β} (mem : x ∈ lists) :
    x.2.length ≤ (spread lists).length := by
  have part := List.sublist_flatten_of_mem
    (List.mem_map_of_mem (f := fun y : κ × List β => y.2.map (y.1, ·)) mem)
  rw [← List.length_map (x.1, ·), spread, List.flatMap_def]
  exact part.length_le

end Spread

namespace FilenameTransitions

/-- The sources of every group under its result. -/
def groupRules (groups : List FilenameGroup) : List (Nat × Nat) :=
  spread (groups.map fun g => (g.result, g.sources.toList))

/-- Every rule: its key, its result and the source less one. -/
def rules (t : FilenameTransitions) : List (FilenameKey × Nat × Nat) :=
  spread (t.entries.map fun (key, groups) => (key, groupRules groups))

theorem GroupsSound.filled {groups : List FilenameGroup} (sound : GroupsSound groups) :
    ∀ x ∈ groups.map fun g => (g.result, g.sources.toList), x.2 ≠ [] := by
  intro x hx
  obtain ⟨g, hg, rfl⟩ := List.mem_map.mp hx
  obtain ⟨bit, mem⟩ := (sound.each g hg).inhabited
  exact List.ne_nil_of_mem (BitSet.mem_toList_of_mem mem)

theorem GroupsSound.length_le {groups : List FilenameGroup} (sound : GroupsSound groups) :
    groups.length ≤ (groupRules groups).length := by
  have counted := length_le_spread sound.filled
  rwa [List.length_map] at counted

theorem Sound.filled {t : FilenameTransitions} (sound : t.Sound) :
    ∀ x ∈ t.entries.map fun (key, groups) => (key, groupRules groups), x.2 ≠ [] := by
  intro x hx
  obtain ⟨entry, hentry, rfl⟩ := List.mem_map.mp hx
  have groupsSound := sound.groups entry hentry
  have positive := List.length_pos_of_ne_nil groupsSound.nonempty
  exact List.ne_nil_of_length_pos (Nat.lt_of_lt_of_le positive groupsSound.length_le)

/-- The rules of one key say how its sources were grouped. -/
theorem eq_of_groupRules {groups groups' : List FilenameGroup} (left : GroupsSound groups)
    (right : GroupsSound groups') (same : groupRules groups = groupRules groups') :
    groups = groups' := by
  have results : ∀ gs : List FilenameGroup,
      (gs.map fun g => (g.result, g.sources.toList)).map Prod.fst = gs.map (·.result) :=
    fun gs => by rw [List.map_map]; rfl
  have lists := eq_of_spread_eq (results groups ▸ left.results) (results groups' ▸ right.results)
    left.filled right.filled same
  refine eq_of_map_eq lists ?_
  intro g hg h hh heq
  have sources : g.sources = h.sources := by
    have wg := (left.each g hg).wellFormed
    have wh := (right.each h hh).wellFormed
    refine BitSet.eq_of_mem_iff wg wh fun n => ?_
    rw [← BitSet.mem_toList wg, ← BitSet.mem_toList wh, (Prod.mk.inj heq).2]
  cases g
  cases h
  cases sources
  cases (Prod.mk.inj heq).1
  rfl

/-- Transitions are known by their rules, listed one by one. -/
theorem eq_of_rules {t t' : FilenameTransitions} (left : t.Sound) (right : t'.Sound)
    (same : t.rules = t'.rules) : t = t' := by
  have keys : ∀ u : FilenameTransitions,
      (u.entries.map fun (key, groups) => (key, groupRules groups)).map Prod.fst =
        u.entries.map Prod.fst :=
    fun u => by rw [List.map_map]; rfl
  have nodup : ∀ {u : FilenameTransitions}, u.Sound → (u.entries.map Prod.fst).Nodup := by
    intro u sound
    refine List.pairwise_map.mpr (sound.ascending.imp ?_)
    intro a b below heq
    have self : FilenameKey.order b.1 b.1 = .eq := Std.ReflCmp.compare_self
    rw [heq, self] at below
    cases below
  have lists := eq_of_spread_eq (keys t ▸ nodup left) (keys t' ▸ nodup right) left.filled
    right.filled same
  have entries : t.entries = t'.entries := by
    refine eq_of_map_eq lists ?_
    intro a ha b hb heq
    obtain ⟨key, rules⟩ := Prod.mk.inj heq
    exact Prod.ext key (eq_of_groupRules (left.groups a ha) (right.groups b hb) rules)
  cases t
  cases t'
  cases entries
  rfl

theorem length_spread {κ β : Type} (lists : List (κ × List β)) :
    (spread lists).length = (lists.flatMap (·.2)).length := by
  simp only [spread, List.length_flatMap, List.length_map]

theorem length_rules (t : FilenameTransitions) : t.rules.length = t.ruleCount := by
  have groups : ∀ gs : List FilenameGroup, (groupRules gs).length = (gs.flatMap (·.sources.toList)).length := by
    intro gs
    rw [groupRules, length_spread, List.flatMap_map]
  simp only [rules, ruleCount, length_spread, List.flatMap_map, List.length_flatMap, groups]

/-- There are no more keys than rules, and no more groups of a key. -/
theorem Sound.length_le {t : FilenameTransitions} (sound : t.Sound) :
    t.entries.length ≤ t.ruleCount ∧ ∀ entry ∈ t.entries, entry.2.length ≤ t.ruleCount := by
  rw [← t.length_rules]
  constructor
  · have counted := length_le_spread sound.filled
    rwa [List.length_map] at counted
  · intro entry hentry
    have listed : (entry.1, groupRules entry.2) ∈
        t.entries.map fun (key, groups) => (key, groupRules groups) :=
      List.mem_map.mpr ⟨entry, hentry, rfl⟩
    exact Nat.le_trans (sound.groups entry hentry).length_le (length_member_le_spread listed)

end FilenameTransitions

end CilPolicy
