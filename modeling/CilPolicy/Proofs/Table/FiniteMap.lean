import CilPolicy.Proofs.Table.Symbol
import Mathlib.Logic.Function.Basic

/-!
# Hash tables as finite maps

However a table hashes its keys, a key stands in the bucket of its hash and the keys of a chain go up,
so a search that stops at the first greater key has not missed its own. The entries of the table are a
finite map, and an operation that succeeds does to the entries what it does to the map. One that fails
leaves them, and then nothing is handed to the destructor.
-/

namespace CilPolicy

/-! ### Entries of a map -/

/-- The entries are those of the map, one for each key. -/
structure Lists {κ ν : Type} (entries : List (κ × ν)) (map : κ → Option ν) : Prop where
  nodup : (entries.map Prod.fst).Nodup
  mem : ∀ key value, (key, value) ∈ entries ↔ map key = some value

namespace Lists

variable {κ ν : Type} {entries entries' : List (κ × ν)} {map : κ → Option ν} {key : κ} {value : ν}

open List in
theorem perm (same : entries ~ entries') (lists : Lists entries map) : Lists entries' map where
  nodup := (same.map Prod.fst).nodup lists.nodup
  mem k v := same.mem_iff.symm.trans (lists.mem k v)

/-- A map has an entry and the entries of the map without its key. -/
theorem cons_iff [DecidableEq κ] : Lists ((key, value) :: entries) map ↔
    map key = some value ∧ Lists entries (Function.update map key none) := by
  constructor
  · rintro ⟨nodup, mem⟩
    obtain ⟨fresh, nodup⟩ := List.nodup_cons.mp nodup
    refine ⟨(mem key value).mp List.mem_cons_self, nodup, fun k v => ?_⟩
    by_cases same : k = key
    · subst same
      rw [Function.update_self]
      exact iff_of_false (fun member => fresh (List.mem_map.mpr ⟨_, member, rfl⟩)) nofun
    · rw [Function.update_of_ne same, ← mem, List.mem_cons, Prod.mk.injEq]
      simp [same]
  · rintro ⟨here, nodup, mem⟩
    have fresh : key ∉ entries.map Prod.fst := by
      intro member
      obtain ⟨⟨k, v⟩, listed, rfl⟩ := List.mem_map.mp member
      have absent := (mem k v).mp listed
      rw [Function.update_self] at absent
      cases absent
    refine ⟨List.nodup_cons.mpr ⟨fresh, nodup⟩, fun k v => ?_⟩
    rw [List.mem_cons, Prod.mk.injEq, mem]
    by_cases same : k = key
    · subst same
      rw [Function.update_self, here]
      simp [eq_comm]
    · rw [Function.update_of_ne same]
      simp [same]

/-- A new value for the key of an entry. -/
theorem cons_update [DecidableEq κ] {old : Option ν} (lists : Lists entries (Function.update map key none))
    (here : old = some value) : Lists ((key, value) :: entries) (Function.update map key old) := by
  rw [cons_iff, Function.update_self, Function.update_idem]
  exact ⟨here, lists⟩

end Lists

/-! ### Chains -/

namespace Chain

variable {κ ν : Type} {cmp : κ → κ → Ordering} {key : κ} {chain chain' : List (κ × ν)}

theorem insert?_isNone {value : ν} :
    (insert? cmp key value chain).isNone = (find? cmp key chain).isSome := by
  induction chain with
  | nil => rfl
  | cons first rest ih =>
    obtain ⟨k, v⟩ := first
    rw [insert?, find?]
    cases cmp key k with
    | eq => rfl
    | lt => rfl
    | gt => simpa using ih

theorem remove?_isSome : (remove? cmp key chain).isSome = (find? cmp key chain).isSome := by
  induction chain with
  | nil => rfl
  | cons first rest ih =>
    obtain ⟨k, v⟩ := first
    rw [remove?, find?]
    cases cmp key k with
    | eq => rfl
    | lt => rfl
    | gt => simpa using ih

/-- The entry that is removed is the one of the key, and the others stay where they are. -/
theorem split_remove? [Std.LawfulEqCmp cmp] {entry : κ × ν}
    (run : remove? cmp key chain = some (entry, chain')) :
    entry.1 = key ∧ ∃ front back, chain = front ++ entry :: back ∧ chain' = front ++ back := by
  induction chain generalizing chain' with
  | nil => cases run
  | cons first rest ih =>
    obtain ⟨k, v⟩ := first
    rw [remove?] at run
    split at run
    · rename_i same
      cases run
      exact ⟨(Std.LawfulEqCmp.eq_of_compare same).symm, [], rest, rfl, rfl⟩
    · cases run
    · obtain ⟨⟨taken, rest'⟩, found, rebuilt⟩ := Option.map_eq_some_iff.mp run
      cases rebuilt
      obtain ⟨own, front, back, rfl, rfl⟩ := ih found
      exact ⟨own, (k, v) :: front, back, rfl, rfl⟩

theorem split_update? [Std.LawfulEqCmp cmp] {change : ν → ν}
    (run : update? cmp key change chain = some chain') :
    ∃ value front back, chain = front ++ (key, value) :: back ∧
      chain' = front ++ (key, change value) :: back := by
  induction chain generalizing chain' with
  | nil => cases run
  | cons first rest ih =>
    obtain ⟨k, v⟩ := first
    rw [update?] at run
    split at run
    · rename_i same
      cases run
      cases Std.LawfulEqCmp.eq_of_compare same
      exact ⟨v, [], rest, rfl, rfl⟩
    · cases run
    · obtain ⟨rest', found, rfl⟩ := Option.map_eq_some_iff.mp run
      obtain ⟨value, front, back, rfl, rfl⟩ := ih found
      exact ⟨value, (k, v) :: front, back, rfl, rfl⟩

end Chain

/-! ### Tables -/

namespace ChainTable

variable {κ ν : Type} {t t' : ChainTable κ ν} {key : κ} {value : ν} {chain : List (κ × ν)} {count : Nat}

/-- Each entry is in the bucket of its hash, and the keys of every chain go up. -/
structure Ordered (t : ChainTable κ ν) : Prop where
  bucketed : 0 < t.bucketCount
  own : ∀ (i : Nat) (chain : List (κ × ν)), t.buckets[i]? = some chain → ∀ entry ∈ chain, t.bucketOf entry.1 = i
  ascending : ∀ (i : Nat) (chain : List (κ × ν)), t.buckets[i]? = some chain → Chain.Ascending t.cmp chain

theorem ordered_new (hash : κ → UInt32) (cmp : κ → κ → Ordering) (bucketCount : Nat) :
    (ChainTable.new hash cmp bucketCount : ChainTable κ ν).Ordered := by
  have empty : ∀ (i : Nat) (chain : List (κ × ν)),
      (ChainTable.new hash cmp bucketCount : ChainTable κ ν).buckets[i]? = some chain → chain = [] := by
    intro i chain here
    obtain ⟨inside, same⟩ := Array.getElem?_eq_some_iff.mp here
    exact same.symm.trans (Array.getElem_replicate _)
  constructor
  · exact (counted_new hash cmp bucketCount).bucketed
  · intro i chain here entry member
    rw [empty i chain here] at member
    cases member
  · intro i chain here
    rw [empty i chain here]
    exact .nil

@[simp]
theorem bucketCount_setChain : (t.setChain key chain count).bucketCount = t.bucketCount :=
  Array.size_setIfInBounds

theorem bucketOf_setChain (k : κ) : (t.setChain key chain count).bucketOf k = t.bucketOf k := by
  rw [bucketOf, bucketOf]
  exact congrArg ((t.hash k).toNat % ·) bucketCount_setChain

namespace Ordered

theorem buckets_bucketOf (ordered : t.Ordered) (key : κ) :
    t.buckets[t.bucketOf key]? = some (t.chainOf key) := by
  have inside : t.bucketOf key < t.buckets.size := Nat.mod_lt _ ordered.bucketed
  rw [chainOf, Array.getD_eq_getD_getElem?, Array.getElem?_eq_getElem inside, Option.getD_some]

/-- The table stays ordered when a chain is replaced by an ordered one of the same bucket. -/
theorem setChain (ordered : t.Ordered) (own : ∀ entry ∈ chain, t.bucketOf entry.1 = t.bucketOf key)
    (ascending : Chain.Ascending t.cmp chain) : (t.setChain key chain count).Ordered := by
  have buckets : ∀ (i : Nat) (chain' : List (κ × ν)), (t.setChain key chain count).buckets[i]? = some chain' →
      (i = t.bucketOf key ∧ chain' = chain) ∨ t.buckets[i]? = some chain' := by
    intro i chain' here
    change (t.buckets.setIfInBounds (t.bucketOf key) chain)[i]? = some chain' at here
    rw [Array.getElem?_setIfInBounds] at here
    split at here
    · rename_i same
      split at here
      · cases here
        exact Or.inl ⟨same.symm, rfl⟩
      · cases here
    · exact Or.inr here
  constructor
  · rw [bucketCount_setChain]
    exact ordered.bucketed
  · intro i chain' here entry member
    rw [bucketOf_setChain]
    rcases buckets i chain' here with ⟨rfl, rfl⟩ | old
    · exact own entry member
    · exact ordered.own i chain' old entry member
  · intro i chain' here
    rcases buckets i chain' here with ⟨rfl, rfl⟩ | old
    · exact ascending
    · exact ordered.ascending i chain' old

theorem mem_toList (ordered : t.Ordered) {entry : κ × ν} :
    entry ∈ t.toList ↔ entry ∈ t.chainOf entry.1 := by
  rw [toList, List.mem_flatten]
  constructor
  · rintro ⟨chain, listed, member⟩
    obtain ⟨i, here⟩ := List.mem_iff_getElem?.mp listed
    rw [Array.getElem?_toList] at here
    have bucket := ordered.own i chain here entry member
    rw [← bucket, ordered.buckets_bucketOf] at here
    cases here
    exact member
  · intro member
    have here := ordered.buckets_bucketOf entry.1
    rw [← Array.getElem?_toList] at here
    exact ⟨_, List.mem_of_getElem? here, member⟩

/-- A search finds the value that the key stands with, whatever else is in the chain. -/
theorem find?_iff [Std.TransCmp t.cmp] [Std.LawfulEqCmp t.cmp] (ordered : t.Ordered) :
    t.find? key = some value ↔ (key, value) ∈ t.toList := by
  rw [ordered.mem_toList]
  constructor
  · exact Chain.mem_of_find?
  · exact Chain.find?_of_mem (ordered.ascending _ _ (ordered.buckets_bucketOf key))

open List in
/-- What a chain is exchanged for changes the entries of the table, and all others stay. -/
theorem exists_rest (ordered : t.Ordered) (removed added : List (κ × ν)) {kept : List (κ × ν)}
    (before : t.chainOf key ~ removed ++ kept) (after : chain ~ added ++ kept) (count : Nat) :
    ∃ rest, t.toList ~ removed ++ rest ∧ (t.setChain key chain count).toList ~ added ++ rest := by
  have here := ordered.buckets_bucketOf key
  rw [← Array.getElem?_toList] at here
  obtain ⟨others, whole⟩ := (List.sublist_flatten_of_mem (List.mem_of_getElem? here)).exists_perm_append
  have changed : (t.setChain key chain count).toList ~ chain ++ others := by
    refine (List.perm_append_right_iff (t.chainOf key)).mp ?_
    calc (t.setChain key chain count).toList ++ t.chainOf key
        _ ~ t.toList ++ chain := perm_setChain ordered.bucketed key chain count
        _ ~ t.chainOf key ++ others ++ chain := whole.append_right chain
        _ ~ chain ++ (t.chainOf key ++ others) := perm_append_comm
        _ ~ chain ++ (others ++ t.chainOf key) := perm_append_comm.append_left chain
        _ = chain ++ others ++ t.chainOf key := (List.append_assoc ..).symm
  refine ⟨kept ++ others, ?_, ?_⟩
  · rw [← List.append_assoc]
    exact whole.trans (before.append_right others)
  · rw [← List.append_assoc]
    exact changed.trans (after.append_right others)

end Ordered

/-- The table holds the map: a search finds what the map has, the entries are those of the map, and
the size is their number. -/
structure Implements (t : ChainTable κ ν) (map : κ → Option ν) : Prop where
  ordered : t.Ordered
  find : t.find? = map
  lists : Lists t.toList map
  size : t.size = t.toList.length

theorem implements_new (hash : κ → UInt32) (cmp : κ → κ → Ordering) (bucketCount : Nat) :
    (ChainTable.new hash cmp bucketCount : ChainTable κ ν).Implements fun _ => none := by
  have empty : (ChainTable.new hash cmp bucketCount : ChainTable κ ν).toList = [] := by
    simp [ChainTable.new, toList]
  have ordered : (ChainTable.new hash cmp bucketCount : ChainTable κ ν).Ordered :=
    ordered_new hash cmp bucketCount
  have none : ∀ key, (ChainTable.new hash cmp bucketCount : ChainTable κ ν).find? key = none := by
    intro key
    have chain := ordered.buckets_bucketOf key
    obtain ⟨inside, same⟩ := Array.getElem?_eq_some_iff.mp chain
    rw [find?, ← same]
    exact congrArg (Chain.find? cmp key) (Array.getElem_replicate _)
  refine ⟨ordered, funext none, ?_, ?_⟩
  · rw [empty]
    exact ⟨.nil, by simp⟩
  · rw [empty]
    rfl

namespace Implements

variable {map : κ → Option ν}

theorem own (held : t.Implements map) (key : κ) : ∀ entry ∈ t.chainOf key, t.bucketOf entry.1 = t.bucketOf key :=
  held.ordered.own _ _ (held.ordered.buckets_bucketOf key)

theorem ascending (held : t.Implements map) (key : κ) : Chain.Ascending t.cmp (t.chainOf key) :=
  held.ordered.ascending _ _ (held.ordered.buckets_bucketOf key)

theorem find_chain (held : t.Implements map) (key : κ) : Chain.find? t.cmp key (t.chainOf key) = map key :=
  congrFun held.find key

/-! Whether an operation succeeds depends on the map alone. -/

theorem insert_of_present (held : t.Implements map) (present : map key ≠ none) (value : ν) :
    t.insert key value = .error .alreadyExists := by
  have taken : Chain.insert? t.cmp key value (t.chainOf key) = none := by
    rw [← Option.isNone_iff_eq_none, Chain.insert?_isNone, held.find_chain]
    exact Option.isSome_iff_ne_none.mpr present
  rw [ChainTable.insert, taken]

theorem exists_insert (held : t.Implements map) (absent : map key = none) (value : ν) :
    ∃ t', t.insert key value = .ok t' := by
  obtain ⟨chain, inserted⟩ : ∃ chain, Chain.insert? t.cmp key value (t.chainOf key) = some chain :=
    Chain.exists_insert? ((held.find_chain key).trans absent)
  exact ⟨t.setChain key chain (t.size + 1), by rw [ChainTable.insert, inserted]⟩

theorem remove_of_absent (held : t.Implements map) (absent : map key = none) :
    t.remove key = .error .notFound := by
  have missing : Chain.remove? t.cmp key (t.chainOf key) = none := by
    rw [← Option.not_isSome_iff_eq_none, Chain.remove?_isSome, held.find_chain, absent]
    exact Bool.false_ne_true
  rw [ChainTable.remove, missing]

theorem update?_of_absent (held : t.Implements map) (absent : map key = none) (change : ν → ν) :
    t.update? key change = none := by
  have missing : Chain.update? t.cmp key change (t.chainOf key) = none := by
    rw [← Option.not_isSome_iff_eq_none, Chain.update?_isSome, held.find_chain, absent]
    exact Bool.false_ne_true
  rw [ChainTable.update?, missing, Option.map_none]

theorem exists_update? (held : t.Implements map) (present : map key = some value) (change : ν → ν) :
    ∃ t', t.update? key change = some t' := by
  have found : (Chain.update? t.cmp key change (t.chainOf key)).isSome := by
    rw [Chain.update?_isSome, held.find_chain, present]
    rfl
  obtain ⟨chain, updated⟩ := Option.isSome_iff_exists.mp found
  exact ⟨t.setChain key chain t.size, by rw [ChainTable.update?, updated, Option.map_some]⟩

variable [Std.TransCmp t.cmp] [Std.LawfulEqCmp t.cmp]

/-- Whatever changes a chain, its table has to be ordered and to have the entries of the new map. -/
theorem of_setChain {map' : κ → Option ν} (ordered : (t.setChain key chain count).Ordered)
    (lists : Lists (t.setChain key chain count).toList map')
    (size : count = (t.setChain key chain count).toList.length) :
    (t.setChain key chain count).Implements map' := by
  have : Std.TransCmp (t.setChain key chain count).cmp := inferInstanceAs (Std.TransCmp t.cmp)
  have : Std.LawfulEqCmp (t.setChain key chain count).cmp := inferInstanceAs (Std.LawfulEqCmp t.cmp)
  refine ⟨ordered, funext fun k => Option.ext fun v => ?_, lists, size⟩
  exact ordered.find?_iff.trans (lists.mem k v)

variable [DecidableEq κ]

theorem insert (held : t.Implements map) (run : t.insert key value = .ok t') :
    t'.Implements (Function.update map key (some value)) := by
  rw [ChainTable.insert] at run
  split at run
  · rename_i chain inserted
    cases run
    -- A key that is there would have stopped the insertion.
    have absent : map key = none := by
      rw [← held.find, ← Option.not_isSome_iff_eq_none, find?, ← Chain.insert?_isNone, inserted]
      simp
    obtain ⟨rest, before, after⟩ := held.ordered.exists_rest [] [(key, value)] (.refl _)
      (Chain.perm_insert? inserted) (t.size + 1)
    simp only [List.nil_append, List.singleton_append] at before after
    refine of_setChain (held.ordered.setChain (fun entry member => ?_) ?_) ?_ ?_
    · rcases Chain.mem_of_insert? inserted member with old | rfl
      · exact held.own key entry old
      · rfl
    · exact Chain.ascending_insert? (held.ascending key) inserted
    · have lists := held.lists.perm before
      rw [← Function.update_eq_self key map, absent] at lists
      exact (lists.cons_update rfl).perm after.symm
    · have size := held.size
      rw [before.length_eq] at size
      rw [after.length_eq, List.length_cons]
      omega
  · cases run

open List in
theorem remove (held : t.Implements map) {entry : κ × ν} (run : t.remove key = .ok (entry, t')) :
    entry.1 = key ∧ map key = some entry.2 ∧ t'.Implements (Function.update map key none) := by
  rw [ChainTable.remove] at run
  split at run
  · rename_i taken chain removed
    cases run
    obtain ⟨rfl, front, back, split, rfl⟩ := Chain.split_remove? removed
    have chains : t.chainOf entry.1 ~ [entry] ++ (front ++ back) := split ▸ List.perm_middle
    obtain ⟨rest, before, after⟩ :=
      held.ordered.exists_rest [entry] [] chains (.refl (front ++ back)) (t.size - 1)
    simp only [List.nil_append, List.singleton_append] at before after
    -- The others keep their order, so the keys still go up.
    have kept : (front ++ back).Sublist (t.chainOf entry.1) := by
      rw [split]
      exact List.Sublist.append_left (List.sublist_cons_self entry back) front
    obtain ⟨here, lists⟩ := Lists.cons_iff.mp (held.lists.perm before)
    refine ⟨rfl, here, of_setChain (held.ordered.setChain (fun other member => ?_) ?_) ?_ ?_⟩
    · exact held.own entry.1 other (kept.subset member)
    · exact (held.ascending entry.1).sublist kept
    · exact lists.perm after.symm
    · have size := held.size
      rw [before.length_eq, List.length_cons] at size
      rw [after.length_eq]
      omega
  · cases run

open List in
theorem update? (held : t.Implements map) {change : ν → ν} (run : t.update? key change = some t') :
    t'.Implements (Function.update map key ((map key).map change)) := by
  obtain ⟨chain, updated, rfl⟩ := Option.map_eq_some_iff.mp run
  obtain ⟨value, front, back, split, rfl⟩ := Chain.split_update? updated
  have chains : t.chainOf key ~ [(key, value)] ++ (front ++ back) := split ▸ List.perm_middle
  have chains' : front ++ (key, change value) :: back ~ [(key, change value)] ++ (front ++ back) :=
    List.perm_middle
  obtain ⟨rest, before, after⟩ := held.ordered.exists_rest _ _ chains chains' t.size
  simp only [List.singleton_append] at before after
  obtain ⟨here, lists⟩ := Lists.cons_iff.mp (held.lists.perm before)
  refine of_setChain (held.ordered.setChain (fun entry member => ?_) ?_) ?_ ?_
  · have keys := Chain.keys_update? updated
    have named := keys ▸ List.mem_map_of_mem (f := Prod.fst) member
    obtain ⟨old, listed, same⟩ := List.mem_map.mp named
    exact same ▸ held.own key old listed
  · exact Chain.ascending_keys (Chain.keys_update? updated) (held.ascending key)
  · exact (lists.cons_update (congrArg (Option.map change) here)).perm after.symm
  · have size := held.size
    rw [before.length_eq, List.length_cons] at size
    rw [after.length_eq, List.length_cons]
    omega

/-- What is taken out is the entry of the key. -/
theorem exists_remove (held : t.Implements map) (present : map key = some value) :
    ∃ t', t.remove key = .ok ((key, value), t') := by
  have found : (Chain.remove? t.cmp key (t.chainOf key)).isSome := by
    rw [Chain.remove?_isSome, held.find_chain, present]
    rfl
  obtain ⟨⟨entry, chain⟩, removed⟩ := Option.isSome_iff_exists.mp found
  have run : t.remove key = .ok (entry, t.setChain key chain (t.size - 1)) := by
    rw [ChainTable.remove, removed]
  obtain ⟨rfl, here, -⟩ := held.remove run
  cases present.symm.trans here
  exact ⟨_, run⟩

end Implements

/-! ### Sequences of operations -/

variable {σ : Type}

/-- An operation on a table. What is removed is handed to a destructor, which works on a state. -/
inductive Operation (κ ν σ : Type)
  | insert (key : κ) (value : ν)
  | remove (key : κ) (destroy : κ → ν → σ → σ)
  | update (key : κ) (change : ν → ν)

/-- What the operation returns, and the table and the state that it leaves. A key that has no value
is not changed. -/
def Operation.perform (t : ChainTable κ ν) (state : σ) :
    Operation κ ν σ → Except KernelError Unit × ChainTable κ ν × σ
  | .insert key value =>
    match t.insert key value with
    | .ok t' => (.ok (), t', state)
    | .error fault => (.error fault, t, state)
  | .remove key destroy =>
    match t.remove key with
    | .ok ((k, v), t') => (.ok (), t', destroy k v state)
    | .error fault => (.error fault, t, state)
  | .update key change => (.ok (), (t.update? key change).getD t, state)

/-- What the operation does to a map. -/
def Operation.onMap [DecidableEq κ] (map : κ → Option ν) : Operation κ ν σ → κ → Option ν
  | .insert key value => Function.update map key (some value)
  | .remove key _ => Function.update map key none
  | .update key change => Function.update map key ((map key).map change)

/-- The map that the operations make of the empty one. -/
def contents [DecidableEq κ] (operations : List (Operation κ ν σ)) : κ → Option ν :=
  operations.foldl Operation.onMap fun _ => none

/-- A table, the state of the destructors, and the operations that succeeded so far. -/
structure Session (κ ν σ : Type) where
  table : ChainTable κ ν
  state : σ
  succeeded : List (Operation κ ν σ)

namespace Session

def start (hash : κ → UInt32) (cmp : κ → κ → Ordering) (bucketCount : Nat) (state : σ) : Session κ ν σ :=
  ⟨ChainTable.new hash cmp bucketCount, state, []⟩

def step (s : Session κ ν σ) (operation : Operation κ ν σ) : Session κ ν σ :=
  match operation.perform s.table s.state with
  | (.ok _, table, state) => ⟨table, state, s.succeeded ++ [operation]⟩
  | (.error _, table, state) => ⟨table, state, s.succeeded⟩

def run (s : Session κ ν σ) (operations : List (Operation κ ν σ)) : Session κ ν σ :=
  operations.foldl step s

end Session

/-- The functions of a table and the number of its buckets are never changed. -/
theorem Operation.perform_keeps (operation : Operation κ ν σ) (t : ChainTable κ ν) (state : σ) :
    let t' := (operation.perform t state).2.1
    t'.hash = t.hash ∧ t'.cmp = t.cmp ∧ t'.bucketCount = t.bucketCount := by
  cases operation with
  | insert key value =>
    rw [perform, ChainTable.insert]
    cases Chain.insert? t.cmp key value (t.chainOf key) with
    | none => exact ⟨rfl, rfl, rfl⟩
    | some chain => exact ⟨rfl, rfl, bucketCount_setChain⟩
  | remove key destroy =>
    rw [perform, ChainTable.remove]
    cases Chain.remove? t.cmp key (t.chainOf key) with
    | none => exact ⟨rfl, rfl, rfl⟩
    | some taken => exact ⟨rfl, rfl, bucketCount_setChain⟩
  | update key change =>
    rw [perform, ChainTable.update?]
    cases Chain.update? t.cmp key change (t.chainOf key) with
    | none => exact ⟨rfl, rfl, rfl⟩
    | some chain => exact ⟨rfl, rfl, bucketCount_setChain⟩

variable [DecidableEq κ]

/-- An operation that succeeds does to the table what it does to the map, and one that fails leaves
the table and the state. -/
theorem Implements.perform [Std.TransCmp t.cmp] [Std.LawfulEqCmp t.cmp] {map : κ → Option ν}
    (held : t.Implements map) (operation : Operation κ ν σ) (state : σ) :
    (∃ t' state', operation.perform t state = (.ok (), t', state') ∧ t'.Implements (operation.onMap map)) ∨
      ∃ fault, operation.perform t state = (.error fault, t, state) := by
  cases operation with
  | insert key value =>
    cases run : t.insert key value with
    | ok t' => exact Or.inl ⟨t', state, by rw [Operation.perform, run], held.insert run⟩
    | error fault => exact Or.inr ⟨fault, by rw [Operation.perform, run]⟩
  | remove key destroy =>
    cases run : t.remove key with
    | ok taken =>
      obtain ⟨⟨k, v⟩, t'⟩ := taken
      exact Or.inl ⟨t', destroy k v state, by rw [Operation.perform, run], (held.remove run).2.2⟩
    | error fault => exact Or.inr ⟨fault, by rw [Operation.perform, run]⟩
  | update key change =>
    refine Or.inl ⟨_, _, rfl, ?_⟩
    cases here : map key with
    | some value =>
      obtain ⟨t', run⟩ := held.exists_update? here change
      rw [run]
      exact held.update? run
    | none =>
      have same : (Operation.update key change : Operation κ ν σ).onMap map = map := by
        rw [Operation.onMap, here, Option.map_none, ← here, Function.update_eq_self]
      rw [held.update?_of_absent here, same]
      exact held

/-- The functions and the number of buckets are those of the start, and the table holds the map that
the operations make which succeeded. -/
structure Session.Sound (hash : κ → UInt32) (cmp : κ → κ → Ordering) (bucketCount : Nat) (s : Session κ ν σ) :
    Prop where
  hash : s.table.hash = hash
  cmp : s.table.cmp = cmp
  bucketCount : s.table.bucketCount = max bucketCount 1
  implements : s.table.Implements (contents s.succeeded)

namespace Session

variable {hash : κ → UInt32} {cmp : κ → κ → Ordering} {bucketCount : Nat} {s : Session κ ν σ}

theorem sound_start (state : σ) :
    (start hash cmp bucketCount state : Session κ ν σ).Sound hash cmp bucketCount where
  hash := rfl
  cmp := rfl
  bucketCount := Array.size_replicate
  implements := implements_new hash cmp bucketCount

variable [Std.TransCmp cmp] [Std.LawfulEqCmp cmp]

theorem Sound.step (sound : s.Sound hash cmp bucketCount) (operation : Operation κ ν σ) :
    (s.step operation).Sound hash cmp bucketCount := by
  have : Std.TransCmp s.table.cmp := sound.cmp ▸ inferInstance
  have : Std.LawfulEqCmp s.table.cmp := sound.cmp ▸ inferInstance
  obtain ⟨hashes, orders, buckets⟩ := operation.perform_keeps s.table s.state
  rcases sound.implements.perform operation s.state with ⟨t', state', run, held⟩ | ⟨fault, run⟩
  · have after : s.step operation = ⟨t', state', s.succeeded ++ [operation]⟩ := by
      rw [Session.step, run]
    rw [run] at hashes orders buckets
    rw [after]
    refine ⟨hashes.trans sound.hash, orders.trans sound.cmp, buckets.trans sound.bucketCount, ?_⟩
    rw [contents, List.foldl_append]
    exact held
  · have after : s.step operation = s := by
      rw [Session.step, run]
    rw [after]
    exact sound

theorem Sound.run (sound : s.Sound hash cmp bucketCount) (operations : List (Operation κ ν σ)) :
    (s.run operations).Sound hash cmp bucketCount := by
  induction operations generalizing s with
  | nil => exact sound
  | cons operation rest ih => exact ih (sound.step operation)

end Session

/-- Whatever is inserted, removed and updated, and however the keys are hashed, the table holds the map
that the operations make which succeeded, in as many buckets as at the start. A key that is present
cannot be inserted, and one that is absent cannot be removed; both leave the table, and the destructor
is not called. -/
theorem run_implements (hash : κ → UInt32) (cmp : κ → κ → Ordering) [Std.TransCmp cmp] [Std.LawfulEqCmp cmp]
    (bucketCount : Nat) (state : σ) (operations : List (Operation κ ν σ)) :
    let s := (Session.start hash cmp bucketCount state).run operations
    s.Sound hash cmp bucketCount ∧
      ∀ key, match contents s.succeeded key with
        | some old =>
          (∀ value, (Operation.insert key value).perform s.table s.state =
            (.error .alreadyExists, s.table, s.state)) ∧
          ∀ destroy, ∃ t, (Operation.remove key destroy).perform s.table s.state =
            (.ok (), t, destroy key old s.state)
        | none =>
          (∀ destroy, (Operation.remove key destroy).perform s.table s.state =
            (.error .notFound, s.table, s.state)) ∧
          ∀ value, ∃ t, (Operation.insert key value).perform s.table s.state = (.ok (), t, s.state) := by
  intro s
  have sound : s.Sound hash cmp bucketCount := (Session.sound_start state).run operations
  have : Std.TransCmp s.table.cmp := sound.cmp ▸ inferInstance
  have : Std.LawfulEqCmp s.table.cmp := sound.cmp ▸ inferInstance
  have held := sound.implements
  refine ⟨sound, fun key => ?_⟩
  split
  · rename_i old present
    refine ⟨fun value => ?_, fun destroy => ?_⟩
    · rw [Operation.perform, held.insert_of_present (by simp [present])]
    · obtain ⟨t', run⟩ := held.exists_remove present
      exact ⟨t', by rw [Operation.perform, run]⟩
  · rename_i absent
    refine ⟨fun destroy => ?_, fun value => ?_⟩
    · rw [Operation.perform, held.remove_of_absent absent]
    · obtain ⟨t', run⟩ := held.exists_insert absent value
      exact ⟨t', by rw [Operation.perform, run]⟩

/-- Two keys in one bucket; a second insertion of one of them and the removal of a third are refused. -/
def collidingOperations : List (Operation Nat String (List String)) :=
  [.insert 2 "b", .insert 1 "a", .insert 2 "c", .remove 3 fun _ value log => value :: log,
    .update 1 (· ++ "a"), .remove 2 fun _ value log => value :: log]

theorem run_implements_colliding :
    let s := (Session.start (fun _ => 0) compare 0 []).run collidingOperations
    s.table.toList = [(1, "aa")] ∧ s.state = ["b"] ∧ s.succeeded.length = 4 ∧ s.Sound (fun _ => 0) compare 0 :=
  ⟨rfl, rfl, rfl, (run_implements (fun _ => 0) compare 0 [] collidingOperations).1⟩

end ChainTable

end CilPolicy
