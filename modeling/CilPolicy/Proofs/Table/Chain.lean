import CilPolicy.Proofs.Report
import CilPolicy.Table.Symbol
import Mathlib.Data.List.Perm.Basic

/-!
# Chains and the size of a table

What an insertion or a change leaves of a chain: which entries it has, whether its keys
still go up, and how long it is. A table whose chains were changed one at a time has as
many entries as its size says.
-/

namespace CilPolicy

namespace Chain

variable {κ ν : Type} {cmp : κ → κ → Ordering}

/-- The keys of the chain go up. -/
def Ascending (cmp : κ → κ → Ordering) (chain : List (κ × ν)) : Prop :=
  chain.Pairwise fun a b => cmp a.1 b.1 = .lt

theorem mem_of_find? [Std.LawfulEqCmp cmp] {key : κ} {value : ν} {chain : List (κ × ν)}
    (found : find? cmp key chain = some value) : (key, value) ∈ chain := by
  induction chain with
  | nil => cases found
  | cons entry rest ih =>
    obtain ⟨k, v⟩ := entry
    rw [find?] at found
    split at found
    · rename_i same
      cases found
      rw [Std.LawfulEqCmp.eq_of_compare same]
      exact List.mem_cons_self
    · cases found
    · exact List.mem_cons_of_mem _ (ih found)

/-- A changed entry keeps its key; the others are as they were. -/
theorem mem_of_update? [Std.LawfulEqCmp cmp] {key : κ} {change : ν → ν} {chain chain' : List (κ × ν)}
    (run : update? cmp key change chain = some chain') {entry : κ × ν} (mem : entry ∈ chain') :
    entry ∈ chain ∨ ∃ value, entry = (key, change value) := by
  induction chain generalizing chain' with
  | nil => cases run
  | cons first rest ih =>
    obtain ⟨k, v⟩ := first
    rw [update?] at run
    split at run
    · rename_i same
      cases run
      rcases List.mem_cons.mp mem with here | mem
      · rw [Std.LawfulEqCmp.eq_of_compare same]
        exact Or.inr ⟨v, here⟩
      · exact Or.inl (List.mem_cons_of_mem _ mem)
    · cases run
    · obtain ⟨rest', found, rfl⟩ := Option.map_eq_some_iff.mp run
      rcases List.mem_cons.mp mem with here | mem
      · exact Or.inl (here ▸ List.mem_cons_self)
      · exact (ih found mem).imp_left (List.mem_cons_of_mem _)

theorem keys_update? {key : κ} {change : ν → ν} {chain chain' : List (κ × ν)}
    (run : update? cmp key change chain = some chain') :
    chain'.map Prod.fst = chain.map Prod.fst := by
  induction chain generalizing chain' with
  | nil => cases run
  | cons first rest ih =>
    obtain ⟨k, v⟩ := first
    rw [update?] at run
    split at run
    · cases run
      rfl
    · cases run
    · obtain ⟨rest', found, rfl⟩ := Option.map_eq_some_iff.mp run
      rw [List.map_cons, List.map_cons, ih found]

open List in
/-- A successful insertion adds its own entry to the chain. -/
theorem perm_insert? {key : κ} {value : ν} {chain chain' : List (κ × ν)}
    (run : insert? cmp key value chain = some chain') : chain' ~ (key, value) :: chain := by
  induction chain generalizing chain' with
  | nil =>
    cases run
    exact .refl _
  | cons first rest ih =>
    obtain ⟨k, v⟩ := first
    rw [insert?] at run
    split at run
    · cases run
    · cases run
      exact .refl _
    · obtain ⟨rest', found, rfl⟩ := Option.map_eq_some_iff.mp run
      calc (k, v) :: rest'
          _ ~ (k, v) :: (key, value) :: rest := (ih found).cons _
          _ ~ (key, value) :: (k, v) :: rest := .swap ..

theorem length_insert? {key : κ} {value : ν} {chain chain' : List (κ × ν)}
    (run : insert? cmp key value chain = some chain') : chain'.length = chain.length + 1 :=
  (perm_insert? run).length_eq

theorem mem_of_insert? {key : κ} {value : ν} {chain chain' : List (κ × ν)}
    (run : insert? cmp key value chain = some chain') {entry : κ × ν} (mem : entry ∈ chain') :
    entry ∈ chain ∨ entry = (key, value) :=
  (List.mem_cons.mp ((perm_insert? run).mem_iff.mp mem)).symm

theorem ascending_keys {chain chain' : List (κ × ν)} (keys : chain'.map Prod.fst = chain.map Prod.fst)
    (ascending : Ascending cmp chain) : Ascending cmp chain' := by
  have byKeys : ∀ entries : List (κ × ν),
      (entries.map Prod.fst).Pairwise (fun a b => cmp a b = .lt) ↔ Ascending cmp entries :=
    fun _ => List.pairwise_map
  rw [← byKeys, keys, byKeys]
  exact ascending

theorem ascending_insert? [Std.TransCmp cmp] {key : κ} {value : ν} {chain chain' : List (κ × ν)}
    (ascending : Ascending cmp chain) (run : insert? cmp key value chain = some chain') :
    Ascending cmp chain' := by
  induction chain generalizing chain' with
  | nil =>
    cases run
    exact List.pairwise_singleton _ _
  | cons first rest ih =>
    obtain ⟨k, v⟩ := first
    obtain ⟨above, rising⟩ := List.pairwise_cons.mp ascending
    rw [insert?] at run
    split at run
    · cases run
    · rename_i before
      cases run
      refine List.pairwise_cons.mpr ⟨?_, ascending⟩
      intro entry mem
      rcases List.mem_cons.mp mem with here | mem
      · rw [here]
        exact before
      · exact Std.TransCmp.lt_trans before (above entry mem)
    · rename_i after
      obtain ⟨rest', found, rfl⟩ := Option.map_eq_some_iff.mp run
      refine List.pairwise_cons.mpr ⟨?_, ih rising found⟩
      intro entry mem
      rcases mem_of_insert? found mem with old | new
      · exact above entry old
      · rw [new]
        exact Std.OrientedCmp.lt_of_gt after

/-! ### Lookups -/

section Lookups

variable {key k : κ} {chain chain' : List (κ × ν)}

/-- A changed key is found with its new value, and every other key as before. -/
theorem find?_update? [Std.LawfulEqCmp cmp] [DecidableEq κ] {change : ν → ν} (run : update? cmp key change chain = some chain') :
    find? cmp k chain' = if k = key then (find? cmp key chain).map change else find? cmp k chain := by
  induction chain generalizing chain' with
  | nil => cases run
  | cons first rest ih =>
    obtain ⟨k₀, v⟩ := first
    rw [update?] at run
    split at run
    · rename_i same
      cases run
      cases Std.LawfulEqCmp.eq_of_compare same
      by_cases here : k = key
      · subst here
        simp only [find?, same, if_true, Option.map_some]
      · rw [if_neg here, find?, find?]
        cases order : cmp k key with
        | eq => exact absurd (Std.LawfulEqCmp.eq_of_compare order) here
        | lt => rfl
        | gt => rfl
    · cases run
    · rename_i after
      obtain ⟨rest', found, rfl⟩ := Option.map_eq_some_iff.mp run
      by_cases here : k = key
      · subst here
        simp only [find?, after, ih found]
      · simp only [find?, ih found, if_neg here]

theorem update?_isSome {change : ν → ν} :
    (update? cmp key change chain).isSome = (find? cmp key chain).isSome := by
  induction chain with
  | nil => rfl
  | cons first rest ih =>
    obtain ⟨k₀, v⟩ := first
    rw [update?, find?]
    cases cmp key k₀ with
    | eq => rfl
    | lt => rfl
    | gt => simpa using ih

theorem exists_insert? {value : ν} (absent : find? cmp key chain = none) :
    ∃ chain', insert? cmp key value chain = some chain' := by
  induction chain with
  | nil => exact ⟨_, rfl⟩
  | cons first rest ih =>
    obtain ⟨k₀, v⟩ := first
    rw [find?] at absent
    rw [insert?]
    cases order : cmp key k₀ with
    | eq =>
      rw [order] at absent
      cases absent
    | lt => exact ⟨_, rfl⟩
    | gt =>
      rw [order] at absent
      obtain ⟨rest', inserted⟩ := ih absent
      exact ⟨(k₀, v) :: rest', congrArg (Option.map _) inserted⟩

/-- A value that is put in and changed at once might as well be put in changed. -/
theorem update?_of_insert? [Std.ReflCmp cmp] {old new : ν} (run : insert? cmp key old chain = some chain') :
    update? cmp key (fun _ => new) chain' = insert? cmp key new chain := by
  have self : cmp key key = .eq := Std.ReflCmp.compare_self
  induction chain generalizing chain' with
  | nil =>
    cases run
    simp only [update?, insert?, self]
  | cons first rest ih =>
    obtain ⟨k, v⟩ := first
    rw [insert?] at run
    cases order : cmp key k with
    | eq =>
      rw [order] at run
      cases run
    | lt =>
      rw [order] at run
      cases run
      simp only [update?, insert?, self, order]
    | gt =>
      rw [order] at run
      obtain ⟨rest', inserted, rfl⟩ := Option.map_eq_some_iff.mp run
      simp only [update?, insert?, order, ih inserted]

theorem ne_of_compare [Std.TransCmp cmp] {a b : κ} {o : Ordering} (h : cmp a b = o) (differ : o ≠ .eq) : a ≠ b := by
  rintro rfl
  exact differ (h.symm.trans Std.ReflCmp.compare_self)

/-- A successful insertion adds its own entry to what is found, and nothing else. -/
theorem find?_insert? [Std.TransCmp cmp] [Std.LawfulEqCmp cmp] {n : κ} {value d : ν}
    (run : insert? cmp key value chain = some chain') :
    find? cmp n chain' = some d ↔ (n = key ∧ d = value) ∨ find? cmp n chain = some d := by
  induction chain generalizing chain' with
  | nil =>
    cases run
    cases hn : cmp n key with
    | eq =>
      have heq := Std.LawfulEqCmp.eq_of_compare hn
      subst heq
      simp [find?, hn, eq_comm]
    | lt => simp [find?, hn, ne_of_compare hn (by decide)]
    | gt => simp [find?, hn, ne_of_compare hn (by decide)]
  | cons entry rest ih =>
    obtain ⟨k, v⟩ := entry
    rw [insert?] at run
    split at run
    · cases run
    · rename_i hlt
      cases run
      cases hn : cmp n key with
      | eq =>
        have heq := Std.LawfulEqCmp.eq_of_compare hn
        subst heq
        simp [find?, hn, hlt, eq_comm]
      | lt =>
        -- a key below the new one is below all that follow it
        have hne := ne_of_compare hn (by decide)
        simp [find?, hn, Std.TransCmp.lt_trans hn hlt, hne]
      | gt =>
        have hne := ne_of_compare hn (by decide)
        rw [find?, hn]
        simp [hne]
    · rename_i hgt
      obtain ⟨chain'', hrest, rfl⟩ := Option.map_eq_some_iff.mp run
      cases hn : cmp n k with
      | eq =>
        have heq := Std.LawfulEqCmp.eq_of_compare hn
        subst heq
        have hne := ne_of_compare hgt (by decide)
        simp [find?, hn, hne.symm]
      | lt =>
        have hne : n ≠ key := by
          rintro rfl
          rw [hgt] at hn
          cases hn
        simp [find?, hn, hne]
      | gt => simpa [find?, hn] using ih hrest

/-- In an ascending chain a key is found with the value it stands with. -/
theorem find?_of_mem [Std.TransCmp cmp] {value : ν} (ascending : Ascending cmp chain) (mem : (key, value) ∈ chain) :
    find? cmp key chain = some value := by
  induction chain with
  | nil => cases mem
  | cons first rest ih =>
    obtain ⟨k₀, v⟩ := first
    obtain ⟨above, rising⟩ := List.pairwise_cons.mp ascending
    rw [find?]
    rcases List.mem_cons.mp mem with here | later
    · cases here
      have same : cmp key key = .eq := Std.ReflCmp.compare_self
      rw [same]
    · have after : cmp key k₀ = .gt := Std.OrientedCmp.gt_of_lt (above _ later)
      rw [after]
      exact ih rising later

end Lookups

end Chain

open List in
/-- Replacing one of several lists exchanges its members and keeps all others. -/
theorem flatten_set_perm {α : Type} {lists : List (List α)} {i : Nat} {old : List α}
    (at_i : lists[i]? = some old) (new : List α) :
    (lists.set i new).flatten ++ old ~ lists.flatten ++ new := by
  induction lists generalizing i with
  | nil => cases at_i
  | cons first rest ih =>
    cases i with
    | zero =>
      cases at_i
      rw [List.set_cons_zero, List.flatten_cons, List.flatten_cons]
      calc new ++ rest.flatten ++ old
          _ ~ old ++ (new ++ rest.flatten) := List.perm_append_comm
          _ ~ old ++ (rest.flatten ++ new) := List.perm_append_comm.append_left old
          _ = old ++ rest.flatten ++ new := (List.append_assoc _ _ _).symm
    | succ i =>
      simp only [List.set_cons_succ, List.flatten_cons, List.append_assoc]
      exact (ih at_i).append_left first

namespace ChainTable

variable {κ ν : Type}

/-- There is a bucket, and the size is the number of entries. -/
structure Counted (t : ChainTable κ ν) : Prop where
  bucketed : 0 < t.buckets.size
  size : t.size = t.toList.length

theorem counted_new (hash : κ → UInt32) (cmp : κ → κ → Ordering) (bucketCount : Nat) :
    (ChainTable.new hash cmp bucketCount : ChainTable κ ν).Counted where
  bucketed := by
    rw [ChainTable.new, Array.size_replicate]
    omega
  size := by simp [ChainTable.new, toList]

open List in
/-- A table with one chain replaced exchanges the entries of that chain. -/
theorem perm_setChain {t : ChainTable κ ν} (bucketed : 0 < t.buckets.size) (key : κ)
    (chain : List (κ × ν)) (size : Nat) :
    (t.setChain key chain size).toList ++ t.chainOf key ~ t.toList ++ chain := by
  have inside : t.bucketOf key < t.buckets.size := Nat.mod_lt _ bucketed
  have old : t.buckets.toList[t.bucketOf key]? = some (t.chainOf key) := by
    rw [chainOf, Array.getD_eq_getD_getElem?, Array.getElem?_toList,
      Array.getElem?_eq_getElem inside, Option.getD_some]
  have exchanged := flatten_set_perm old chain
  rw [← Array.toList_setIfInBounds] at exchanged
  exact exchanged

theorem length_setChain {t : ChainTable κ ν} (bucketed : 0 < t.buckets.size) (key : κ)
    (chain : List (κ × ν)) (size : Nat) :
    (t.setChain key chain size).toList.length + (t.chainOf key).length =
      t.toList.length + chain.length := by
  have lengths := (perm_setChain bucketed key chain size).length_eq
  rwa [List.length_append, List.length_append] at lengths

open List in
/-- A successful insertion adds its own entry to the table. -/
theorem perm_insert {t t' : ChainTable κ ν} (bucketed : 0 < t.buckets.size) {key : κ} {value : ν}
    (run : t.insert key value = .ok t') : t'.toList ~ (key, value) :: t.toList := by
  rw [ChainTable.insert] at run
  split at run
  · rename_i chain inserted
    cases run
    refine (List.perm_append_right_iff (t.chainOf key)).mp ?_
    calc (t.setChain key chain (t.size + 1)).toList ++ t.chainOf key
        _ ~ t.toList ++ chain := perm_setChain bucketed key chain _
        _ ~ t.toList ++ (key, value) :: t.chainOf key := (Chain.perm_insert? inserted).append_left _
        _ ~ (key, value) :: (t.toList ++ t.chainOf key) := List.perm_middle
  · cases run

theorem Counted.setChain {t : ChainTable κ ν} (counted : t.Counted) {key : κ}
    {chain : List (κ × ν)} {added : Nat} (length : chain.length = (t.chainOf key).length + added) :
    (t.setChain key chain (t.size + added)).Counted where
  bucketed := by
    change 0 < (t.buckets.setIfInBounds _ _).size
    rw [Array.size_setIfInBounds]
    exact counted.bucketed
  size := by
    have lengths := length_setChain counted.bucketed key chain (t.size + added)
    have before := counted.size
    change t.size + added = _
    omega

theorem Counted.insert {t t' : ChainTable κ ν} (counted : t.Counted) {key : κ} {value : ν}
    (run : t.insert key value = .ok t') : t'.Counted := by
  rw [ChainTable.insert] at run
  split at run
  · rename_i chain inserted
    cases run
    exact counted.setChain (Chain.length_insert? inserted)
  · cases run

theorem Counted.update? {t t' : ChainTable κ ν} (counted : t.Counted) {key : κ} {change : ν → ν}
    (run : t.update? key change = some t') : t'.Counted := by
  obtain ⟨chain, updated, rfl⟩ := Option.map_eq_some_iff.mp run
  have lengths := congrArg List.length (Chain.keys_update? updated)
  rw [List.length_map, List.length_map] at lengths
  exact counted.setChain (show chain.length = (t.chainOf key).length + 0 from lengths)

end ChainTable

namespace SymbolTable

variable {α : Type}

/-- A table that comes of its operations. -/
inductive Built : SymbolTable α → Prop
  | new (bucketCount : Nat) : Built (SymbolTable.new bucketCount)
  | nextValue {t : SymbolTable α} (built : Built t) : Built t.nextValue.2
  | insert {t t' : SymbolTable α} {name : String} {datum : α} (built : Built t)
      (run : t.insert name datum = .ok t') : Built t'
  | update {t t' : SymbolTable α} {name : String} {change : α → α} (built : Built t)
      (run : t.update? name change = some t') : Built t'

theorem Built.counted {t : SymbolTable α} (built : t.Built) : t.table.Counted := by
  induction built with
  | new bucketCount => exact ChainTable.counted_new _ _ bucketCount
  | nextValue _ ih => exact ih
  | insert _ run ih =>
    obtain ⟨table, inserted, rfl⟩ := map_eq_ok.mp run
    exact ih.insert inserted
  | update _ run ih =>
    obtain ⟨table, updated, rfl⟩ := Option.map_eq_some_iff.mp run
    exact ih.update? updated

theorem Built.length_toList {t : SymbolTable α} (built : t.Built) : t.toList.length = t.size :=
  built.counted.size.symm

end SymbolTable

end CilPolicy
