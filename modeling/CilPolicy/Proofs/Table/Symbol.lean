import CilPolicy.Lowering.Symbols
import CilPolicy.Proofs.Table.Chain

/-!
# Lookup in symbol tables

A chain is searched only as far as its order allows, so a lookup after an insertion
needs the comparison to be an order. A table that was filled from a list of names then
finds exactly the names of the list, and lists each of them once.
-/

namespace CilPolicy

namespace ChainTable

variable {κ ν : Type}

theorem chainOf_setChain {t : ChainTable κ ν} (bucketed : 0 < t.buckets.size) (key n : κ)
    (chain : List (κ × ν)) (size : Nat) :
    (t.setChain key chain size).chainOf n =
      if t.bucketOf n = t.bucketOf key then chain else t.chainOf n := by
  have hlt : t.bucketOf n < t.buckets.size := Nat.mod_lt _ bucketed
  have hbucket : (t.setChain key chain size).bucketOf n = t.bucketOf n := by
    simp [bucketOf, setChain]
  simp only [chainOf]
  rw [hbucket]
  simp only [setChain, Array.getD_eq_getD_getElem?, Array.getElem?_setIfInBounds]
  by_cases hsame : t.bucketOf key = t.bucketOf n
  · simp [hsame, hlt]
  · simp [hsame, Ne.symm hsame]

theorem find?_insert {t t' : ChainTable κ ν} [Std.TransCmp t.cmp] [Std.LawfulEqCmp t.cmp]
    (bucketed : 0 < t.buckets.size) {key n : κ} {value d : ν} (run : t.insert key value = .ok t') :
    t'.find? n = some d ↔ (n = key ∧ d = value) ∨ t.find? n = some d := by
  rw [insert] at run
  split at run
  · rename_i chain hchain
    cases run
    simp only [find?]
    rw [chainOf_setChain bucketed]
    by_cases hsame : t.bucketOf n = t.bucketOf key
    · have hold : t.chainOf n = t.chainOf key := by simp [chainOf, hsame]
      rw [if_pos hsame, hold]
      change Chain.find? t.cmp n chain = some d ↔ _
      exact Chain.find?_insert? hchain
    · have hne : n ≠ key := fun heq => hsame (heq ▸ rfl)
      rw [if_neg hsame]
      simp [hne, setChain]
  · cases run

end ChainTable

namespace SymbolTable

variable {α : Type}

/-- A table that names are added to: it has buckets, and its order is that of names. -/
structure Ordered (t : SymbolTable α) : Prop where
  bucketed : 0 < t.table.buckets.size
  byName : t.table.cmp = compare

/-- Values are handed out from the next one on, without a gap, and the names stay as they are. -/
theorem reserve_eq (t : SymbolTable α) (count : Nat) :
    t.reserve count = (List.range' (t.primaries + 1) count, { t with primaries := t.primaries + count }) := by
  induction count generalizing t with
  | zero => rfl
  | succ count ih =>
    have counted : t.primaries + 1 + count = t.primaries + (count + 1) := by omega
    simp only [reserve, nextValue, ih, counted]
    rw [List.range'_succ]

theorem ordered_reserve (bucketCount primaries : Nat) :
    ((SymbolTable.new bucketCount : SymbolTable α).reserve primaries).2.Ordered := by
  rw [reserve_eq]
  refine ⟨?_, rfl⟩
  change 0 < (Array.replicate (max bucketCount 1) []).size
  rw [Array.size_replicate]
  omega

theorem insert_spec {t t' : SymbolTable α} (ordered : t.Ordered) {name : String} {datum : α}
    (run : t.insert name datum = .ok t') :
    t'.Ordered ∧ ∀ n d, t'.find? n = some d ↔ (n = name ∧ d = datum) ∨ t.find? n = some d := by
  obtain ⟨table, hinsert, rfl⟩ := map_eq_ok.mp run
  have hcmp := ordered.byName
  have : Std.TransCmp t.table.cmp := hcmp ▸ inferInstanceAs (Std.TransOrd String)
  have : Std.LawfulEqCmp t.table.cmp := hcmp ▸ inferInstanceAs (Std.LawfulEqOrd String)
  refine ⟨?_, fun n d => ChainTable.find?_insert ordered.bucketed hinsert⟩
  rw [ChainTable.insert] at hinsert
  split at hinsert
  · cases hinsert
    refine ⟨?_, hcmp⟩
    change 0 < (t.table.buckets.setIfInBounds _ _).size
    rw [Array.size_setIfInBounds]
    exact ordered.bucketed
  · cases hinsert

open List in
/-- A table filled from a list has the entries of the list, and as many values as it was given. -/
theorem foldlM_insert_perm {symbols : List (String × α)} {t t' : SymbolTable α} (ordered : t.Ordered)
    (run : symbols.foldlM (fun table (name, datum) => table.insert name datum) t = .ok t') :
    t'.primaries = t.primaries ∧ t'.toList ~ symbols ++ t.toList := by
  induction symbols generalizing t with
  | nil =>
    rw [List.foldlM_nil] at run
    cases run
    exact ⟨rfl, .refl _⟩
  | cons s rest ih =>
    rw [List.foldlM_cons, bind_eq_ok] at run
    obtain ⟨mid, first, run⟩ := run
    obtain ⟨primaries, entries⟩ := ih (insert_spec ordered first).1 run
    obtain ⟨table, inserted, rfl⟩ := map_eq_ok.mp first
    refine ⟨primaries, ?_⟩
    calc t'.toList
        _ ~ rest ++ table.toList := entries
        _ ~ rest ++ s :: t.toList := (ChainTable.perm_insert ordered.bucketed inserted).append_left rest
        _ ~ s :: (rest ++ t.toList) := List.perm_middle

theorem foldlM_insert_spec {symbols : List (String × α)} {t t' : SymbolTable α}
    (ordered : t.Ordered)
    (run : symbols.foldlM (fun table (name, datum) => table.insert name datum) t = .ok t') :
    ∀ n d, t'.find? n = some d ↔ (n, d) ∈ symbols ∨ t.find? n = some d := by
  induction symbols generalizing t with
  | nil =>
    rw [List.foldlM_nil] at run
    cases run
    simp
  | cons s rest ih =>
    rw [List.foldlM_cons, bind_eq_ok] at run
    obtain ⟨mid, first, run⟩ := run
    obtain ⟨hordered, hfind⟩ := insert_spec ordered first
    intro n d
    rw [ih hordered run n d, hfind n d, List.mem_cons, Prod.mk.injEq]
    exact or_left_comm.trans or_assoc.symm

theorem find?_reserve (bucketCount primaries : Nat) (name : String) :
    ((SymbolTable.new bucketCount : SymbolTable α).reserve primaries).2.find? name = none := by
  rw [reserve_eq]
  simp [find?, ChainTable.find?, ChainTable.chainOf, SymbolTable.new, ChainTable.new,
    Array.getD_eq_getD_getElem?, Array.getElem?_replicate]
  split <;> rfl

/-- A table filled from a list finds exactly the names of the list. -/
theorem find?_ofList {bucketCount primaries : Nat} {symbols : List (String × α)}
    {t : SymbolTable α} (run : ofList bucketCount primaries symbols = .ok t) {n : String} {d : α} :
    t.find? n = some d ↔ (n, d) ∈ symbols := by
  rw [foldlM_insert_spec (ordered_reserve bucketCount primaries) run n d, find?_reserve]
  simp

theorem exists_insert {t : SymbolTable α} {name : String} (absent : t.find? name = none) (datum : α) :
    ∃ t', t.insert name datum = .ok t' := by
  obtain ⟨chain, inserted⟩ : ∃ chain, Chain.insert? t.table.cmp name datum (t.table.chainOf name) = some chain :=
    Chain.exists_insert? absent
  refine ⟨{ t with table := t.table.setChain name chain (t.table.size + 1) }, ?_⟩
  rw [insert, ChainTable.insert, inserted]
  rfl

/-- A table takes in all symbols of a list whose names differ, when it has none of them. -/
theorem exists_foldlM_insert {symbols : List (String × α)} {t : SymbolTable α} (ordered : t.Ordered)
    (nodup : (symbols.map Prod.fst).Nodup) (absent : ∀ s ∈ symbols, t.find? s.1 = none) :
    ∃ t', symbols.foldlM (fun table (name, datum) => table.insert name datum) t = .ok t' := by
  induction symbols generalizing t with
  | nil => exact ⟨t, rfl⟩
  | cons s rest ih =>
    obtain ⟨fresh, nodup⟩ := List.nodup_cons.mp nodup
    obtain ⟨mid, first⟩ := exists_insert (absent s List.mem_cons_self) s.2
    obtain ⟨midOrdered, entries⟩ := insert_spec ordered first
    have others : ∀ s' ∈ rest, mid.find? s'.1 = none := by
      intro s' hs'
      refine Option.eq_none_iff_forall_not_mem.mpr fun d found => ?_
      rcases (entries s'.1 d).mp found with ⟨same, _⟩ | found
      · exact fresh (same ▸ List.mem_map_of_mem hs')
      · rw [absent s' (List.mem_cons_of_mem s hs')] at found
        cases found
    obtain ⟨t', run⟩ := ih midOrdered nodup others
    rw [List.foldlM_cons]
    exact ⟨t', bind_eq_ok.mpr ⟨mid, first, run⟩⟩

/-- There is a table of any list of symbols whose names differ. -/
theorem exists_ofList {symbols : List (String × α)} (nodup : (symbols.map Prod.fst).Nodup)
    (bucketCount primaries : Nat) : ∃ t, ofList bucketCount primaries symbols = .ok t :=
  exists_foldlM_insert (ordered_reserve bucketCount primaries) nodup fun s _ => find?_reserve bucketCount primaries s.1

open List in
theorem ofList_perm {bucketCount primaries : Nat} {symbols : List (String × α)} {t : SymbolTable α}
    (run : ofList bucketCount primaries symbols = .ok t) :
    t.primaries = primaries ∧ t.toList ~ symbols := by
  obtain ⟨count, entries⟩ := foldlM_insert_perm (ordered_reserve bucketCount primaries) run
  have empty : ((SymbolTable.new bucketCount : SymbolTable α).reserve primaries).2.toList = [] := by
    rw [reserve_eq]
    simp [SymbolTable.toList, ChainTable.toList, SymbolTable.new, ChainTable.new]
  rw [reserve_eq] at count
  rw [empty, List.append_nil] at entries
  exact ⟨count.trans (Nat.zero_add primaries), entries⟩

end SymbolTable

end CilPolicy
