import CilPolicy.Access.Table
import CilPolicy.Proofs.Table.Chain

/-!
# The entries of an access table

A table lists its entries by walking the chains of its slots. Every handle that was
given out stays on some chain, so the walk misses no entry, and a handle keeps the
entry it was given out for.
-/

namespace CilPolicy

/-! ### Single kinds -/

namespace RuleKinds

theorem plain_of_mem : ∀ k ∈ recordOrder, k.plain = k := by
  simp only [recordOrder, List.mem_cons, List.not_mem_nil, or_false]
  rintro _ (rfl | rfl | rfl | rfl | rfl | rfl | rfl | rfl | rfl) <;> rfl

theorem countP_overlap : ∀ k ∈ recordOrder, recordOrder.countP k.overlap = 1 := by
  simp only [recordOrder, List.mem_cons, List.not_mem_nil, or_false]
  rintro _ (rfl | rfl | rfl | rfl | rfl | rfl | rfl | rfl | rfl) <;> rfl

theorem overlap_iff {a b : RuleKinds} (ha : a ∈ recordOrder) (hb : b ∈ recordOrder) :
    a.overlap b = true ↔ a = b := by
  simp only [recordOrder, List.mem_cons, List.not_mem_nil, or_false] at ha hb
  rcases ha with rfl | rfl | rfl | rfl | rfl | rfl | rfl | rfl | rfl <;>
    rcases hb with rfl | rfl | rfl | rfl | rfl | rfl | rfl | rfl | rfl <;> decide

end RuleKinds

/-! ### Tables -/

theorem AccessKey.ext_toNat {a b : AccessKey} (source : a.source.toNat = b.source.toNat)
    (target : a.target.toNat = b.target.toNat) (cls : a.cls.toNat = b.cls.toNat) (kinds : a.kinds = b.kinds) :
    a = b := by
  cases a
  cases b
  simp_all [UInt16.toNat_inj]

theorem AccessKey.place_injective {a b : AccessKey} (same : a.place = b.place) :
    a.source = b.source ∧ a.target = b.target ∧ a.cls = b.cls := by
  have source := a.source.toNat_lt
  have target := a.target.toNat_lt
  have cls := a.cls.toNat_lt
  have source' := b.source.toNat_lt
  have target' := b.target.toNat_lt
  have cls' := b.cls.toNat_lt
  simp only [place] at same
  refine ⟨UInt16.toNat_inj.mp ?_, UInt16.toNat_inj.mp ?_, UInt16.toNat_inj.mp ?_⟩ <;> omega

namespace AccessTable

/-- There is a slot, and every handle is on the chain of some slot. -/
structure Listed (t : AccessTable) : Prop where
  slotted : 0 < t.slots.size
  onChain : ∀ i, i < t.entries.size → ∃ chain ∈ t.slots.toList, i ∈ chain

theorem slotCount_pos (rules : Nat) : 0 < slotCount rules := by
  rw [slotCount]
  split
  · decide
  · exact Nat.lt_min.mpr ⟨Nat.two_pow_pos _, by decide⟩

theorem listed_withCapacity (rules : Nat) : (withCapacity rules).Listed where
  slotted := by
    rw [withCapacity, Array.size_replicate]
    exact slotCount_pos rules
  onChain := by
    intro i hi
    exact absurd hi (Nat.not_lt_zero i)

theorem slotOf_lt {t : AccessTable} (slotted : 0 < t.slots.size) (key : AccessKey) :
    t.slotOf key < t.slots.size := by
  have hmask : (UInt32.ofNat (t.slots.size - 1)).toNat ≤ t.slots.size - 1 := by
    rw [UInt32.toNat_ofNat']
    exact Nat.mod_le _ _
  have hand : (key.hash &&& UInt32.ofNat (t.slots.size - 1)).toNat ≤
      (UInt32.ofNat (t.slots.size - 1)).toNat := by
    rw [UInt32.toNat_and]
    exact Nat.and_le_right
  change (key.hash &&& UInt32.ofNat (t.slots.size - 1)).toNat < t.slots.size
  omega

theorem mem_chainInsert {t : AccessTable} {place : Nat} {kinds : RuleKinds} {handle i : Nat}
    {chain : List Nat} : i ∈ t.chainInsert place kinds handle chain ↔ i = handle ∨ i ∈ chain := by
  induction chain with
  | nil => simp [chainInsert]
  | cons j rest ih =>
    rw [chainInsert]
    split
    · split
      · exact List.mem_cons
      · rw [List.mem_cons, ih, List.mem_cons]
        exact or_left_comm
    · rw [List.mem_cons, ih, List.mem_cons]
      exact or_left_comm

@[simp] theorem entries_add (t : AccessTable) (key : AccessKey) (datum : AccessDatum) :
    (t.add key datum).2.entries = t.entries.push ⟨key, datum⟩ := rfl

theorem listed_add {t : AccessTable} (listed : t.Listed) (key : AccessKey) (datum : AccessDatum) :
    (t.add key datum).2.Listed where
  slotted := by
    change 0 < (t.slots.setIfInBounds _ _).size
    rw [Array.size_setIfInBounds]
    exact listed.slotted
  onChain := by
    intro i hi
    have hslot : t.slotOf key < t.slots.toList.length := by
      rw [Array.length_toList]
      exact slotOf_lt listed.slotted key
    change ∃ chain ∈ (t.slots.setIfInBounds (t.slotOf key) (t.chainInsert key.place
      key.kinds.plain t.entries.size (t.chainOf key))).toList, i ∈ chain
    rw [Array.toList_setIfInBounds]
    rw [entries_add, Array.size_push] at hi
    have changed : t.chainInsert key.place key.kinds.plain t.entries.size (t.chainOf key) ∈
        t.slots.toList.set (t.slotOf key) (t.chainInsert key.place key.kinds.plain t.entries.size
          (t.chainOf key)) := List.mem_set hslot _
    by_cases hnew : i = t.entries.size
    · exact ⟨_, changed, mem_chainInsert.mpr (Or.inl hnew)⟩
    · obtain ⟨chain, hchain, hi⟩ := listed.onChain i (by omega)
      obtain ⟨j, hj, heq⟩ := List.getElem_of_mem hchain
      by_cases hsame : t.slotOf key = j
      · have hold : t.chainOf key = chain := by
          simp only [chainOf, hsame, Array.getD]
          rw [dif_pos (by simpa using hj), ← heq]
          rfl
        exact ⟨_, changed, mem_chainInsert.mpr (Or.inr (hold ▸ hi))⟩
      · refine ⟨chain, ?_, hi⟩
        rw [← heq]
        exact List.mem_iff_getElem.mpr ⟨j, by simpa using hj, List.getElem_set_ne hsame _⟩

theorem mem_toList {t : AccessTable} (listed : t.Listed) {e : AccessEntry} :
    e ∈ t.toList ↔ e ∈ t.entries.toList := by
  rw [toList, List.mem_flatMap]
  constructor
  · rintro ⟨chain, _, he⟩
    obtain ⟨i, _, hi⟩ := List.mem_filterMap.mp he
    exact Array.mem_toList_iff.mpr (Array.mem_of_getElem? hi)
  · intro he
    obtain ⟨i, hi, heq⟩ := Array.mem_iff_getElem.mp (Array.mem_toList_iff.mp he)
    obtain ⟨chain, hchain, hmem⟩ := listed.onChain i hi
    refine ⟨chain, hchain, List.mem_filterMap.mpr ⟨i, hmem, ?_⟩⟩
    rw [Array.getElem?_eq_getElem hi, heq]

theorem entries_insert {t t' : AccessTable} {key : AccessKey} {datum : AccessDatum}
    (run : t.insert key datum = .ok t') : t' = (t.add key datum).2 := by
  rw [insert] at run
  split at run
  · cases run
  · cases run
    rfl

/-- Inserting entries one after the other keeps them all, in their order. -/
theorem foldlM_insert {entries : List AccessEntry} {t t' : AccessTable} (listed : t.Listed)
    (run : entries.foldlM (fun table e => table.insert e.key e.datum) t = .ok t') :
    t'.Listed ∧ t'.entries.toList = t.entries.toList ++ entries := by
  induction entries generalizing t with
  | nil =>
    rw [List.foldlM_nil] at run
    cases run
    exact ⟨listed, by simp⟩
  | cons e rest ih =>
    rw [List.foldlM_cons, bind_eq_ok] at run
    obtain ⟨mid, first, run⟩ := run
    rw [entries_insert first] at run
    obtain ⟨hlisted, hentries⟩ := ih (listed_add listed e.key e.datum) run
    refine ⟨hlisted, hentries.trans ?_⟩
    simp

/-! ### Each entry once -/

open List in
theorem chainInsert_perm (t : AccessTable) (place : Nat) (kinds : RuleKinds) (handle : Nat)
    (chain : List Nat) : t.chainInsert place kinds handle chain ~ handle :: chain := by
  induction chain with
  | nil => exact Perm.refl _
  | cons i rest ih =>
    rw [chainInsert]
    split
    · split
      · exact Perm.refl _
      · exact (ih.cons i).trans (Perm.swap handle i rest)
    · exact (ih.cons i).trans (Perm.swap handle i rest)

open List in
/-- There is a slot, and the chains together hold every handle once. -/
structure Threaded (t : AccessTable) : Prop where
  slotted : 0 < t.slots.size
  handles : t.slots.toList.flatten ~ range t.entries.size

theorem threaded_withCapacity (rules : Nat) : (withCapacity rules).Threaded where
  slotted := (listed_withCapacity rules).slotted
  handles := by simp [withCapacity]

open List in
theorem Threaded.add {t : AccessTable} (threaded : t.Threaded) (key : AccessKey)
    (datum : AccessDatum) : (t.add key datum).2.Threaded where
  slotted := by
    change 0 < (t.slots.setIfInBounds _ _).size
    rw [Array.size_setIfInBounds]
    exact threaded.slotted
  handles := by
    have inside := slotOf_lt threaded.slotted key
    have old : t.slots.toList[t.slotOf key]? = some (t.chainOf key) := by
      rw [chainOf, Array.getD_eq_getD_getElem?, Array.getElem?_toList,
        Array.getElem?_eq_getElem inside, Option.getD_some]
    have inserted := t.chainInsert_perm key.place key.kinds.plain t.entries.size (t.chainOf key)
    have exchanged := flatten_set_perm old
      (t.chainInsert key.place key.kinds.plain t.entries.size (t.chainOf key))
    change (t.slots.setIfInBounds (t.slotOf key) _).toList.flatten ~ _
    rw [Array.toList_setIfInBounds, entries_add, Array.size_push, range_succ]
    refine (perm_append_right_iff (t.chainOf key)).mp (exchanged.trans ?_)
    calc t.slots.toList.flatten ++ t.chainInsert key.place key.kinds.plain t.entries.size
          (t.chainOf key)
        _ ~ range t.entries.size ++ (t.entries.size :: t.chainOf key) :=
          threaded.handles.append inserted
        _ = range t.entries.size ++ [t.entries.size] ++ t.chainOf key := by simp

/-- A table that comes of its operations. -/
inductive Built : AccessTable → Prop
  | withCapacity (rules : Nat) : Built (.withCapacity rules)
  | add {t : AccessTable} (built : Built t) (key : AccessKey) (datum : AccessDatum) :
      Built (t.add key datum).2
  | insert {t t' : AccessTable} {key : AccessKey} {datum : AccessDatum} (built : Built t)
      (run : t.insert key datum = .ok t') : Built t'
  | modify {t : AccessTable} (built : Built t) (handle : Nat)
      (change : AccessDatum → AccessDatum) : Built (t.modify handle change)

theorem Built.threaded {t : AccessTable} (built : t.Built) : t.Threaded := by
  induction built with
  | withCapacity rules => exact threaded_withCapacity rules
  | add _ key datum ih => exact ih.add key datum
  | insert _ run ih =>
    rw [entries_insert run]
    exact ih.add _ _
  | modify _ handle change ih =>
    refine ⟨ih.slotted, ?_⟩
    rw [AccessTable.modify, Array.size_modify]
    exact ih.handles

theorem filterMap_getElem?_range {α : Type} (l : List α) :
    (List.range l.length).filterMap (fun i => l[i]?) = l := by
  induction l with
  | nil => rfl
  | cons a rest ih =>
    rw [List.length_cons, List.range_succ_eq_map, List.filterMap_cons, List.filterMap_map]
    exact congrArg (a :: ·) ih

open List in
/-- A listing of the table has every entry once. -/
theorem Built.toList_perm {t : AccessTable} (built : t.Built) : t.toList ~ t.entries.toList := by
  have walked : t.toList = t.slots.toList.flatten.filterMap fun i => t.entries.toList[i]? := by
    rw [toList, List.filterMap_flatten, List.flatMap_def]
    simp only [Array.getElem?_toList]
  have inside := built.threaded.handles.filterMap fun i => t.entries.toList[i]?
  rw [← Array.length_toList, filterMap_getElem?_range] at inside
  exact walked ▸ inside

/-- As many entries are listed as were added. -/
theorem Built.length_toList {t : AccessTable} (built : t.Built) : t.toList.length = t.size := by
  rw [built.toList_perm.length_eq, Array.length_toList, AccessTable.size]

end AccessTable

end CilPolicy
