import CilPolicy.Proofs.Access.ReadBack
import CilPolicy.Proofs.Kernel.Writable

/-!
# Round trips of tables

A table is listed slot by slot, and a slot along its chain. A search finds the first entry of the
listing that answers the key, and an entry that is inserted comes behind all entries of its place, if
it is not extended. So the entries of one place that are not extended are listed as they were
inserted, whatever the number of slots. What is read back from a written table is inserted in the
order of its listing: it has the entries of the table without their marks, and a search for a key that
is not extended finds there what it found before.
-/

namespace CilPolicy

open Bytes ByteReader

namespace AccessTable

variable {v : FormatVersion} {t t' : AccessTable} {e : AccessEntry} {key : AccessKey}

/-! ### Listings -/

/-- The slot of a key parts the listing: no other slot has an entry of its place. -/
theorem Chained.exists_slots (chained : t.Chained) (key : AccessKey) (chain : List Nat) :
    ∃ front back : List (List Nat), t.slots.toList = front ++ t.chainOf key :: back ∧
      (t.slots.setIfInBounds (t.slotOf key) chain).toList = front ++ chain :: back ∧
      ∀ other ∈ front ++ back, ∀ i ∈ other, ∃ f, t.entry? i = some f ∧ f.key.place ≠ key.place := by
  have inside : t.slotOf key < t.slots.toList.length := by
    rw [Array.length_toList]
    exact slotOf_lt chained.slotted key
  obtain ⟨front, back, whole, length, changed⟩ := @List.exists_of_set _ _ chain _ inside
  have here : t.slots.toList[t.slotOf key] = t.chainOf key := by
    have listed := slots_slotOf chained.slotted key
    rw [← Array.getElem?_toList, List.getElem?_eq_getElem inside] at listed
    exact Option.some.inj listed
  rw [here] at whole
  refine ⟨front, back, whole, by rw [Array.toList_setIfInBounds]; exact changed, ?_⟩
  intro other member i hi
  -- The other chain stands at another slot, and an entry of the place would be in the slot of the key.
  obtain ⟨j, hj, apart⟩ : ∃ j, t.slots[j]? = some other ∧ j ≠ t.slotOf key := by
    rcases List.mem_append.mp member with before | behind
    · obtain ⟨j, hj, rfl⟩ := List.getElem_of_mem before
      refine ⟨j, ?_, by omega⟩
      rw [← Array.getElem?_toList, whole, List.getElem?_append_left hj, List.getElem?_eq_getElem hj]
    · obtain ⟨j, hj, rfl⟩ := List.getElem_of_mem behind
      refine ⟨front.length + (j + 1), ?_, by omega⟩
      rw [← Array.getElem?_toList, whole, List.getElem?_append_right (by omega), Nat.add_sub_cancel_left,
        List.getElem?_cons_succ, List.getElem?_eq_getElem hj]
  obtain ⟨f, hf, slot⟩ := (chained.own j other hj i).mp hi
  exact ⟨f, hf, fun same => apart (slot ▸ slotOf_congr same)⟩

/-- A search finds the first entry of the listing that answers the key. -/
theorem Chained.found_eq (chained : t.Chained) (key : AccessKey) :
    (t.find? key).bind t.entry? = t.toList.find? (hits key.place key.kinds.plain) := by
  obtain ⟨front, back, whole, _, apart⟩ := chained.exists_slots key []
  have misses : ∀ part : List (List Nat), (∀ other ∈ part, other ∈ front ++ back) →
      (part.flatMap fun other => other.filterMap t.entry?).find? (hits key.place key.kinds.plain) = none := by
    intro part inside
    rw [List.find?_eq_none]
    intro f hf hit
    obtain ⟨other, hother, hf⟩ := List.mem_flatMap.mp hf
    obtain ⟨i, hi, known⟩ := List.mem_filterMap.mp hf
    obtain ⟨g, hg, differ⟩ := apart other (inside other hother) i hi
    cases known.symm.trans hg
    rw [hits, Bool.and_eq_true, beq_iff_eq] at hit
    exact differ hit.1
  have listed : t.toList = t.slots.toList.flatMap fun other => other.filterMap t.entry? := rfl
  rw [chained.find?_eq, listed, whole, List.flatMap_append, List.flatMap_cons, List.find?_append,
    List.find?_append, misses front fun _ h => List.mem_append_left back h,
    misses back fun _ h => List.mem_append_right front h, List.find?_filterMap, Option.none_or,
    Option.or_none]
  rfl

theorem Chained.datum?_eq (chained : t.Chained) (key : AccessKey) :
    t.datum? key = (t.toList.find? (hits key.place key.kinds.plain)).map (·.datum) := by
  rw [← chained.found_eq, datum?]
  cases t.find? key with
  | none => rfl
  | some i =>
    change (t.entry? i >>= fun f => some f.datum) = (t.entry? i).map (·.datum)
    cases t.entry? i <;> rfl

/-- A handle is put somewhere into a chain: before the first entry that lies beyond the place, when
nothing hits. -/
theorem exists_chainInsert (place handle : Nat) (kinds : RuleKinds) {chain : List Nat}
    (known : ∀ i ∈ chain, ∃ f, t.entry? i = some f) (ordered : chain.Pairwise t.Precedes) :
    ∃ front back, chain = front ++ back ∧
      t.chainInsert place kinds handle chain = front ++ handle :: back ∧
      ((∀ i ∈ chain, t.hitsAt place kinds i = false) →
        ∀ i ∈ back, ∀ f, t.entry? i = some f → f.key.place ≠ place) := by
  induction chain with
  | nil => exact ⟨[], [], rfl, rfl, by simp⟩
  | cons i rest ih =>
    obtain ⟨first, others⟩ := List.pairwise_cons.mp ordered
    obtain ⟨⟨e, he⟩, knownRest⟩ := List.forall_mem_cons.mp known
    have entry : t.entries[i]? = some e := he
    rw [chainInsert, entry]
    by_cases ends : stops place kinds e = true
    · refine ⟨[], i :: rest, rfl, if_pos ends, fun fresh j hj f hf => ?_⟩
      have miss := fresh i List.mem_cons_self
      rw [hitsAt, he, Option.any_some] at miss
      have beyond : place < e.key.place := by simpa [stops, miss] using ends
      rcases List.mem_cons.mp hj with rfl | later
      · cases he.symm.trans hf
        omega
      · have above := AccessKey.upto_iff.mp (first j later e f he hf)
        omega
    · obtain ⟨front, back, whole, inserted, behind⟩ := ih knownRest others
      refine ⟨i :: front, back, by rw [whole, List.cons_append], ?_, fun fresh => ?_⟩
      · exact (if_neg ends).trans (by rw [inserted, List.cons_append])
      · exact behind fun j hj => fresh j (List.mem_cons_of_mem i hj)

/-- A new entry comes somewhere into the listing, and behind all entries of its place when none of
them answers its key. -/
theorem Built.exists_listing (built : t.Built) (key : AccessKey) (datum : AccessDatum) :
    ∃ front back, t.toList = front ++ back ∧ (t.add key datum).2.toList = front ++ ⟨key, datum⟩ :: back ∧
      ((∀ f ∈ t.toList, ¬ f.Answers key) → ∀ f ∈ back, f.key.place ≠ key.place) := by
  have chained := built.chained
  have here := chained.known key
  have ordered := chained.ordered _ _ (slots_slotOf chained.slotted key)
  obtain ⟨front, back, split, inserted, behind⟩ := exists_chainInsert key.place t.entries.size
    key.kinds.plain (fun i hi => (here i hi).imp fun _ h => h.1) ordered
  obtain ⟨ahead, after, slots, changed, apart⟩ := chained.exists_slots key
    (front ++ t.entries.size :: back)
  -- The handles of the table denote what they denoted.
  have old : ∀ handles : List Nat, (∀ i ∈ handles, ∃ f, t.entry? i = some f) →
      handles.filterMap (AccessTable.entry? (t.add key datum).2) = handles.filterMap t.entry? := by
    intro handles known
    refine List.filterMap_congr fun i hi => ?_
    obtain ⟨f, hf⟩ := known i hi
    rw [entry?_add, if_neg (Nat.ne_of_lt (lt_size_of_known hf))]
  have olds : ∀ chains : List (List Nat), (∀ chain ∈ chains, chain ∈ ahead ++ after) →
      chains.flatMap (·.filterMap (AccessTable.entry? (t.add key datum).2)) =
        chains.flatMap (·.filterMap t.entry?) := by
    intro chains inside
    rw [List.flatMap_def, List.flatMap_def]
    congr 1
    refine List.map_congr_left fun chain hchain => old chain fun i hi => ?_
    exact (apart chain (inside chain hchain) i hi).imp fun _ h => h.1
  have listed : t.toList = t.slots.toList.flatMap (·.filterMap t.entry?) := rfl
  have listed' : (t.add key datum).2.toList =
      (t.slots.setIfInBounds (t.slotOf key) (t.chainInsert key.place key.kinds.plain t.entries.size
        (t.chainOf key))).toList.flatMap (·.filterMap (AccessTable.entry? (t.add key datum).2)) := rfl
  have new : AccessTable.entry? (t.add key datum).2 t.entries.size = some ⟨key, datum⟩ := by
    rw [entry?_add, if_pos rfl]
  refine ⟨ahead.flatMap (·.filterMap t.entry?) ++ front.filterMap t.entry?,
    back.filterMap t.entry? ++ after.flatMap (·.filterMap t.entry?), ?_, ?_, ?_⟩
  · rw [listed, slots, split]
    simp only [List.flatMap_append, List.flatMap_cons, List.filterMap_append, List.append_assoc]
  · rw [listed', inserted, changed]
    simp only [List.flatMap_append, List.flatMap_cons, List.filterMap_append, List.filterMap_cons, new]
    rw [olds ahead fun _ h => List.mem_append_left after h, olds after fun _ h => List.mem_append_right ahead h,
      old front fun i hi => (here i (split ▸ List.mem_append_left back hi)).imp fun _ h => h.1,
      old back fun i hi => (here i (split ▸ List.mem_append_right front hi)).imp fun _ h => h.1]
    simp only [List.append_assoc, List.cons_append]
  · intro fresh f hf
    rcases List.mem_append.mp hf with hf | hf
    · obtain ⟨i, hi, known⟩ := List.mem_filterMap.mp hf
      refine behind (fun j hj => ?_) i hi f known
      obtain ⟨g, hg, _⟩ := here j hj
      rw [hitsAt, hg, Option.any_some, ← Bool.not_eq_true, hits_iff]
      exact fresh g (built.mem_toList.mpr ⟨j, hg⟩)
    · obtain ⟨chain, hchain, hf⟩ := List.mem_flatMap.mp hf
      obtain ⟨i, hi, known⟩ := List.mem_filterMap.mp hf
      obtain ⟨g, hg, differ⟩ := apart chain (List.mem_append_right ahead hchain) i hi
      cases known.symm.trans hg
      exact differ

/-- The entry is at the place and not extended. -/
def plainAt (place : Nat) (e : AccessEntry) : Bool :=
  e.key.place == place && !e.key.isExtended

theorem Built.filter_insert (built : t.Built) (run : t.insert e.key e.datum = .ok t') (place : Nat) :
    t'.toList.filter (plainAt place) = t.toList.filter (plainAt place) ++ [e].filter (plainAt place) := by
  obtain ⟨front, back, whole, inserted, behind⟩ := built.exists_listing e.key e.datum
  rw [entries_insert run, whole, inserted, List.filter_append, List.filter_append, List.append_assoc]
  by_cases plain : plainAt place e = true
  · have here : e.key.place = place ∧ e.key.isExtended = false := by simpa [plainAt] using plain
    have fresh : ∀ f ∈ t.toList, ¬ f.Answers e.key := by
      intro f hf answers
      have refused := (built.refuses_iff e.key e.datum).mpr ⟨⟨f, hf, answers⟩, here.2⟩
      cases refused.symm.trans run
    have none : back.filter (plainAt place) = [] := by
      refine List.filter_eq_nil_iff.mpr fun f hf => ?_
      have apart := behind fresh f hf
      rw [here.1] at apart
      simp [plainAt, apart]
    rw [List.filter_cons_of_pos plain, List.filter_cons_of_pos plain, none, List.nil_append, List.filter_nil]
  · rw [List.filter_cons_of_neg plain, List.filter_cons_of_neg plain, List.filter_nil, List.append_nil]

/-- The entries of a place that are not extended are listed in the order of their insertion. -/
theorem Built.filter_insertAll {entries : List AccessEntry} (built : t.Built)
    (run : t.insertAll entries = .ok t') (place : Nat) :
    t'.toList.filter (plainAt place) = t.toList.filter (plainAt place) ++ entries.filter (plainAt place) := by
  induction entries generalizing t with
  | nil =>
    cases run
    exact (List.append_nil _).symm
  | cons e rest ih =>
    obtain ⟨mid, first, run⟩ := insertAll_cons.mp run
    rw [ih (.insert built first) run, built.filter_insert first, List.append_assoc, ← List.filter_append]
    rfl

/-! ### Insertions, some of them refused -/

/-- The change that inserts the entry. -/
def Change.insertion (e : AccessEntry) : Change :=
  .insert e.key e.datum

/-- The insertions that are not refused make the same table. -/
theorem exists_insertAll (t : AccessTable) (given : List AccessEntry) :
    ∃ kept, t.insertAll kept = .ok (t.after (given.map Change.insertion)) := by
  induction given generalizing t with
  | nil => exact ⟨[], rfl⟩
  | cons e rest ih =>
    obtain ⟨kept, run⟩ := ih ((Change.insertion e).apply t)
    cases first : t.insert e.key e.datum with
    | error fault =>
      have same : (Change.insertion e).apply t = t := by
        rw [Change.insertion, Change.apply, first]
        rfl
      rw [same] at run
      refine ⟨kept, ?_⟩
      rw [List.map_cons, AccessTable.after, List.foldl_cons, same]
      exact run
    | ok mid =>
      have same : (Change.insertion e).apply t = mid := by
        rw [Change.insertion, Change.apply, first]
        rfl
      rw [same] at run
      refine ⟨e :: kept, insertAll_cons.mpr ⟨mid, first, ?_⟩⟩
      rw [List.map_cons, AccessTable.after, List.foldl_cons, same]
      exact run

/-- An entry that is inserted and not extended has its key to itself. -/
theorem Built.apart_of_insertAll {entries : List AccessEntry} (built : t.Built)
    (run : t.insertAll entries = .ok t') :
    (∀ e ∈ entries, e.key.isExtended = false → ∀ f ∈ t.toList, ¬ f.Answers e.key) ∧
      entries.Pairwise fun f e => e.key.isExtended = false → ¬ f.Answers e.key := by
  induction entries generalizing t with
  | nil => exact ⟨by simp, .nil⟩
  | cons e rest ih =>
    obtain ⟨mid, first, run⟩ := insertAll_cons.mp run
    obtain ⟨fresh, apart⟩ := ih (.insert built first) run
    have listed := built.perm_insert first
    refine ⟨fun g hg plain f hf answers => ?_, List.pairwise_cons.mpr ⟨fun g hg plain => ?_, apart⟩⟩
    · rcases List.mem_cons.mp hg with rfl | later
      · have refused := (built.refuses_iff g.key g.datum).mpr ⟨⟨f, hf, answers⟩, plain⟩
        cases refused.symm.trans first
      · exact fresh g later plain f (listed.mem_iff.mpr (List.mem_cons_of_mem e hf)) answers
    · exact fresh g hg plain e (listed.mem_iff.mpr List.mem_cons_self)

end AccessTable

/-! ### Marks -/

namespace RuleKinds

theorem plain_plain (k : RuleKinds) : k.plain.plain = k.plain := by
  rw [plain, plain, BitVec.and_assoc, BitVec.and_self]

/-- The mark is left out of account on one side, so it does not count on the other. -/
theorem overlap_plain (a b : RuleKinds) : a.plain.overlap b.plain = a.plain.overlap b := by
  have masked : a &&& ~~~enabled &&& (b &&& ~~~enabled) = a &&& ~~~enabled &&& b := by
    rw [BitVec.and_comm b, ← BitVec.and_assoc, BitVec.and_assoc a, BitVec.and_self]
  simp only [overlap, plain, masked]

/-- An extended kind is in no others than the extended ones. -/
theorem and_extended : ∀ k ∈ recordOrder, k.overlap extended = true → extended &&& k = k := by
  simp only [recordOrder, List.mem_cons, List.not_mem_nil, or_false]
  rintro _ (rfl | rfl | rfl | rfl | rfl | rfl | rfl | rfl | rfl) <;> decide

end RuleKinds

namespace AccessEntry

theorem encode_record (v : FormatVersion) (e : AccessEntry) : e.record.encode v = e.encode v := by
  have extended := e.isExtended_record
  have kinds : e.record.key.kinds.plain = e.key.kinds.plain := RuleKinds.plain_plain e.key.kinds
  rw [encode, encode, extended, kinds]
  rfl

theorem mapM_encode_record (v : FormatVersion) (entries : List AccessEntry) :
    (entries.map record).mapM (encode v) = entries.mapM (encode v) := by
  rw [List.mapM_map]
  exact congrArg (fun write => entries.mapM write) (funext (encode_record v))

theorem answers_record {e f : AccessEntry} : e.record.Answers f.record.key ↔ e.Answers f.key := by
  have kinds : f.record.key.kinds.plain.overlap e.record.key.kinds = f.key.kinds.plain.overlap e.key.kinds := by
    change f.key.kinds.plain.plain.overlap e.key.kinds.plain = _
    rw [RuleKinds.plain_plain, RuleKinds.overlap_plain]
  constructor
  · rintro ⟨source, target, cls, overlap⟩
    exact ⟨source, target, cls, kinds ▸ overlap⟩
  · rintro ⟨source, target, cls, overlap⟩
    exact ⟨source, target, cls, kinds ▸ overlap⟩

end AccessEntry

namespace AccessTable

variable {v : FormatVersion} {t t' : AccessTable} {e : AccessEntry} {key : AccessKey}

theorem hits_record (place : Nat) (kinds : RuleKinds) (e : AccessEntry) :
    hits place kinds.plain e.record = hits place kinds.plain e := by
  have overlap : kinds.plain.overlap e.record.key.kinds = kinds.plain.overlap e.key.kinds :=
    RuleKinds.overlap_plain kinds e.key.kinds
  rw [hits, hits, overlap]
  rfl

theorem plainAt_record (place : Nat) (e : AccessEntry) : plainAt place e.record = plainAt place e := by
  rw [plainAt, plainAt, e.isExtended_record]
  rfl

/-- What answers a key that is not extended is not extended. -/
theorem plainAt_of_hits (single : e.record.key.kinds ∈ RuleKinds.recordOrder) (plain : key.isExtended = false)
    (hit : hits key.place key.kinds.plain e = true) : plainAt key.place e = true := by
  have here : e.key.place = key.place ∧ key.kinds.plain.overlap e.record.key.kinds = true := by
    rw [← hits_record, hits, Bool.and_eq_true, beq_iff_eq] at hit
    exact hit
  rw [plainAt, ← e.isExtended_record]
  cases extended : e.record.key.isExtended with
  | false => simpa using here.1
  | true =>
    -- The kind would be among the extended ones, and the key has none of them.
    have inside := RuleKinds.and_extended _ single extended
    have none : key.kinds.plain &&& RuleKinds.extended = 0 := by
      have masked := key.overlap_extended_plain
      rw [plain] at masked
      simpa [RuleKinds.overlap] using masked
    have apart : key.kinds.plain.overlap e.record.key.kinds = false := by
      rw [RuleKinds.overlap, ← inside, ← BitVec.and_assoc, none]
      simp
    rw [apart] at here
    exact absurd here.2 Bool.false_ne_true

theorem find?_filter_of_imp {α : Type} {l : List α} {p q : α → Bool}
    (so : ∀ a ∈ l, p a = true → q a = true) : (l.filter q).find? p = l.find? p := by
  induction l with
  | nil => rfl
  | cons a rest ih =>
    have tail := ih fun b hb => so b (List.mem_cons_of_mem a hb)
    by_cases kept : q a = true
    · rw [List.filter_cons_of_pos kept, List.find?_cons, List.find?_cons, tail]
    · have missed : ¬ p a = true := fun hit => kept (so a List.mem_cons_self hit)
      rw [List.filter_cons_of_neg kept, List.find?_cons_of_neg missed, tail]

/-- What is found for a key that is not extended depends on the entries of its place that are not
extended, in their order, and not on their marks. -/
theorem datum?_eq_of_filter (built : t.Built) (built' : t'.Built)
    (single : ∀ e ∈ t.toList, e.record.key.kinds ∈ RuleKinds.recordOrder)
    (single' : ∀ e ∈ t'.toList, e.record.key.kinds ∈ RuleKinds.recordOrder)
    (plain : key.isExtended = false)
    (same : t'.toList.filter (plainAt key.place) =
      (t.toList.filter (plainAt key.place)).map AccessEntry.record) : t'.datum? key = t.datum? key := by
  have unmarked : hits key.place key.kinds.plain ∘ AccessEntry.record = hits key.place key.kinds.plain := by
    ext e
    rw [Function.comp_apply, hits_record]
  have data : AccessEntry.datum ∘ AccessEntry.record = AccessEntry.datum := rfl
  rw [built.chained.datum?_eq, built'.chained.datum?_eq,
    ← find?_filter_of_imp fun e he => plainAt_of_hits (single e he) plain,
    ← find?_filter_of_imp fun e he => plainAt_of_hits (single' e he) plain, same, List.find?_map, unmarked,
    Option.map_map, data]

/-- The entries of a table that insertions made can be inserted again, without their marks. -/
theorem exists_insertAll_records {capacity : Nat} {kept : List AccessEntry}
    (run : (withCapacity capacity).insertAll kept = .ok t) (single : ∀ e ∈ t.toList, e.record.Recordable)
    (capacity' : Nat) : ∃ t', (withCapacity capacity').insertAll (t.toList.map AccessEntry.record) = .ok t' := by
  have listed := ((Built.withCapacity capacity).insertAll run).2
  have inserted := ((Built.withCapacity capacity).apart_of_insertAll run).2
  rw [toList_withCapacity, List.nil_append] at listed
  have recordable : ∀ e ∈ t.toList.map AccessEntry.record, e.Recordable := by
    intro e he
    obtain ⟨f, hf, rfl⟩ := List.mem_map.mp he
    exact single f hf
  have apart : (t.toList.map AccessEntry.record).Pairwise fun f e => ¬ f.Clashes e := by
    rw [List.pairwise_map, listed.pairwise_iff fun none clash => none clash.symm]
    refine inserted.imp_of_mem fun {f e} hf he apart clash => ?_
    have marked := (single f (listed.mem_iff.mpr hf)).answers_iff (single e (listed.mem_iff.mpr he))
    exact apart (e.isExtended_record ▸ clash.2) (AccessEntry.answers_record.mp (marked.mpr clash.1))
  have free := (Built.withCapacity capacity').insertAll_ok_iff (toList_withCapacity capacity' ▸ nofun) recordable
  exact free.mpr ⟨fun e _ => toList_withCapacity capacity' ▸ nofun, apart⟩

open List in
/-- A table that insertions made, of entries of single kinds, is written at every version that has
records of these kinds. Whatever follows it, it is read back with the same entries, without their
marks, and what is found for a key that is not extended is the same. There have to be fewer than 2^32
entries, since their number stands in front of them as a word. -/
theorem read_encode_inserted {capacity : Nat} {given : List AccessEntry}
    (made : (withCapacity capacity).after (given.map Change.insertion) = t) (inhabited : t.toList ≠ [])
    (counted : t.size < wordBound) (single : ∀ e ∈ t.toList, e.record.Recordable) (tagged : 20 ≤ v.number)
    (carried : (∃ e ∈ t.toList, e.key.isExtended = true) → 30 ≤ v.number) :
    ∃ bytes t', t.encode v = .ok bytes ∧
      (∀ suffix, (read v).run? (bytes ++ suffix) = .ok (t', suffix)) ∧
      t'.toList ~ t.toList.map AccessEntry.record ∧
      ∀ key, key.isExtended = false → t'.datum? key = t.datum? key := by
  have supported : v.supports .taggedRecords = true := decide_eq_true tagged
  obtain ⟨kept, run⟩ := exists_insertAll (withCapacity capacity) given
  rw [made] at run
  have built := ((Built.withCapacity capacity).insertAll run).1
  obtain ⟨t', run'⟩ := exists_insertAll_records run single t.toList.length
  obtain ⟨built', listed⟩ := (Built.withCapacity t.toList.length).insertAll run'
  rw [toList_withCapacity, List.nil_append] at listed
  have writable : ∀ e ∈ t.toList, e.Writable v := by
    intro e he extended
    have matching := (single e he).matching
    rw [AccessEntry.Matches, if_pos (e.isExtended_record.trans extended)] at matching
    obtain ⟨x, datum⟩ := matching
    exact ⟨decide_eq_true (carried ⟨e, he, extended⟩), x, congrArg AccessDatum.extended datum⟩
  obtain ⟨bytes, written⟩ := AccessTable.encode_ok supported writable
  obtain ⟨_, pieces, records, rfl⟩ := encode_eq_ok written
  refine ⟨_, t', written, fun suffix => ?_, listed, fun key plain => ?_⟩
  · have length : (t.toList.map AccessEntry.record).length = t.size := by
      rw [List.length_map, built.length_toList]
    rw [built.length_toList, ← length] at run'
    rw [← AccessEntry.mapM_encode_record] at records
    have taken := takes_read supported (List.forall_mem_map.mpr single) records (by simpa using inhabited)
      (length ▸ counted) run'
    rw [length] at taken
    exact run?_eq_ok.mpr (taken suffix)
  · have single' : ∀ e ∈ t.toList, e.record.key.kinds ∈ RuleKinds.recordOrder := fun e he => (single e he).kind
    refine datum?_eq_of_filter built built' single' (fun e he => ?_) plain ?_
    · obtain ⟨f, hf, rfl⟩ := List.mem_map.mp (listed.mem_iff.mp he)
      have same : f.record.record.key.kinds = f.record.key.kinds := RuleKinds.plain_plain f.key.kinds
      exact same ▸ single' f hf
    · have unmarked : plainAt key.place ∘ AccessEntry.record = plainAt key.place := by
        ext e
        rw [Function.comp_apply, plainAt_record]
      rw [(Built.withCapacity _).filter_insertAll run', toList_withCapacity, List.filter_nil, List.nil_append,
        List.filter_map, unmarked]

/-- A rule in force, two sets of extended permissions under one key, and a rule that is refused. -/
def repeatedEntries : List AccessEntry :=
  [⟨⟨1, 2, 3, RuleKinds.allowed ||| RuleKinds.enabled⟩, .ofWord 5⟩,
    ⟨⟨1, 2, 3, RuleKinds.extendedAllowed⟩, .ofExtended ⟨1, 0x89, 0x10000⟩⟩,
    ⟨⟨1, 2, 3, RuleKinds.extendedAllowed⟩, .ofExtended ⟨1, 0x90, 0x3⟩⟩,
    ⟨⟨1, 2, 3, RuleKinds.allowed⟩, .ofWord 7⟩]

def repeatedTable : AccessTable :=
  (withCapacity 4).after (repeatedEntries.map Change.insertion)

/-- The second set stands in front of the first, and the last rule is left out. -/
theorem toList_repeatedTable : repeatedTable.toList =
    [⟨⟨1, 2, 3, RuleKinds.allowed ||| RuleKinds.enabled⟩, .ofWord 5⟩,
      ⟨⟨1, 2, 3, RuleKinds.extendedAllowed⟩, .ofExtended ⟨1, 0x90, 0x3⟩⟩,
      ⟨⟨1, 2, 3, RuleKinds.extendedAllowed⟩, .ofExtended ⟨1, 0x89, 0x10000⟩⟩] := by
  decide +kernel

open List in
theorem read_encode_repeated : repeatedTable.toList ≠ [] ∧ repeatedTable.size < wordBound ∧
    (∀ e ∈ repeatedTable.toList, e.record.Recordable) ∧
    ∃ bytes t', repeatedTable.encode ⟨30⟩ = .ok bytes ∧
      (∀ suffix, (read ⟨30⟩).run? (bytes ++ suffix) = .ok (t', suffix)) ∧
      t'.toList ~ repeatedTable.toList.map AccessEntry.record ∧
      ∀ key, key.isExtended = false → t'.datum? key = repeatedTable.datum? key := by
  have inhabited : repeatedTable.toList ≠ [] := by
    rw [toList_repeatedTable]
    exact List.cons_ne_nil _ _
  have counted : repeatedTable.size < wordBound := by decide +kernel
  have single : ∀ e ∈ repeatedTable.toList, e.record.Recordable := by
    rw [toList_repeatedTable]
    simp only [List.forall_mem_cons, List.not_mem_nil, false_imp_iff, implies_true, and_true]
    refine ⟨⟨by decide, ?_⟩, ⟨by decide, ?_⟩, ⟨by decide, ?_⟩⟩
    · exact ⟨5, rfl⟩
    · exact ⟨_, rfl⟩
    · exact ⟨_, rfl⟩
  have carried : (∃ e ∈ repeatedTable.toList, e.key.isExtended = true) → 30 ≤ FormatVersion.number ⟨30⟩ :=
    fun _ => by decide
  exact ⟨inhabited, counted, single, read_encode_inserted rfl inhabited counted single (by decide) carried⟩

end AccessTable

end CilPolicy
