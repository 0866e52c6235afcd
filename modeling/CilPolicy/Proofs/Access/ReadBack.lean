import CilPolicy.Access.Codec
import CilPolicy.Proofs.Access.Search
import CilPolicy.Proofs.Kernel.Reading
import CilPolicy.Proofs.Kernel.Rule

/-!
# Reading a written table

A record of a table that was written is read as the entry that it was written for. The entries are
inserted one after the other, in the order of the chains, and none is refused where none was
refused when the table was made. So a table is read back, entry by entry, unless it has no entries:
the number in front of the records must not be zero, and it has to be the number of the entries,
not what is left of one that is too wide.
-/

namespace CilPolicy

open Bytes ByteReader

/-- The entry has a single kind, is not marked as in force, and its datum is of its kind. -/
structure AccessEntry.Recordable (e : AccessEntry) : Prop where
  kind : e.key.kinds ∈ RuleKinds.recordOrder
  matching : e.Matches

/-- Only one entry may have the key, and both are for it. -/
def AccessEntry.Clashes (e f : AccessEntry) : Prop :=
  e.key = f.key ∧ f.key.isExtended = false

theorem AccessEntry.Clashes.symm {e f : AccessEntry} (clash : e.Clashes f) : f.Clashes e :=
  ⟨clash.1.symm, clash.1 ▸ clash.2⟩

theorem AccessEntry.Recordable.answers_iff {e f : AccessEntry} (he : e.Recordable) (hf : f.Recordable) :
    e.Answers f.key ↔ e.key = f.key := by
  have plain := RuleKinds.plain_of_mem _ hf.kind
  constructor
  · rintro ⟨source, target, cls, overlap⟩
    rw [plain, RuleKinds.overlap_iff hf.kind he.kind] at overlap
    change (⟨e.key.source, e.key.target, e.key.cls, e.key.kinds⟩ : AccessKey) = f.key
    rw [source, target, cls, ← overlap]
  · intro same
    refine ⟨by rw [same], by rw [same], by rw [same], ?_⟩
    rw [plain, RuleKinds.overlap_iff hf.kind he.kind, same]

namespace AccessTable

variable {v : FormatVersion} {t t' : AccessTable} {e : AccessEntry} {bytes : Bytes}

/-! ### Records -/

/-- A record is read as the one entry that it was written for. -/
theorem takes_readTagged (recordable : e.Recordable) (run : e.encode v = .ok bytes) :
    (readTagged v).Takes bytes ⟨[e], none⟩ := by
  obtain ⟨⟨source, target, cls, kinds⟩, datum⟩ := e
  have plain : kinds.plain = kinds := RuleKinds.plain_of_mem _ recordable.kind
  have single := RuleKinds.countP_overlap kinds recordable.kind
  have kinds' : ByteReader.u16.Takes (Bytes.u16 kinds.plain.toNat) kinds.toNat :=
    plain.symm ▸ takes_u16 kinds.isLt
  unfold readTagged
  cases extended : (⟨source, target, cls, kinds⟩ : AccessKey).isExtended with
  | true =>
    obtain ⟨supported, ⟨form, driver, bits⟩, rfl, rfl⟩ :=
      AccessEntry.encode_extended recordable.matching extended run
    obtain ⟨words, taken, whole⟩ := exists_takes_words 8 bits.isLt
    simp only [AccessEntry.front, List.append_assoc]
    refine (takes_u16 source.toNat_lt).bind <| (takes_u16 target.toNat_lt).bind <|
      (takes_u16 cls.toNat_lt).bind <| kinds'.bind ?_
    simp only [UInt16.ofNat_toNat, BitVec.ofNat_toNat, BitVec.setWidth_eq, single, extended, supported,
      Bool.not_true, if_true, ne_eq, not_true_eq_false, if_false]
    refine (takes_u8 form).bind <| (takes_u8 driver).bind ?_
    rw [← List.append_nil (littleEndian _ _)]
    refine taken.bind ?_
    simp only [whole, UInt8.ofNat_toNat, BitVec.ofNat_toNat, BitVec.setWidth_eq]
    exact takes_pure _
  | false =>
    obtain ⟨word, rfl, rfl⟩ := AccessEntry.encode_plain recordable.matching extended run
    simp only [AccessEntry.front, List.append_assoc]
    refine (takes_u16 source.toNat_lt).bind <| (takes_u16 target.toNat_lt).bind <|
      (takes_u16 cls.toNat_lt).bind <| kinds'.bind ?_
    simp only [UInt16.ofNat_toNat, BitVec.ofNat_toNat, BitVec.setWidth_eq, single, extended, ne_eq,
      not_true_eq_false, if_false]
    rw [← List.append_nil (Bytes.u32 _)]
    refine (takes_u32 word.isLt).bind ?_
    simp only [BitVec.ofNat_toNat, BitVec.setWidth_eq]
    exact takes_pure _

/-- Whatever a tagged record is read from, it comes to one entry, whose datum is of its kind; and the
version knows its kind. -/
theorem exists_of_readTagged {input rest : Bytes} {record : RecordRead}
    (run : readTagged v input = .ok record rest) :
    ∃ e, record = ⟨[e], none⟩ ∧ e.Matches ∧
      (e.key.isExtended = true → v.supports .extendedPermissions = true) := by
  unfold readTagged at run
  obtain ⟨source, _, _, run⟩ := bind_ok.mp run
  obtain ⟨target, _, _, run⟩ := bind_ok.mp run
  obtain ⟨cls, _, _, run⟩ := bind_ok.mp run
  obtain ⟨kinds, _, _, run⟩ := bind_ok.mp run
  dsimp only at run
  obtain ⟨_, run⟩ := guard_ok.mp run
  split at run
  · rename_i extended
    obtain ⟨supported, run⟩ := guard_ok.mp run
    obtain ⟨form, _, _, run⟩ := bind_ok.mp run
    obtain ⟨driver, _, _, run⟩ := bind_ok.mp run
    obtain ⟨words, _, _, run⟩ := bind_ok.mp run
    cases run
    refine ⟨_, rfl, ?_, fun _ => by simpa using supported⟩
    rw [AccessEntry.Matches, if_pos extended]
    exact ⟨_, rfl⟩
  · rename_i plain
    obtain ⟨word, _, _, run⟩ := bind_ok.mp run
    cases run
    refine ⟨_, rfl, ?_, fun extended => absurd extended plain⟩
    rw [AccessEntry.Matches, if_neg plain]
    exact ⟨_, rfl⟩

/-! ### Insertions -/

/-- The table with some more entries, inserted one after the other. -/
def insertAll (t : AccessTable) (entries : List AccessEntry) : Except KernelError AccessTable :=
  entries.foldlM (fun t e => t.insert e.key e.datum) t

theorem insertAll_cons {rest : List AccessEntry} : t.insertAll (e :: rest) = .ok t' ↔
    ∃ mid, t.insert e.key e.datum = .ok mid ∧ mid.insertAll rest = .ok t' := by
  rw [insertAll, List.foldlM_cons, bind_eq_ok]
  rfl

theorem insertAll_append {front back : List AccessEntry} : t.insertAll (front ++ back) = .ok t' ↔
    ∃ mid, t.insertAll front = .ok mid ∧ mid.insertAll back = .ok t' := by
  rw [insertAll, List.foldlM_append, bind_eq_ok]
  rfl

/-- The entries of a record are inserted, and no fault was found behind them. -/
theorem addRecord_ok {record : RecordRead} :
    t.addRecord record = .ok t' ↔ record.fault = none ∧ t.insertAll record.entries = .ok t' := by
  obtain ⟨entries, fault⟩ := record
  induction entries generalizing t with
  | nil =>
    cases fault with
    | none => exact ⟨fun run => ⟨rfl, run⟩, And.right⟩
    | some fault => exact iff_of_false nofun (fun run => nomatch run.1)
  | cons e rest ih =>
    have inserted := insert_eq t e.key e.datum
    rw [addRecord, List.foldlM_cons, insertAll, List.foldlM_cons]
    split at inserted
    · rw [inserted]
      exact iff_of_false nofun (fun run => nomatch run.2)
    · rw [inserted]
      exact ih

open List in
theorem Built.perm_insert (built : t.Built) (run : t.insert e.key e.datum = .ok t') :
    t'.toList ~ e :: t.toList := by
  rw [entries_insert run]
  exact built.toList_add e.key e.datum

open List in
theorem Built.insertAll {entries : List AccessEntry} (built : t.Built)
    (run : t.insertAll entries = .ok t') : t'.Built ∧ t'.toList ~ t.toList ++ entries := by
  induction entries generalizing t with
  | nil =>
    cases run
    exact ⟨built, by rw [List.append_nil]⟩
  | cons e rest ih =>
    obtain ⟨mid, first, run⟩ := insertAll_cons.mp run
    obtain ⟨done, listed⟩ := ih (.insert built first) run
    refine ⟨done, listed.trans ?_⟩
    exact ((built.perm_insert first).append_right rest).trans List.perm_middle.symm

/-- An entry is inserted unless it clashes with one that is there. -/
theorem Built.insert_ok_iff (built : t.Built) (recordable : ∀ f ∈ t.toList, f.Recordable)
    (single : e.Recordable) : (∃ t', t.insert e.key e.datum = .ok t') ↔ ∀ f ∈ t.toList, ¬ f.Clashes e := by
  have refuses := built.refuses_iff e.key e.datum
  constructor
  · rintro ⟨t', run⟩ f hf ⟨same, plain⟩
    have refused := refuses.mpr ⟨⟨f, hf, ((recordable f hf).answers_iff single).mpr same⟩, plain⟩
    cases refused.symm.trans run
  · intro none
    rcases built.inserts e.key e.datum with refused | ⟨t', run, _⟩
    · obtain ⟨⟨f, hf, answers⟩, plain⟩ := refuses.mp refused
      exact absurd ⟨((recordable f hf).answers_iff single).mp answers, plain⟩ (none f hf)
    · exact ⟨t', run⟩

/-- Entries are all inserted unless one clashes with another one or with one that is there. -/
theorem Built.insertAll_ok_iff {entries : List AccessEntry} (built : t.Built)
    (recordable : ∀ f ∈ t.toList, f.Recordable) (single : ∀ e ∈ entries, e.Recordable) :
    (∃ t', t.insertAll entries = .ok t') ↔ (∀ e ∈ entries, ∀ f ∈ t.toList, ¬ f.Clashes e) ∧
      entries.Pairwise fun f e => ¬ f.Clashes e := by
  induction entries generalizing t with
  | nil => exact iff_of_true ⟨t, rfl⟩ ⟨nofun, List.Pairwise.nil⟩
  | cons e rest ih =>
    obtain ⟨head, others⟩ := List.forall_mem_cons.mp single
    have first := built.insert_ok_iff recordable head
    have after : ∀ mid, t.insert e.key e.datum = .ok mid → ((∃ t', mid.insertAll rest = .ok t') ↔
        (∀ e' ∈ rest, ¬ e.Clashes e' ∧ ∀ f ∈ t.toList, ¬ f.Clashes e') ∧
          rest.Pairwise fun f e => ¬ f.Clashes e) := by
      intro mid run
      have listed := built.perm_insert run
      have member : ∀ f, f ∈ mid.toList ↔ f = e ∨ f ∈ t.toList := fun f =>
        listed.mem_iff.trans List.mem_cons
      rw [ih (.insert built run) (fun f hf => ?_) others]
      · simp only [member, forall_eq_or_imp]
      · rcases (member f).mp hf with rfl | hf
        · exact head
        · exact recordable f hf
    simp only [insertAll_cons, List.forall_mem_cons, List.pairwise_cons]
    constructor
    · rintro ⟨t', mid, run, run'⟩
      obtain ⟨apart, tail⟩ := (after mid run).mp ⟨t', run'⟩
      exact ⟨⟨first.mp ⟨mid, run⟩, fun e' he' => (apart e' he').2⟩, fun e' he' => (apart e' he').1, tail⟩
    · rintro ⟨⟨free, apart⟩, apart', tail⟩
      obtain ⟨mid, run⟩ := first.mpr free
      obtain ⟨t', run'⟩ := (after mid run).mpr ⟨fun e' he' => ⟨apart' e' he', apart e' he'⟩, tail⟩
      exact ⟨t', mid, run, run'⟩

/-! ### Tables -/

theorem toList_withCapacity (capacity : Nat) : (withCapacity capacity).toList = [] :=
  List.eq_nil_of_length_eq_zero (Built.withCapacity capacity).length_toList

/-- A table is read when its records are and all their entries can be inserted. -/
theorem readRecords_ok {n : Nat} {input rest : Bytes} : readRecords v n t input = .ok t' rest ↔
    ∃ records, replicate (readRecord v) n input = .ok records rest ∧
      (∀ r ∈ records, r.fault = none) ∧ t.insertAll (records.flatMap (·.entries)) = .ok t' := by
  induction n generalizing t input with
  | zero =>
    rw [readRecords, pure_ok, replicate]
    constructor
    · rintro ⟨rfl, rfl⟩
      exact ⟨[], rfl, by simp, rfl⟩
    · rintro ⟨records, read, _, run⟩
      cases read
      cases run
      exact ⟨rfl, rfl⟩
  | succ n ih =>
    simp only [readRecords, replicate, bind_ok, pure_ok]
    constructor
    · rintro ⟨r, left, first, run⟩
      cases added : t.addRecord r with
      | error fault =>
        rw [added] at run
        cases run
      | ok mid =>
        rw [added] at run
        obtain ⟨sound, inserted⟩ := addRecord_ok.mp added
        obtain ⟨records, others, sounds, run⟩ := ih.mp run
        exact ⟨_, ⟨r, left, first, records, rest, others, rfl, rfl⟩, List.forall_mem_cons.mpr ⟨sound, sounds⟩,
          insertAll_append.mpr ⟨mid, inserted, run⟩⟩
    · rintro ⟨_, ⟨r, left, first, records, _, others, rfl, rfl⟩, sounds, run⟩
      obtain ⟨sound, sounds⟩ := List.forall_mem_cons.mp sounds
      obtain ⟨mid, inserted, run⟩ := insertAll_append.mp run
      refine ⟨r, left, first, ?_⟩
      rw [addRecord_ok.mpr ⟨sound, inserted⟩]
      exact ih.mpr ⟨records, others, sounds, run⟩

theorem takes_readRecords (tagged : v.supports .taggedRecords = true) {entries : List AccessEntry}
    {pieces : List Bytes} (recordable : ∀ e ∈ entries, e.Recordable)
    (written : entries.mapM (AccessEntry.encode v) = .ok pieces) (run : t.insertAll entries = .ok t') :
    (readRecords v entries.length t).Takes pieces.flatten t' := by
  have taken : (replicate (readRecord v) entries.length).Takes pieces.flatten
      (entries.map fun e => ⟨[e], none⟩) := by
    refine takes_replicate_mapM written fun e he piece first => ?_
    rw [readRecord, if_pos tagged]
    exact takes_readTagged (recordable e he) first
  refine fun rest => readRecords_ok.mpr ⟨_, taken rest, by simp, ?_⟩
  rw [List.flatMap_map, List.flatMap_singleton']
  exact run

/-- Every record that is read is one entry more. -/
theorem Built.readRecords (tagged : v.supports .taggedRecords = true) {n : Nat} {input rest : Bytes}
    (built : t.Built) (run : readRecords v n t input = .ok t' rest) : t'.Built ∧ t'.size = t.size + n := by
  obtain ⟨records, read, -, inserted⟩ := readRecords_ok.mp run
  obtain ⟨done, listed⟩ := built.insertAll inserted
  rw [readRecord, if_pos tagged] at read
  have single : ∀ r ∈ records, r.entries.length = 1 := forall_of_replicate (fun first => by
    obtain ⟨e, rfl, _⟩ := exists_of_readTagged first
    rfl) read
  have total : (records.flatMap (·.entries)).length = n := by
    rw [List.length_flatMap, List.map_congr_left single, List.map_const', List.sum_replicate_nat,
      length_of_replicate read, Nat.mul_one]
  exact ⟨done, by rw [← done.length_toList, listed.length_eq, List.length_append, built.length_toList, total]⟩

/-- A count of entries and their records are read as the table that the entries come to. -/
theorem takes_read (tagged : v.supports .taggedRecords = true) {entries : List AccessEntry}
    {pieces : List Bytes} (recordable : ∀ e ∈ entries, e.Recordable)
    (written : entries.mapM (AccessEntry.encode v) = .ok pieces) (some : entries.length ≠ 0)
    (fits : entries.length < wordBound) (run : (withCapacity entries.length).insertAll entries = .ok t') :
    (read v).Takes (Bytes.u32 entries.length ++ pieces.flatten) t' := by
  refine (takes_u32 fits).bind ?_
  dsimp only
  rw [if_neg some]
  exact takes_readRecords tagged recordable written run

open List in
/-- A table of single entries is read back where it was written, unless it has no entries, or more
than a word can count. -/
theorem readBack_iff {capacity : Nat} {entries : List AccessEntry}
    (made : (withCapacity capacity).insertAll entries = .ok t) (recordable : ∀ e ∈ entries, e.Recordable)
    (run : t.encode v = .ok bytes) (rest : Bytes) :
    (∃ t', (read v).run? (bytes ++ rest) = .ok (t', rest) ∧ t'.toList ~ t.toList) ↔
      t.size ≠ 0 ∧ t.size < wordBound := by
  obtain ⟨tagged, pieces, written, rfl⟩ := encode_eq_ok run
  obtain ⟨built, listed⟩ := (Built.withCapacity capacity).insertAll made
  have empty := toList_withCapacity
  rw [empty, List.nil_append] at listed
  constructor
  · rintro ⟨t', read, same⟩
    rw [run?_eq_ok, List.append_assoc, AccessTable.read] at read
    obtain ⟨count, left, counted, read⟩ := bind_ok.mp read
    cases counted.symm.trans (takes_number_mod 4 t.size _)
    dsimp only at read
    split at read
    · obtain ⟨_, _, thrown, _⟩ := bind_ok.mp read
      cases thrown
    · rename_i some
      obtain ⟨done, size⟩ := (Built.withCapacity _).readRecords tagged read
      have whole : t.size = t.size % wordBound :=
        calc t.size = t'.size := by rw [← built.length_toList, ← same.length_eq, done.length_toList]
          _ = t.size % wordBound := size.trans (Nat.zero_add _)
      rw [whole]
      exact ⟨some, Nat.mod_lt _ (by decide)⟩
  · rintro ⟨some, fits⟩
    have recordable' : ∀ e ∈ t.toList, e.Recordable := fun e he => recordable e (listed.mem_iff.mp he)
    have apart : t.toList.Pairwise fun f e => ¬ f.Clashes e := by
      have inserted := (Built.withCapacity capacity).insertAll_ok_iff (empty capacity ▸ nofun) recordable
      exact (listed.pairwise_iff fun none clash => none clash.symm).mpr (inserted.mp ⟨t, made⟩).2
    have inserted := (Built.withCapacity t.size).insertAll_ok_iff (empty t.size ▸ nofun) recordable'
    obtain ⟨t', made'⟩ := inserted.mpr ⟨fun e _ => empty t.size ▸ nofun, apart⟩
    refine ⟨t', run?_eq_ok.mpr ?_, ?_⟩
    · rw [← built.length_toList] at made' some fits ⊢
      exact takes_read tagged recordable' written some fits made' rest
    · have listed' := ((Built.withCapacity t.size).insertAll made').2
      rwa [empty, List.nil_append] at listed'

end AccessTable

end CilPolicy
