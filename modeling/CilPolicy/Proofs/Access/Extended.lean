import CilPolicy.Proofs.Access.RoundTrip

/-!
# Extended permissions in a table that is read

The kinds of a tagged record say whether a set of extended permissions follows, and the version has to
know these kinds. A record of words has a word for each kind of its mask, also for an extended one,
and belongs to versions that have no extended permissions; nothing refuses it for that. So a table
that is read holds sets of extended permissions just under extended keys, unless the mask of a record
of words names an extended kind, and then no version can hold the table again.
-/

namespace CilPolicy

open ByteReader

/-! ### Kinds and marks -/

namespace RuleKinds

theorem overlap_extended_iff {mask : RuleKinds} : mask.overlap extended = true ↔
    ∃ kind ∈ recordOrder, mask.overlap kind = true ∧ kind.overlap extended = true := by
  have parts : extended = extendedAllowed ||| (extendedAuditAllow ||| extendedDontAudit) := by decide
  have split : mask &&& extended = mask &&& extendedAllowed ||| (mask &&& extendedAuditAllow |||
      mask &&& extendedDontAudit) := by
    rw [parts, BitVec.and_or_distrib_left, BitVec.and_or_distrib_left]
  constructor
  · intro shared
    by_contra none
    have apart : ∀ kind ∈ recordOrder, kind.overlap extended = true → mask &&& kind = 0 := by
      intro kind member ext
      by_contra shared
      exact none ⟨kind, member, bne_iff_ne.mpr shared, ext⟩
    have zero : mask &&& extended = 0 := by
      rw [split, apart extendedAllowed (by decide) (by decide), apart extendedAuditAllow (by decide) (by decide),
        apart extendedDontAudit (by decide) (by decide)]
      decide
    exact bne_iff_ne.mp shared zero
  · rintro ⟨kind, member, shared, ext⟩
    refine bne_iff_ne.mpr fun zero => bne_iff_ne.mp shared ?_
    rw [← and_extended kind member ext, ← BitVec.and_assoc, zero]
    simp

/-- The mark of a rule in force makes no kind extended. -/
theorem overlap_extended_marked {mark : RuleKinds} (marked : mark = enabled ∨ mark = 0) :
    ∀ kind ∈ recordOrder, (kind ||| mark).overlap extended = kind.overlap extended := by
  simp only [recordOrder, List.mem_cons, List.not_mem_nil, or_false]
  rintro _ (rfl | rfl | rfl | rfl | rfl | rfl | rfl | rfl | rfl) <;> rcases marked with rfl | rfl <;> rfl

end RuleKinds

namespace AccessTable

variable {v : FormatVersion} {t t' : AccessTable} {input rest : Bytes}

/-! ### Records of words -/

/-- The words of a record, which are counted in front of them. -/
def wordRecord : ByteReader (List Nat) := do
  let count ← ByteReader.u32
  ByteReader.replicate ByteReader.u32 count

/-- The mask of a record of words is the lower half of its fourth word. -/
def maskOf (words : List Nat) : RuleKinds :=
  BitVec.ofNat 16 (words.getD 3 0)

/-- Each kind of the mask gets an entry, and none of them a set of extended permissions. -/
theorem assign_entries {key : AccessKey} {mask : RuleKinds} {count : Nat} {kinds : List RuleKinds}
    {words : List Nat} (sound : (assign key mask count kinds words).fault = none) :
    (assign key mask count kinds words).entries.map (·.key) =
        (kinds.filter mask.overlap).map (fun kind => { key with kinds := kind ||| key.kinds }) ∧
      ∀ e ∈ (assign key mask count kinds words).entries, e.datum.extended = none := by
  induction kinds generalizing words with
  | nil =>
    cases words with
    | nil => exact ⟨rfl, by simp [assign]⟩
    | cons w rest => cases sound
  | cons kind kinds ih =>
    by_cases named : mask.overlap kind = true
    · cases words with
      | nil => simp [assign, named] at sound
      | cons w rest =>
        simp only [assign, named, if_true] at sound ⊢
        obtain ⟨keys, data⟩ := ih sound
        refine ⟨?_, List.forall_mem_cons.mpr ⟨rfl, data⟩⟩
        rw [List.map_cons, keys, List.filter_cons_of_pos named, List.map_cons]
    · have skip : assign key mask count (kind :: kinds) words = assign key mask count kinds words := by
        cases words <;> simp [assign, named]
      rw [skip] at sound ⊢
      rw [List.filter_cons_of_neg named]
      exact ih sound

/-- The entries that the kinds of a mask get are extended just when the mask names an extended kind. -/
theorem exists_extended_iff {entries : List AccessEntry} (key : AccessKey) {mask : RuleKinds}
    (marked : key.kinds = RuleKinds.enabled ∨ key.kinds = 0)
    (keys : entries.map (·.key) = (RuleKinds.recordOrder.filter mask.overlap).map
      fun kind => { key with kinds := kind ||| key.kinds }) :
    (∃ e ∈ entries, e.key.isExtended = true) ↔ mask.overlap RuleKinds.extended = true := by
  have byKey : (∃ e ∈ entries, e.key.isExtended = true) ↔
      ∃ k ∈ entries.map (·.key), AccessKey.isExtended k = true := by
    simp only [List.mem_map, exists_exists_and_eq_and]
  rw [byKey, keys, RuleKinds.overlap_extended_iff]
  constructor
  · rintro ⟨_, hk, extended⟩
    obtain ⟨kind, hkind, rfl⟩ := List.mem_map.mp hk
    obtain ⟨member, named⟩ := List.mem_filter.mp hkind
    exact ⟨kind, member, named, (RuleKinds.overlap_extended_marked marked kind member).symm.trans extended⟩
  · rintro ⟨kind, member, named, extended⟩
    refine ⟨_, List.mem_map.mpr ⟨kind, List.mem_filter.mpr ⟨member, named⟩, rfl⟩, ?_⟩
    exact (RuleKinds.overlap_extended_marked marked kind member).trans extended

theorem narrow_ok {part : KeyPart} {value : Nat} {n : UInt16} (run : narrow part value input = .ok n rest) :
    input = rest := by
  rw [narrow] at run
  split at run
  · exact (pure_ok.mp run).2
  · cases run

/-- Unless a fault is found in it, a record of words brings no sets of extended permissions, and an
extended key just when its mask names an extended kind. -/
theorem readWords_entries {record : RecordRead} (run : readWords input = .ok record rest) :
    ∃ words, wordRecord input = .ok words rest ∧ (record.fault = none →
      (∀ e ∈ record.entries, e.datum.extended = none) ∧
        ((∃ e ∈ record.entries, e.key.isExtended = true) ↔
          (maskOf words).overlap RuleKinds.extended = true)) := by
  rw [readWords] at run
  obtain ⟨count, left, counted, run⟩ := bind_ok.mp run
  dsimp only at run
  obtain ⟨_, run⟩ := guard_ok.mp run
  obtain ⟨words, left', taken, run⟩ := bind_ok.mp run
  split at run
  · rename_i source target cls value data
    obtain ⟨source', _, first, run⟩ := bind_ok.mp run
    obtain ⟨target', _, second, run⟩ := bind_ok.mp run
    obtain ⟨cls', _, third, run⟩ := bind_ok.mp run
    obtain ⟨_, run⟩ := guard_ok.mp run
    obtain ⟨_, run⟩ := guard_ok.mp run
    obtain ⟨rfl, rfl⟩ := pure_ok.mp run
    obtain rfl := ((narrow_ok first).trans (narrow_ok second)).trans (narrow_ok third)
    refine ⟨_, bind_ok.mpr ⟨count, left, counted, taken⟩, fun sound => ?_⟩
    obtain ⟨keys, words⟩ := assign_entries sound
    exact ⟨words, exists_extended_iff ⟨source', target', cls', _⟩ (ite_eq_or_eq ..) keys⟩
  · cases run

/-! ### Records of a table -/

/-- Of related lists, one has a member of its kind when the other has. -/
theorem exists_mem_iff_of_forall₂ {α β : Type} {p : α → Prop} {q : β → Prop} {as : List α} {bs : List β}
    (related : List.Forall₂ (fun a b => p a ↔ q b) as bs) : (∃ a ∈ as, p a) ↔ ∃ b ∈ bs, q b := by
  induction related with
  | nil => simp
  | cons same _ ih => simp only [List.exists_mem_cons_iff, same, ih]

open List in
theorem records_of_read (run : read v input = .ok t rest) :
    ∃ count left records, ByteReader.u32 input = .ok count left ∧
      ByteReader.replicate (readRecord v) count left = .ok records rest ∧
      (∀ r ∈ records, r.fault = none) ∧ t.toList ~ records.flatMap (·.entries) := by
  rw [read] at run
  obtain ⟨count, left, counted, run⟩ := bind_ok.mp run
  dsimp only at run
  obtain ⟨_, run⟩ := guard_ok.mp run
  obtain ⟨records, replicated, sounds, inserted⟩ := readRecords_ok.mp run
  have listed := ((Built.withCapacity count).insertAll inserted).2
  rw [toList_withCapacity, List.nil_append] at listed
  exact ⟨count, left, records, counted, replicated, sounds, listed⟩

/-- The words of all records. -/
def wordRecords : ByteReader (List (List Nat)) := do
  let count ← ByteReader.u32
  ByteReader.replicate wordRecord count

/-- The version has records of words, and the mask of one of them names an extended kind. -/
def NamesExtended (v : FormatVersion) (input : Bytes) : Prop :=
  v.number < 20 ∧ ∃ records rest, wordRecords input = .ok records rest ∧
    ∃ words ∈ records, (maskOf words).overlap RuleKinds.extended = true

/-- Tagged records have sets just under extended keys, which their version knows. -/
theorem matches_of_tagged (tagged : v.supports .taggedRecords = true) (run : read v input = .ok t rest) :
    ∀ e ∈ t.toList, e.Matches ∧ (e.key.isExtended = true → v.supports .extendedPermissions = true) := by
  obtain ⟨count, left, records, _, replicated, _, listed⟩ := records_of_read run
  have single : ∀ r ∈ records, ∃ e, r = ⟨[e], none⟩ ∧ e.Matches ∧
      (e.key.isExtended = true → v.supports .extendedPermissions = true) := by
    rw [readRecord, if_pos tagged] at replicated
    exact forall_of_replicate exists_of_readTagged replicated
  intro e he
  obtain ⟨r, hr, he⟩ := List.mem_flatMap.mp (listed.mem_iff.mp he)
  obtain ⟨f, rfl, matching⟩ := single r hr
  rw [List.mem_singleton.mp he]
  exact matching

/-- Records of words have no sets, and an extended key is in the table just when a mask names one. -/
theorem entries_of_words (untagged : v.supports .taggedRecords = false) (run : read v input = .ok t rest) :
    (∀ e ∈ t.toList, e.datum.extended = none) ∧
      ((∃ e ∈ t.toList, e.key.isExtended = true) ↔ NamesExtended v input) := by
  obtain ⟨count, left, records, counted, replicated, sounds, listed⟩ := records_of_read run
  have old : v.number < 20 := Nat.lt_of_not_le (of_decide_eq_false untagged)
  rw [readRecord, if_neg (by simp [untagged])] at replicated
  obtain ⟨words, replicated', related⟩ := exists_replicate readWords_entries replicated
  have read' : wordRecords input = .ok words rest := bind_ok.mpr ⟨count, left, counted, replicated'⟩
  -- No fault was found in any of the records.
  have each := ((List.forall₂_and_left _ _).mpr ⟨sounds, related⟩).imp fun r w h => h.2 h.1
  constructor
  · intro e he
    obtain ⟨r, hr, he⟩ := List.mem_flatMap.mp (listed.mem_iff.mp he)
    have data : ∀ r ∈ records, ∀ e ∈ r.entries, e.datum.extended = none :=
      ((List.forall₂_and_left _ _).mp each).1
    exact data r hr e he
  · have named := exists_mem_iff_of_forall₂ (each.imp fun r w h => h.2)
    have inside : (∃ e ∈ t.toList, e.key.isExtended = true) ↔
        ∃ r ∈ records, ∃ e ∈ r.entries, e.key.isExtended = true := by
      simp only [listed.mem_iff, List.mem_flatMap]
      constructor
      · rintro ⟨e, ⟨r, hr, he⟩, extended⟩
        exact ⟨r, hr, e, he, extended⟩
      · rintro ⟨r, hr, e, he, extended⟩
        exact ⟨e, ⟨r, hr, he⟩, extended⟩
    rw [inside, named]
    constructor
    · exact fun found => ⟨old, words, rest, read', found⟩
    · rintro ⟨_, words', rest', again, found⟩
      cases read'.symm.trans again
      exact found

/-- An extended key without a set is there just when a mask named one, and sets stand under extended
keys only, at versions that have them. -/
theorem extended_of_read (run : read v input = .ok t rest) :
    (NamesExtended v input ↔ ∃ e ∈ t.toList, e.key.isExtended = true ∧ e.datum.extended = none) ∧
      ∀ e ∈ t.toList, e.datum.extended ≠ none → e.key.isExtended = true ∧ 30 ≤ v.number := by
  cases tagged : v.supports .taggedRecords with
  | true =>
    have matching := matches_of_tagged tagged run
    have young : 20 ≤ v.number := of_decide_eq_true tagged
    refine ⟨iff_of_false (fun named => ?_) ?_, fun e he some => ?_⟩
    · have old := named.1
      omega
    · rintro ⟨e, he, extended, none⟩
      have datum := (matching e he).1
      rw [AccessEntry.Matches, if_pos extended] at datum
      obtain ⟨x, datum⟩ := datum
      rw [datum] at none
      cases none
    · obtain ⟨datum, known⟩ := matching e he
      cases extended : e.key.isExtended with
      | true => exact ⟨rfl, of_decide_eq_true (known extended)⟩
      | false =>
        rw [AccessEntry.Matches, if_neg (by simp [extended])] at datum
        obtain ⟨word, datum⟩ := datum
        exact absurd (congrArg AccessDatum.extended datum) some
  | false =>
    obtain ⟨none, named⟩ := entries_of_words tagged run
    refine ⟨?_, fun e he some => absurd (none e he) some⟩
    rw [← named]
    constructor
    · rintro ⟨e, he, extended⟩
      exact ⟨e, he, extended, none e he⟩
    · rintro ⟨e, he, extended, _⟩
      exact ⟨e, he, extended⟩

/-- From the version that has extended permissions on, a table is written unless an extended key has
no set of them. -/
theorem encode_ok_iff {w : FormatVersion} (supported : 30 ≤ w.number) :
    (∃ bytes, t.encode w = .ok bytes) ↔ ¬ ∃ e ∈ t.toList, e.key.isExtended = true ∧ e.datum.extended = none := by
  have known : w.supports .extendedPermissions = true := decide_eq_true supported
  have tagged : w.supports .taggedRecords = true := decide_eq_true (show 20 ≤ w.number by omega)
  constructor
  · rintro ⟨bytes, run⟩ ⟨e, he, extended, none⟩
    obtain ⟨_, pieces, written, _⟩ := encode_eq_ok run
    have fails : e.encode w = .error (.access .missingPermissions) := by
      simp only [AccessEntry.encode, extended, none, known]
      rfl
    obtain ⟨_, refused, _⟩ := Except.mapM_error (p := fun _ => True) (fun _ _ _ _ => trivial) he fails
    cases refused.symm.trans written
  · intro sets
    refine AccessTable.encode_ok tagged fun e he extended => ⟨known, ?_⟩
    exact Option.ne_none_iff_exists'.mp fun none => sets ⟨e, he, extended, none⟩

/-- A table that is read has sets of extended permissions just under its extended keys, has no extended
keys at a version without them, and is written at any version that has them, all unless it was read
from records of words and one of their masks names an extended kind: then all three fail. -/
theorem read_extended_iff (run : (read v).run? input = .ok (t, rest)) :
    ((∀ e ∈ t.toList, e.datum.extended ≠ none ↔ e.key.isExtended = true) ↔ ¬ NamesExtended v input) ∧
      ((v.number < 30 → ∀ e ∈ t.toList, e.key.isExtended = false) ↔ ¬ NamesExtended v input) ∧
      ∀ w : FormatVersion, 30 ≤ w.number → ((∃ bytes, t.encode w = .ok bytes) ↔ ¬ NamesExtended v input) := by
  obtain ⟨named, sets⟩ := extended_of_read (run?_eq_ok.mp run)
  have young : NamesExtended v input → v.number < 30 := fun h => Nat.lt_trans h.1 (by decide)
  rw [named] at young ⊢
  refine ⟨⟨?_, ?_⟩, ⟨?_, ?_⟩, fun w supported => encode_ok_iff supported⟩
  · rintro same ⟨e, he, extended, none⟩
    exact (same e he).mpr extended none
  · exact fun filled e he => ⟨fun some => (sets e he some).1, fun extended none => filled ⟨e, he, extended, none⟩⟩
  · rintro absent ⟨e, he, extended, none⟩
    have plain := absent (young ⟨e, he, extended, none⟩) e he
    rw [extended] at plain
    cases plain
  · intro filled early e he
    by_contra extended
    rw [Bool.not_eq_false] at extended
    have late := (sets e he fun none => filled ⟨e, he, extended, none⟩).2
    omega

/-- One record of six words, whose mask names allowed accesses and allowed extended permissions. -/
def namingRecord : Bytes :=
  [1, 6, 1, 2, 3, 0x0101, 5, 7].flatMap Bytes.u32

/-- At the last version with records of words it is read, and no version can hold the table again. -/
theorem read_namingRecord : ∃ t, (read ⟨19⟩).run? namingRecord = .ok (t, []) ∧ NamesExtended ⟨19⟩ namingRecord ∧
    (∃ e ∈ t.toList, e.key.isExtended = true) ∧
    ∀ w : FormatVersion, 30 ≤ w.number → ¬ ∃ bytes, t.encode w = .ok bytes := by
  obtain ⟨t, run⟩ : ∃ t, (read ⟨19⟩).run? namingRecord = .ok (t, []) := ⟨_, rfl⟩
  have named : NamesExtended ⟨19⟩ namingRecord :=
    ⟨by decide, [[1, 2, 3, 0x0101, 5, 7]], [], rfl, _, List.mem_singleton.mpr rfl, by decide⟩
  obtain ⟨-, early, written⟩ := read_extended_iff run
  refine ⟨t, run, named, ?_, fun w supported => mt (written w supported).mp (not_not_intro named)⟩
  by_contra none
  refine early.mp (fun _ e he => ?_) named
  exact eq_false_of_ne_true fun extended => none ⟨e, he, extended⟩

end AccessTable

end CilPolicy
