import CilPolicy.Proofs.Kernel.Record

/-!
# Rules and transitions in a policy file

Access rules, the branches of conditionals, and transitions. A rule is seen without the
mark of a rule in force, and a branch as its rules in place of their handles. Transitions
by object name are written in one of two forms, and both say how the rules were grouped.
-/

namespace CilPolicy

open Bytes

/-! ### Access rules -/

namespace AccessEntry

/-- The datum is of the kind that the key speaks of. -/
def Matches (e : AccessEntry) : Prop :=
  if e.key.isExtended then ∃ x, e.datum = .ofExtended x else ∃ word, e.datum = .ofWord word

/-- The entry as the file holds it, without the mark of a rule in force. -/
def record (e : AccessEntry) : AccessEntry :=
  { e with key := { e.key with kinds := e.key.kinds.plain } }

/-- The fields that every entry begins with. -/
def front (e : AccessEntry) : Bytes :=
  u16 e.key.source.toNat ++ u16 e.key.target.toNat ++ u16 e.key.cls.toNat
    ++ u16 e.key.kinds.plain.toNat

theorem encode_extended {v : FormatVersion} {e : AccessEntry} {bytes : Bytes}
    (matching : e.Matches) (extended : e.key.isExtended = true) (run : e.encode v = .ok bytes) :
    v.supports .extendedPermissions = true ∧ ∃ x : ExtendedSet, e.datum = .ofExtended x ∧
      bytes = e.front ++ u8 x.form.toNat ++ u8 x.driver.toNat ++ littleEndian 32 x.bits.toNat := by
  rw [Matches, if_pos extended] at matching
  obtain ⟨x, datum⟩ := matching
  rw [AccessEntry.encode, extended] at run
  cases supported : v.supports .extendedPermissions with
  | false => simp [supported, bind, Except.bind, throw, throwThe, MonadExceptOf.throw] at run
  | true =>
    simp only [supported, datum, AccessDatum.ofExtended, Bool.not_true, Bool.and_false] at run
    cases run
    exact ⟨rfl, x, datum, rfl⟩

theorem encode_plain {v : FormatVersion} {e : AccessEntry} {bytes : Bytes}
    (matching : e.Matches) (plain : e.key.isExtended = false) (run : e.encode v = .ok bytes) :
    ∃ word : BitVec 32, e.datum = .ofWord word ∧ bytes = e.front ++ u32 word.toNat := by
  rw [Matches, if_neg (by simp [plain])] at matching
  obtain ⟨word, datum⟩ := matching
  refine ⟨word, datum, ?_⟩
  rw [AccessEntry.encode, plain] at run
  simp only [datum, AccessDatum.ofWord, Bool.false_and] at run
  cases run
  rfl

theorem reveals_front (e f : AccessEntry) :
    Reveals e.front f.front (e.record.key = f.record.key) := by
  have word : ∀ a b : UInt16, Reveals (u16 a.toNat) (u16 b.toNat) (a = b) := fun a b =>
    (reveals_littleEndian a.toNat_lt b.toNat_lt).imp UInt16.toNat_inj.mp
  have kinds : Reveals (u16 e.key.kinds.plain.toNat) (u16 f.key.kinds.plain.toNat)
      (e.key.kinds.plain = f.key.kinds.plain) :=
    (reveals_littleEndian (BitVec.isLt _) (BitVec.isLt _)).imp BitVec.eq_of_toNat_eq
  refine ((((word _ _).append fun _ => word _ _).append fun _ => word _ _).append fun _ =>
    kinds).imp ?_
  rintro ⟨⟨⟨source, target⟩, cls⟩, kinds⟩
  simp only [record, source, target, cls, kinds]

/-- The mark of a rule in force is no extended kind. -/
theorem isExtended_record (e : AccessEntry) : e.record.key.isExtended = e.key.isExtended := by
  have masked : ~~~RuleKinds.enabled &&& RuleKinds.extended = RuleKinds.extended := by decide
  simp only [AccessKey.isExtended, RuleKinds.overlap, record, RuleKinds.plain, BitVec.and_assoc,
    masked]

theorem eq_of_record {e f : AccessEntry} (keys : e.record.key = f.record.key)
    (data : e.datum = f.datum) : e.record = f.record := by
  have left : e.record = ⟨e.record.key, e.datum⟩ := rfl
  have right : f.record = ⟨f.record.key, f.datum⟩ := rfl
  rw [left, right, keys, data]

theorem reveals_encode {v : FormatVersion} {e f : AccessEntry} {x y : Bytes} (left : e.Matches)
    (right : f.Matches) (run : e.encode v = .ok x) (run' : f.encode v = .ok y) :
    Reveals x y (e.record = f.record) := by
  -- The kinds, which the front holds, say whether a word or a set follows.
  have kind : e.record.key = f.record.key → e.key.isExtended = f.key.isExtended := by
    intro keys
    rw [← isExtended_record e, ← isExtended_record f, keys]
  have byte : ∀ a b : UInt8, Reveals (u8 a.toNat) (u8 b.toNat) (a = b) := fun a b =>
    (reveals_littleEndian a.toNat_lt b.toNat_lt).imp UInt8.toNat_inj.mp
  have apart : ∀ {a b : Bytes}, e.key.isExtended ≠ f.key.isExtended →
      Reveals (e.front ++ a) (f.front ++ b) (e.record = f.record) := by
    intro a b differ r s same
    rw [List.append_assoc, List.append_assoc] at same
    exact absurd (kind (reveals_front e f _ _ same).1) differ
  cases extended : e.key.isExtended with
  | true =>
    obtain ⟨_, s, datum, rfl⟩ := encode_extended left extended run
    cases extended' : f.key.isExtended with
    | true =>
      obtain ⟨_, t, datum', rfl⟩ := encode_extended right extended' run'
      have bits : Reveals (littleEndian 32 s.bits.toNat) (littleEndian 32 t.bits.toNat)
          (s.bits = t.bits) :=
        (reveals_littleEndian s.bits.isLt t.bits.isLt).imp BitVec.eq_of_toNat_eq
      refine ((((reveals_front e f).append fun _ => byte s.form t.form).append fun _ =>
        byte s.driver t.driver).append fun _ => bits).imp ?_
      rintro ⟨⟨⟨keys, form⟩, driver⟩, bits⟩
      refine eq_of_record keys ?_
      rw [datum, datum']
      cases s
      cases t
      simp_all
    | false =>
      obtain ⟨word, _, rfl⟩ := encode_plain right extended' run'
      simp only [List.append_assoc]
      exact apart (by simp [extended, extended'])
  | false =>
    obtain ⟨word, datum, rfl⟩ := encode_plain left extended run
    cases extended' : f.key.isExtended with
    | true =>
      obtain ⟨_, t, _, rfl⟩ := encode_extended right extended' run'
      simp only [List.append_assoc]
      exact apart (by simp [extended, extended'])
    | false =>
      obtain ⟨word', datum', rfl⟩ := encode_plain right extended' run'
      have words := (reveals_u32 word.isLt word'.isLt).imp BitVec.eq_of_toNat_eq
      refine ((reveals_front e f).append fun _ => words).imp ?_
      rintro ⟨keys, same⟩
      exact eq_of_record keys (by rw [datum, datum', same])

end AccessEntry

/-- The table comes of its operations, its size is a word, and its data match their keys. -/
structure AccessTable.Fits (t : AccessTable) : Prop where
  built : t.Built
  size : t.size < wordBound
  matching : ∀ e ∈ t.toList, e.Matches

theorem AccessTable.encode_eq_ok {v : FormatVersion} {t : AccessTable} {bytes : Bytes}
    (run : t.encode v = .ok bytes) : v.supports .taggedRecords = true ∧
      ∃ pieces, t.toList.mapM (AccessEntry.encode v) = .ok pieces ∧
        bytes = u32 t.size ++ pieces.flatten := by
  rw [AccessTable.encode] at run
  cases tagged : v.supports .taggedRecords with
  | false => simp [tagged, bind, Except.bind, throw, throwThe, MonadExceptOf.throw] at run
  | true =>
    simp only [tagged, Bool.not_true] at run
    obtain ⟨pieces, written, done⟩ := bind_eq_ok.mp run
    cases done
    exact ⟨rfl, pieces, written, rfl⟩

theorem AccessTable.reveals_encode {v : FormatVersion} {t u : AccessTable} {x y : Bytes}
    (left : t.Fits) (right : u.Fits) (run : t.encode v = .ok x) (run' : u.encode v = .ok y) :
    Reveals x y (t.toList.map AccessEntry.record = u.toList.map AccessEntry.record) := by
  obtain ⟨_, pieces, written, rfl⟩ := AccessTable.encode_eq_ok run
  obtain ⟨_, pieces', written', rfl⟩ := AccessTable.encode_eq_ok run'
  refine ((reveals_u32 left.size right.size).append fun sizes => ?_).imp And.right
  have lengths : t.toList.length = u.toList.length := by
    rw [left.built.length_toList, right.built.length_toList, sizes]
  refine reveals_mapM AccessEntry.record AccessEntry.record written written' lengths ?_
  intro e he f hf x y
  exact AccessEntry.reveals_encode (left.matching e he) (right.matching f hf)

/-! ### Conditionals -/

def CondItem.Fits : CondItem → Prop
  | bool value => value < wordBound
  | _ => True

theorem CondItem.code_lt {item : CondItem} (fits : item.Fits) :
    item.code.1 < wordBound ∧ item.code.2 < wordBound := by
  cases item with
  | bool value => exact ⟨show 1 < wordBound by decide, fits⟩
  | _ => decide

theorem CondItem.code_injective {a b : CondItem} (same : a.code = b.code) : a = b := by
  cases a <;> cases b <;> simp_all [CondItem.code]

theorem CondItem.reveals_code {a b : CondItem} (left : a.Fits) (right : b.Fits) :
    Reveals (u32 a.code.1 ++ u32 a.code.2) (u32 b.code.1 ++ u32 b.code.2) (a = b) := by
  have kinds := reveals_u32 (code_lt left).1 (code_lt right).1
  have numbers := reveals_u32 (code_lt left).2 (code_lt right).2
  refine (kinds.append fun _ => numbers).imp ?_
  rintro ⟨kind, number⟩
  exact code_injective (Prod.ext kind number)

/-- A conditional with its rules in place of their handles. -/
structure ConditionalRecord where
  state : Bool
  condition : List CondItem
  whenTrue : List AccessEntry
  whenFalse : List AccessEntry
deriving DecidableEq, Repr

namespace KernelPolicy

/-- Every handle of a branch has a rule, whose datum matches its key. -/
def BranchFits (table : AccessTable) (handle : Nat) : Prop :=
  ∃ e, table.entry? handle = some e ∧ e.Matches

structure ConditionalFits (table : AccessTable) (c : ConditionalNode) : Prop where
  condition : ListFits CondItem.Fits c.condition
  whenTrue : ListFits (BranchFits table) c.whenTrue
  whenFalse : ListFits (BranchFits table) c.whenFalse

/-- The rules of a branch as the file holds them. -/
def branchRecords (table : AccessTable) (handles : List Nat) : List AccessEntry :=
  (handles.filterMap table.entry?).map AccessEntry.record

def conditionalRecord (table : AccessTable) (c : ConditionalNode) : ConditionalRecord where
  state := c.state
  condition := c.condition
  whenTrue := branchRecords table c.whenTrue
  whenFalse := branchRecords table c.whenFalse

theorem length_branch {table : AccessTable} {handles : List Nat}
    (fits : ListFits (BranchFits table) handles) :
    (handles.filterMap table.entry?).length = handles.length := by
  refine List.filterMap_length_eq_length.mpr ?_
  intro handle mem
  obtain ⟨e, found, _⟩ := fits.items handle mem
  rw [found]
  rfl

theorem matches_of_mem_branch {table : AccessTable} {handles : List Nat}
    (fits : ListFits (BranchFits table) handles) {e : AccessEntry}
    (mem : e ∈ handles.filterMap table.entry?) : e.Matches := by
  obtain ⟨handle, hmem, found⟩ := List.mem_filterMap.mp mem
  obtain ⟨f, found', matching⟩ := fits.items handle hmem
  cases found.symm.trans found'
  exact matching

section Pair

variable {p q : KernelPolicy}

theorem reveals_encodeBranch (version : p.version = q.version) {handles handles' : List Nat}
    {x y : Bytes} (left : ListFits (BranchFits p.conditionalRules) handles)
    (right : ListFits (BranchFits q.conditionalRules) handles')
    (run : p.encodeBranch handles = .ok x) (run' : q.encodeBranch handles' = .ok y) :
    Reveals x y (branchRecords p.conditionalRules handles =
      branchRecords q.conditionalRules handles') := by
  obtain ⟨pieces, written, done⟩ := bind_eq_ok.mp run
  obtain ⟨pieces', written', done'⟩ := bind_eq_ok.mp run'
  cases done
  cases done'
  refine ((reveals_u32 left.count right.count).append fun counts => ?_).imp And.right
  have lengths : (handles.filterMap p.conditionalRules.entry?).length =
      (handles'.filterMap q.conditionalRules.entry?).length := by
    rw [length_branch left, length_branch right, counts]
  refine reveals_mapM AccessEntry.record AccessEntry.record written written' lengths ?_
  intro e he f hf x y hx hy
  exact AccessEntry.reveals_encode (matches_of_mem_branch left he) (matches_of_mem_branch right hf)
    hx (version ▸ hy)

theorem reveals_encodeConditional (version : p.version = q.version) {c d : ConditionalNode}
    {x y : Bytes} (left : ConditionalFits p.conditionalRules c)
    (right : ConditionalFits q.conditionalRules d) (run : p.encodeConditional c = .ok x)
    (run' : q.encodeConditional d = .ok y) :
    Reveals x y (conditionalRecord p.conditionalRules c =
      conditionalRecord q.conditionalRules d) := by
  obtain ⟨whenTrue, hTrue, rest⟩ := bind_eq_ok.mp run
  obtain ⟨whenFalse, hFalse, done⟩ := bind_eq_ok.mp rest
  obtain ⟨whenTrue', hTrue', rest'⟩ := bind_eq_ok.mp run'
  obtain ⟨whenFalse', hFalse', done'⟩ := bind_eq_ok.mp rest'
  cases done
  cases done'
  have state := reveals_flag c.state d.state
  have condition := reveals_list left.condition right.condition fun _ _ => CondItem.reveals_code
  have trues := reveals_encodeBranch version left.whenTrue right.whenTrue hTrue hTrue'
  have falses := reveals_encodeBranch version left.whenFalse right.whenFalse hFalse hFalse'
  refine (((state.append fun _ => condition).append fun _ => trues).append fun _ => falses).imp ?_
  rintro ⟨⟨⟨state, condition⟩, whenTrue⟩, whenFalse⟩
  simp only [conditionalRecord, state, condition, whenTrue, whenFalse]

theorem reveals_encodeConditionals (version : p.version = q.version) {x y : Bytes}
    (left : ListFits (ConditionalFits p.conditionalRules) p.conditionals)
    (right : ListFits (ConditionalFits q.conditionalRules) q.conditionals)
    (run : p.encodeConditionals = .ok x) (run' : q.encodeConditionals = .ok y) :
    Reveals x y (p.conditionals.map (conditionalRecord p.conditionalRules) =
      q.conditionals.map (conditionalRecord q.conditionalRules)) := by
  obtain ⟨pieces, written, done⟩ := bind_eq_ok.mp run
  obtain ⟨pieces', written', done'⟩ := bind_eq_ok.mp run'
  cases done
  cases done'
  refine ((reveals_u32 left.count right.count).append fun counts => ?_).imp And.right
  refine reveals_mapM _ _ written written' counts ?_
  intro c hc d hd x y
  exact reveals_encodeConditional version (left.items c hc) (right.items d hd)

end Pair

end KernelPolicy

/-! ### Transitions -/

structure RoleTransition.Fits (t : RoleTransition) : Prop where
  role : t.role < wordBound
  type : t.type < wordBound
  newRole : t.newRole < wordBound
  cls : t.cls < wordBound

/-- The transition as a version knows it; the class needs a later one. -/
def RoleTransition.record (v : FormatVersion) (t : RoleTransition) : RoleTransition :=
  if v.supports .roleTransitionClass then t else { t with cls := 0 }

structure RoleAllow.Fits (a : RoleAllow) : Prop where
  role : a.role < wordBound
  newRole : a.newRole < wordBound

structure RangeTransition.Fits (t : RangeTransition) : Prop where
  source : t.source < wordBound
  target : t.target < wordBound
  cls : t.cls < wordBound
  range : t.range.Fits

/-- The transitions come of adding rules, and the number of their rules is a word. -/
structure FilenameTransitions.Fits (t : FilenameTransitions) : Prop where
  built : t.Built
  rules : t.ruleCount < wordBound

namespace KernelPolicy

theorem reveals_encodeRoleTransition (v : FormatVersion) {a b : RoleTransition} (left : a.Fits)
    (right : b.Fits) :
    Reveals (encodeRoleTransition v a) (encodeRoleTransition v b) (a.record v = b.record v) := by
  have role := reveals_u32 left.role right.role
  have type := reveals_u32 left.type right.type
  have newRole := reveals_u32 left.newRole right.newRole
  have cls := Reveals.gated (v.supports .roleTransitionClass) fun _ =>
    reveals_u32 left.cls right.cls
  refine (((role.append fun _ => type).append fun _ => newRole).append fun _ => cls).imp ?_
  rintro ⟨⟨⟨role, type⟩, newRole⟩, cls⟩
  cases a
  cases b
  cases supported : v.supports .roleTransitionClass <;> simp_all [RoleTransition.record]

theorem reveals_encodeRoleAllow {a b : RoleAllow} (left : a.Fits) (right : b.Fits) :
    Reveals (encodeRoleAllow a) (encodeRoleAllow b) (a = b) := by
  have role := reveals_u32 left.role right.role
  have newRole := reveals_u32 left.newRole right.newRole
  refine (role.append fun _ => newRole).imp ?_
  rintro ⟨role, newRole⟩
  cases a
  cases b
  simp_all

theorem reveals_encodeRangeTransition {v : FormatVersion}
    (supported : v.supports .rangeTransitionClass = true) {a b : RangeTransition} (left : a.Fits)
    (right : b.Fits) :
    Reveals (encodeRangeTransition v a) (encodeRangeTransition v b) (a = b) := by
  have source := reveals_u32 left.source right.source
  have target := reveals_u32 left.target right.target
  have cls := Reveals.gated (v.supports .rangeTransitionClass) fun _ =>
    reveals_u32 left.cls right.cls
  have range := LevelRange.reveals_encode left.range right.range
  refine (((source.append fun _ => target).append fun _ => cls).append fun _ => range).imp ?_
  rintro ⟨⟨⟨source, target⟩, cls⟩, range⟩
  have cls := cls supported
  cases a
  cases b
  simp_all

/-- A rule by itself: the name, the source, the target, the class and the result. -/
def encodeNameRule (rule : FilenameKey × Nat × Nat) : Bytes :=
  encodeText rule.1.name ++ u32 (rule.2.2 + 1) ++ u32 rule.1.target ++ u32 rule.1.cls
    ++ u32 rule.2.1

theorem encodeExpandedNames_eq (t : FilenameTransitions) :
    encodeExpandedNames t = encodeList encodeNameRule t.rules := by
  rw [encodeExpandedNames, encodeList, t.length_rules]
  congr 1
  rw [FilenameTransitions.rules, spread, List.flatMap_assoc, List.flatMap_map]
  refine List.flatMap_congr ?_
  rintro ⟨key, groups⟩ _
  change _ = ((FilenameTransitions.groupRules groups).map (key, ·)).flatMap encodeNameRule
  rw [FilenameTransitions.groupRules, spread, List.flatMap_map, List.flatMap_map, List.flatMap_assoc]
  refine List.flatMap_congr fun g _ => ?_
  rw [List.flatMap_map]
  rfl

/-- The key, the result and the source of a rule fit in words. -/
structure NameRuleFits (rule : FilenameKey × Nat × Nat) : Prop where
  key : rule.1.Fits
  source : rule.2.2 + 1 < wordBound
  result : rule.2.1 < wordBound

theorem nameRulesFit {t : FilenameTransitions} (fits : t.Fits) : ListFits NameRuleFits t.rules where
  count := by
    rw [t.length_rules]
    exact fits.rules
  items := by
    rintro ⟨key, result, bit⟩ mem
    have sound := fits.built.sound
    obtain ⟨entry, hentry, mem⟩ := List.mem_flatMap.mp mem
    obtain ⟨⟨key', groups⟩, hgroups, rfl⟩ := List.mem_map.mp hentry
    obtain ⟨rule, hrule, heq⟩ := List.mem_map.mp mem
    cases heq
    obtain ⟨_, hlist, mem⟩ := List.mem_flatMap.mp hrule
    obtain ⟨g, hg, rfl⟩ := List.mem_map.mp hlist
    obtain ⟨_, listed, heq⟩ := List.mem_map.mp mem
    cases heq
    have groupSound := (sound.groups _ hgroups).each g hg
    have below := groupSound.below bit ((BitSet.mem_toList groupSound.wellFormed).mp listed)
    refine ⟨sound.keys _ hgroups, ?_, groupSound.result⟩
    simp only [BitSet.bitLimit, wordBound] at below ⊢
    omega

theorem reveals_encodeNameRule {a b : FilenameKey × Nat × Nat} (left : NameRuleFits a)
    (right : NameRuleFits b) : Reveals (encodeNameRule a) (encodeNameRule b) (a = b) := by
  have name := reveals_encodeText left.key.name right.key.name
  have source := reveals_u32 left.source right.source
  have target := reveals_u32 left.key.target right.key.target
  have cls := reveals_u32 left.key.cls right.key.cls
  have result := reveals_u32 left.result right.result
  refine ((((name.append fun _ => source).append fun _ => target).append fun _ => cls).append
    fun _ => result).imp ?_
  rintro ⟨⟨⟨⟨name, source⟩, target⟩, cls⟩, result⟩
  obtain ⟨⟨_, _, _⟩, _, _⟩ := a
  obtain ⟨⟨_, _, _⟩, _, _⟩ := b
  simp_all

theorem reveals_encodeExpandedNames {t u : FilenameTransitions} (left : t.Fits) (right : u.Fits) :
    Reveals (encodeExpandedNames t) (encodeExpandedNames u) (t = u) := by
  rw [encodeExpandedNames_eq, encodeExpandedNames_eq]
  refine (reveals_list (nameRulesFit left) (nameRulesFit right) fun _ _ =>
    reveals_encodeNameRule).imp ?_
  exact FilenameTransitions.eq_of_rules left.built.sound right.built.sound

structure GroupFits (g : FilenameGroup) : Prop where
  sources : g.sources.Fits
  result : g.result < wordBound

structure NameEntryFits (entry : FilenameKey × List FilenameGroup) : Prop where
  key : entry.1.Fits
  groups : ListFits GroupFits entry.2

theorem nameEntriesFit {t : FilenameTransitions} (fits : t.Fits) :
    ListFits NameEntryFits t.entries := by
  have sound := fits.built.sound
  obtain ⟨keys, groups⟩ := sound.length_le
  refine ⟨Nat.lt_of_le_of_lt keys fits.rules, ?_⟩
  intro entry hentry
  refine ⟨sound.keys entry hentry, Nat.lt_of_le_of_lt (groups entry hentry) fits.rules, ?_⟩
  intro g hg
  have groupSound := (sound.groups entry hentry).each g hg
  have high := BitSet.highBit_le groupSound.wellFormed (by decide) groupSound.below
  exact ⟨⟨groupSound.wellFormed, Nat.lt_of_le_of_lt high (by decide)⟩, groupSound.result⟩

theorem reveals_encodeCompactNames {t u : FilenameTransitions} (left : t.Fits) (right : u.Fits) :
    Reveals (encodeCompactNames t) (encodeCompactNames u) (t = u) := by
  have group : ∀ g h : FilenameGroup, GroupFits g → GroupFits h →
      Reveals (g.sources.encode ++ u32 g.result) (h.sources.encode ++ u32 h.result) (g = h) := by
    intro g h left right
    have sources := BitSet.reveals_encode left.sources right.sources
    have result := reveals_u32 left.result right.result
    refine (sources.append fun _ => result).imp ?_
    rintro ⟨sources, result⟩
    cases g
    cases h
    simp_all
  refine (reveals_list (nameEntriesFit left) (nameEntriesFit right) ?_).imp ?_
  · rintro ⟨⟨_, _, _⟩, _⟩ ⟨⟨_, _, _⟩, _⟩ left right
    have name := reveals_encodeText left.key.name right.key.name
    have target := reveals_u32 left.key.target right.key.target
    have cls := reveals_u32 left.key.cls right.key.cls
    have groups := reveals_list left.groups right.groups group
    refine (((name.append fun _ => target).append fun _ => cls).append fun _ => groups).imp ?_
    rintro ⟨⟨⟨name, target⟩, cls⟩, groups⟩
    simp_all
  · intro entries
    cases t
    cases u
    cases entries
    rfl

/-- From the version that has them on, the transitions are told. -/
theorem reveals_encodeFilenameTransitions (v : FormatVersion) {t u : FilenameTransitions}
    (left : t.Fits) (right : u.Fits) :
    Reveals (encodeFilenameTransitions v t) (encodeFilenameTransitions v u)
      (v.supports .filenameTransitions = true → t = u) := by
  rw [encodeFilenameTransitions, encodeFilenameTransitions]
  cases v.supports .filenameTransitions with
  | false => exact Reveals.nil.imp fun _ h => by cases h
  | true =>
    cases v.supports .compactFilenameTransitions with
    | false => exact (reveals_encodeExpandedNames left right).imp fun same _ => same
    | true => exact (reveals_encodeCompactNames left right).imp fun same _ => same

end KernelPolicy

end CilPolicy
