import CilPolicy.Proofs.Lowering.Contexts

/-!
# Ranges of contexts and of their users

A context that is accepted has a user with a range, and both ranges have kernel values.
The sensitivities of the context's range lie within those of the user's range. The
acceptance compares no categories, so the user's range contains the context's in the
sense of the kernel exactly when the categories agree as well: those of the user's low
level are in the context's low level, and those of the context's high level are in the
user's high level.
-/

namespace CilPolicy

/-! ### Users that are accepted -/

namespace EvaluatedDatabase

variable {db : EvaluatedDatabase}

/-- Only users that are no attributes have roles. -/
theorem Evaluated.user_of_mem_userRoles (evaluated : db.Evaluated) {user role : Id}
    (h : role ∈ db.userRoles.getD user ∅) :
    ∃ u, db.users.value? user = some u ∧ u.isAttribute = false := by
  rw [evaluated.userRoles, evaluated.users, evaluated.roles] at h
  obtain ⟨_, giver, owned, _⟩ := (mem_spread_unionOf (Member.allWithin_expandAll _)).mp h
  have concrete := (Member.allWithin_expandAll db.userMembers giver).inside user owned
  rw [Member.mem_concretes, Database.userMembers, Array.getElem?_map] at concrete
  obtain ⟨d, hd, plain⟩ := Option.map_eq_some_iff.mp concrete
  refine ⟨d.value, Registry.value?_eq_some.mpr ⟨d, hd, rfl⟩, ?_⟩
  by_contra attr
  rw [Bool.not_eq_false] at attr
  simp [attr] at plain

theorem Passed.exists_userRange (passed : db.Passed) {user : Id} {u : UserInfo}
    (hu : db.users.value? user = some u) (plain : u.isAttribute = false) :
    ∃ range, u.range = some range := by
  obtain ⟨d, hd, rfl⟩ := Registry.value?_eq_some.mp hu
  have listed : (user, d) ∈ db.users.indexed.filter (!·.2.value.isAttribute) :=
    List.mem_filter.mpr ⟨Registry.mem_indexed.mpr hd, by simp [plain]⟩
  have silent := List.flatMap_eq_nil_iff.mp passed.users (user, d) listed
  simp only [List.append_eq_nil_iff] at silent
  obtain ⟨⟨_, ranged⟩, _⟩ := silent
  cases hrange : d.value.range with
  | some range => exact ⟨range, rfl⟩
  | none => simp [hrange] at ranged

/-- What the check of a context says of its range. -/
theorem rangeWithin_of_checkContext {c : ContextSpec Id} (h : db.checkContext c = .ok ())
    {u : UserInfo} (hu : db.users.value? c.user = some u) {userRange : RangeArg Id}
    (hrange : u.range = some userRange) :
    ∃ whole range, db.evalRange userRange = .ok whole ∧ db.evalRange c.range = .ok range ∧
      db.rangeWithin whole range = true := by
  rw [checkContext] at h
  obtain ⟨_, h⟩ := guard_eq_ok h
  obtain ⟨_, h⟩ := guard_eq_ok h
  obtain ⟨_, h⟩ := guard_eq_ok h
  obtain ⟨_, h⟩ := guard_eq_ok h
  have ranged : (db.users.value? c.user).bind (·.range) = some userRange := by
    rw [hu, Option.bind_some, hrange]
  dsimp only at h
  simp only [ranged] at h
  -- A range that is written out has been checked on its own before; the rest is the same.
  have last : (do
      let whole ← inContext (db.evalRange userRange)
      let range ← inContext (db.evalRange c.range)
      if !db.rangeWithin whole range then
        throw (ContextFault.range (db.rangeName c.range) (db.users.nameOf c.user))
      else pure ()) = Except.ok () := by
    split at h
    · obtain ⟨_, _, h⟩ := bind_eq_ok.mp h
      exact h
    · exact h
  obtain ⟨whole, hwhole, last⟩ := bind_eq_ok.mp last
  obtain ⟨range, hrange, last⟩ := bind_eq_ok.mp last
  refine ⟨whole, range, mapError_eq_ok.mp hwhole, mapError_eq_ok.mp hrange, ?_⟩
  split at last
  · cases last
  · rename_i within
    simpa using within

theorem wellFormed_of_known (known : KnownWithin db.categoryWhole db.categorySets) {level : LevelArg Id}
    {v : LevelValue} (h : db.evalLevel level = .ok v) : v.categories.WellFormed := by
  rw [evalLevel] at h
  split at h
  · cases h
  · cases h
    exact BitSet.wellFormed_empty
  · obtain ⟨categories, hcategories, h⟩ := bind_eq_ok.mp h
    cases h
    exact (OrderedDatabase.within_categoryBits known hcategories).wellFormed

theorem wellFormed_of_evalLevel (passed : db.Passed) {level : LevelArg Id} {v : LevelValue}
    (h : db.evalLevel level = .ok v) : v.categories.WellFormed :=
  wellFormed_of_known passed.categories h

theorem wellFormed_of_evalRange (passed : db.Passed) {range : RangeArg Id} {low high : LevelValue}
    (h : db.evalRange range = .ok (low, high)) :
    low.categories.WellFormed ∧ high.categories.WellFormed := by
  rw [evalRange] at h
  split at h
  · cases h
  · obtain ⟨low, hlow, h⟩ := bind_eq_ok.mp h
    obtain ⟨high, hhigh, h⟩ := bind_eq_ok.mp h
    cases h
    exact ⟨wellFormed_of_evalLevel passed hlow, wellFormed_of_evalLevel passed hhigh⟩

end EvaluatedDatabase

/-! ### Ranges in kernel values -/

namespace LevelRange

/-- The sensitivities of a range lie within those of another. -/
structure SensitivitiesWithin (whole range : LevelRange) : Prop where
  low : whole.low.sens ≤ range.low.sens
  high : range.high.sens ≤ whole.high.sens

/-- The categories of a range lie between those of the two levels of another. -/
structure CategoriesWithin (whole range : LevelRange) : Prop where
  low : ∀ n, n ∈ whole.low.cats → n ∈ range.low.cats
  high : ∀ n, n ∈ range.high.cats → n ∈ whole.high.cats

/-- A range contains another when the sensitivities and the categories do. -/
theorem contains_iff {whole range : LevelRange} (wholeLow : whole.low.cats.WellFormed)
    (wholeHigh : whole.high.cats.WellFormed) (rangeLow : range.low.cats.WellFormed)
    (rangeHigh : range.high.cats.WellFormed) :
    whole.contains range = true ↔ SensitivitiesWithin whole range ∧ CategoriesWithin whole range := by
  simp only [LevelRange.contains, Level.dominates, Bool.and_eq_true, decide_eq_true_eq]
  rw [BitSet.covers_iff rangeLow wholeLow, BitSet.covers_iff wholeHigh rangeHigh]
  constructor
  · rintro ⟨⟨lowSens, lowCats⟩, highSens, highCats⟩
    exact ⟨⟨lowSens, highSens⟩, lowCats, highCats⟩
  · rintro ⟨⟨lowSens, highSens⟩, lowCats, highCats⟩
    exact ⟨⟨lowSens, lowCats⟩, highSens, highCats⟩

end LevelRange

namespace Lowering

variable {l : Lowering} {k : KernelPolicy}

theorem wellFormed_of_evalRange (passed : l.db.Passed) {range : RangeArg Id} {r : LevelRange}
    (h : l.evalRange range = .ok r) : r.low.cats.WellFormed ∧ r.high.cats.WellFormed := by
  rw [evalRange] at h
  split at h
  · obtain ⟨⟨low, high⟩, hlevels, rfl⟩ := map_eq_ok.mp h
    exact EvaluatedDatabase.wellFormed_of_evalRange passed hlevels
  · cases h
    exact ⟨BitSet.wellFormed_empty, BitSet.wellFormed_empty⟩

/-- The kernel values of two ranges, of which the check has compared the sensitivities. -/
theorem evalRange_within (numbered : l.Numbered) (passed : l.db.Passed) {userRange range : RangeArg Id}
    (userFits : l.db.RangeFits userRange) (fits : l.db.RangeFits range)
    {outer inner : LevelValue × LevelValue} (houter : l.db.evalRange userRange = .ok outer)
    (hinner : l.db.evalRange range = .ok inner) (within : l.db.rangeWithin outer inner = true) :
    ∃ whole r, l.evalRange userRange = .ok whole ∧ l.evalRange range = .ok r ∧
      LevelRange.SensitivitiesWithin whole r := by
  obtain ⟨outerLow, outerHigh⟩ := EvaluatedDatabase.isSensitivity_of_evalRange passed.resolved userFits houter
  obtain ⟨innerLow, innerHigh⟩ := EvaluatedDatabase.isSensitivity_of_evalRange passed.resolved fits hinner
  obtain ⟨low, high⟩ := Bool.and_eq_true_iff.mp within
  by_cases mls : l.settings.mls = true
  · refine ⟨l.levelRange outer, l.levelRange inner, ?_, ?_, ?_, ?_⟩
    · rw [evalRange, if_pos mls, houter]
      rfl
    · rw [evalRange, if_pos mls, hinner]
      rfl
    · exact (level_le_iff numbered passed.placed outerLow innerLow).mpr low
    · exact (level_le_iff numbered passed.placed innerHigh outerHigh).mpr high
  · refine ⟨default, default, ?_, ?_, Nat.le_refl _, Nat.le_refl _⟩
    · rw [evalRange, if_neg mls]
    · rw [evalRange, if_neg mls]

/-- A user that is no attribute has its range in the table of users. -/
theorem Built.find?_user (built : l.Built k) (numbered : l.Numbered) {user : Id} {info : UserInfo}
    (hinfo : l.db.users.value? user = some info) (plain : info.isAttribute = false)
    {userRange : RangeArg Id} (ranged : info.range = some userRange) :
    ∃ u, k.users.find? (l.db.users.nameOf user) = some u ∧ l.evalRange userRange = .ok u.range := by
  obtain ⟨d, hd, rfl⟩ := Registry.value?_eq_some.mp hinfo
  obtain ⟨v, hv⟩ : ∃ v, l.users.value? user = some v := by
    refine Numbering.exists_value? ?_
    rw [numbered.users, Numbering.mem_ofRegistry]
    exact ⟨d.value, hinfo, by simp [plain]⟩
  obtain ⟨symbols, hsymbols, run⟩ := bind_eq_ok.mp built.users
  obtain ⟨⟨name, u⟩, hmem, hsymbol⟩ := exists_of_mapM hsymbols (mem_numbered hv hd)
  obtain ⟨rfl, _, _, ranges, _⟩ := userSymbol_spec hsymbol
  have name : l.db.users.nameOf user = d.name := by simp [Registry.nameOf, hd]
  refine ⟨u, ?_, ranges userRange ranged⟩
  rw [name]
  exact (SymbolTable.find?_ofList (mapError_eq_ok.mp run)).mpr hmem

end Lowering

namespace EvaluatedDatabase

variable {db : EvaluatedDatabase}

/-- The ranges of a user and of an accepted context have kernel values. The sensitivities
of the one lie within those of the other; so the user's range contains the context's
exactly when the categories, which the check does not compare, lie within too. -/
theorem accepted_range_contained_iff (verified : db.Verified) {spec : ContextSpec Id}
    (fits : db.RangeFits spec.range) (accepted : db.checkContext spec = .ok ())
    (settings : Settings) (options : LoweringOptions) :
    ∃ info userRange whole range, db.users.value? spec.user = some info ∧
      info.range = some userRange ∧
      (Lowering.new db settings options).evalRange userRange = .ok whole ∧
      (Lowering.new db settings options).evalRange spec.range = .ok range ∧
      (∀ k, (db.lower settings options).outcome.1 = .ok k →
        ∃ u, k.users.find? (db.users.nameOf spec.user) = some u ∧ u.range = whole) ∧
      LevelRange.SensitivitiesWithin whole range ∧
      (whole.contains range = true ↔ LevelRange.CategoriesWithin whole range) := by
  have passed := verified.passed
  have numbered := Lowering.numbered_new db settings options
  obtain ⟨role, _, _⟩ := checkContext_spec accepted
  obtain ⟨info, hinfo, plain⟩ := passed.evaluated.user_of_mem_userRoles role
  obtain ⟨userRange, ranged⟩ := passed.exists_userRange hinfo plain
  obtain ⟨outer, inner, houter, hinner, within⟩ := rangeWithin_of_checkContext accepted hinfo ranged
  have userFits := passed.resolved.users spec.user info hinfo userRange ranged
  obtain ⟨whole, range, hwhole, hrange, sensitivities⟩ :=
    Lowering.evalRange_within numbered passed userFits fits houter hinner within
  refine ⟨info, userRange, whole, range, hinfo, ranged, hwhole, hrange, ?_, sensitivities, ?_⟩
  · intro k run
    have built := Lowering.built_of_policy (Report.yields_of_outcome run)
    obtain ⟨u, found, hu⟩ := built.find?_user numbered hinfo plain ranged
    exact ⟨u, found, Except.ok.inj (hu.symm.trans hwhole)⟩
  · obtain ⟨wholeLow, wholeHigh⟩ := Lowering.wellFormed_of_evalRange passed hwhole
    obtain ⟨rangeLow, rangeHigh⟩ := Lowering.wellFormed_of_evalRange passed hrange
    rw [LevelRange.contains_iff wholeLow wholeHigh rangeLow rangeHigh]
    exact and_iff_right sensitivities

/-- A user whose range has no categories, and a context of that user with a category. -/
def escapingPolicy : List Statement :=
  let level : LevelArg String := .given ⟨"s0", some (.item "c0")⟩
  smallPolicy ([.mls true, .declare .category "c0", .order .category ["c0"],
    .sensitivityCategory "s0" (.item "c0"), .context "inner" ⟨"u", "r", "a", .given ⟨level, level⟩⟩,
    .access .allow "a" "b" (.given "file" (.list [.item "read"]))].map (Statement.plain {}))

/-- The first context has a category in its high level that its user has not. -/
def escapes (db : EvaluatedDatabase) (settings : Settings) (k : KernelPolicy) : Bool :=
  match db.contexts.value? 0 with
  | some (some spec) =>
    ((Lowering.new db settings {}).evalRange spec.range).toOption.any (·.high.cats.has 0) &&
      (k.users.find? (db.users.nameOf spec.user)).any fun u => !u.range.high.cats.has 0
  | _ => false

set_option maxRecDepth 10000 in
theorem escapingPolicy_lowers : lowersTo escapingPolicy {} escapes = true := by
  decide +kernel

/-- A small policy is verified and lowered, and has an accepted context whose range the
range of its user does not contain. -/
theorem accepted_range_escapes : ∃ db settings k spec u range, Verified db ∧
    (db.lower settings {}).outcome.1 = .ok k ∧ db.checkContext spec = .ok () ∧
    k.users.find? (db.users.nameOf spec.user) = some u ∧
    (Lowering.new db settings {}).evalRange spec.range = .ok range ∧
    LevelRange.SensitivitiesWithin u.range range ∧ u.range.contains range = false := by
  obtain ⟨db, settings, k, verified, lowered, test⟩ := exists_lowered escapingPolicy_lowers
  rw [escapes] at test
  split at test
  · rename_i spec hspec
    have passed := verified.passed
    have fits := (passed.resolved.contexts 0 (some spec) hspec spec rfl).2
    have named : db.contextSpec? (.named 0) = some spec := Option.join_eq_some_iff.mpr hspec
    have accepted := passed.checked_named named
    obtain ⟨_, _, whole, range, _, _, _, hrange, table, sensitivities, iff⟩ :=
      accepted_range_contained_iff verified fits accepted settings {}
    obtain ⟨u, found, rfl⟩ := table k lowered
    rw [hrange, found] at test
    obtain ⟨inside, outside⟩ := Bool.and_eq_true_iff.mp test
    refine ⟨db, settings, k, spec, u, range, verified, lowered, accepted, found, hrange,
      sensitivities, Bool.eq_false_iff.mpr ?_⟩
    intro contained
    have member : u.range.high.cats.has 0 = true := (iff.mp contained).high 0 inside
    simp [member] at outside
  · cases test

end EvaluatedDatabase

end CilPolicy
