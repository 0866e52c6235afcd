import CilPolicy.Proofs.Evaluation.CategoryMeaning
import CilPolicy.Proofs.Lowering.Contexts
import CilPolicy.Proofs.Lowering.Symbols

/-!
# Levels in kernel values

The sensitivity of a level, wherever it stands, is the value that the table of levels has
under the name with which the policy speaks of it, and its bits are the values, less one,
of the categories that it selects by their names. Both hold for the levels of users, of
contexts and of range transitions, and the bits for the categories of a sensitivity too.
-/

namespace CilPolicy

/-- The table gives the value for the name. -/
def SymbolTable.Gives {α : Type} (t : SymbolTable α) (value : α → Nat) (name : String) (v : Nat) : Prop :=
  ∃ datum, t.find? name = some datum ∧ value datum = v

theorem SymbolTable.Gives.unique {α : Type} {t : SymbolTable α} {value : α → Nat} {name : String} {v w : Nat}
    (first : t.Gives value name v) (second : t.Gives value name w) : v = w := by
  obtain ⟨datum, found, rfl⟩ := first
  obtain ⟨other, found', rfl⟩ := second
  cases found.symm.trans found'
  rfl

theorem Numbering.gives_of_numbers {α β : Type} {n : Numbering} {r : Registry α} {t : SymbolTable β}
    {primary : β → Bool} {value : β → Nat} (numbers : t.Numbers primary value (n.names r)) {id : Id} {v : Nat}
    (h : n.value? id = some v) : t.Gives value (r.nameOf id) v := by
  obtain ⟨datum, found, _, same⟩ := find?_of_numbers numbers h
  exact ⟨datum, found, same⟩

namespace KernelPolicy

/-- The value is that of some category. -/
def IsCategory (k : KernelPolicy) (v : Nat) : Prop :=
  ∃ name, k.categories.Gives (·.value) name v

/-- The meaning is one in the values that the table of categories gives for their names. -/
def CategoriesMean (k : KernelPolicy) (db : EvaluatedDatabase) (means : Id → Nat → Prop) : Prop :=
  db.CategoryMeaning k.IsCategory (fun id => k.categories.Gives (·.value) (db.categories.nameOf id)) means

section

variable (k : KernelPolicy) (db : EvaluatedDatabase) (means : Id → Nat → Prop)

/-- The level has the value of its sensitivity, and a bit for each category that it selects. -/
structure SpellsLevel (spec : LevelSpec Id) (level : Level) : Prop where
  sensitivity : k.sensitivities.Gives (·.level.sens) (db.sensitivities.nameOf spec.sensitivity) level.sens
  categories : ∀ n, n ∈ level.cats ↔ ∃ e ∈ spec.categories, e.Selects k.IsCategory means (n + 1)

/-- The same of the level that is named or given. -/
def SpellsLevelArg (level : LevelArg Id) (value : Level) : Prop :=
  ∃ spec, db.levelSpec? level = some spec ∧ k.SpellsLevel db means spec value

def SpellsRange (range : RangeArg Id) (value : LevelRange) : Prop :=
  ∃ spec, db.rangeSpec? range = some spec ∧
    k.SpellsLevelArg db means spec.low value.low ∧ k.SpellsLevelArg db means spec.high value.high

/-- Each part of the context has the value of what it is named with. -/
structure SpellsContext (spec : ContextSpec Id) (c : Context) : Prop where
  user : k.users.Gives (·.value) (db.users.nameOf spec.user) c.user
  role : k.roles.Gives (·.value) (db.roles.nameOf spec.role) c.role
  type : k.types.Gives (·.value) (db.types.nameOf spec.type) c.type
  range : k.mls = true → k.SpellsRange db means spec.range c.range

def SpellsContextArg (context : ContextArg Id) (c : Context) : Prop :=
  ∃ spec, db.contextSpec? context = some spec ∧ k.SpellsContext db means spec c

end

end KernelPolicy

/-! ### Numbers of categories -/

namespace Lowering

variable {l : Lowering} {k : KernelPolicy} {means : Id → Nat → Prop} {depth : Id → Nat}

/-- What a verified policy and its kernel policy have, as far as values are concerned. -/
structure Settled (l : Lowering) (k : KernelPolicy) : Prop where
  numbered : l.Numbered
  passed : l.db.Passed
  closed : l.db.Closed
  orders : l.db.OrdersInside
  categories : l.db.CategoriesEvaluated
  built : l.Built k
  filled : l.Filled k
  tables : l.TablesNumber k

/-- Values of categories stand for places in their order. -/
theorem Settled.id?_of_gives (settled : l.Settled k) {name : String} {v : Nat}
    (h : k.categories.Gives (·.value) name v) : ∃ id, l.categories.id? v = some id := by
  obtain ⟨datum, found, rfl⟩ := h
  have run := settled.filled.categories
  rw [categorySymbols_eq] at run
  rcases List.mem_append.mp ((SymbolTable.find?_ofList run).mp found) with listed | listed
  · obtain ⟨⟨v, id, d⟩, hmem, heq⟩ := List.mem_map.mp listed
    cases heq
    exact ⟨id, (of_mem_numbered hmem).1⟩
  · obtain ⟨d, _, a, v, _, hv, heq⟩ := mem_aliasSymbols.mp listed
    cases heq
    exact ⟨a, Numbering.id?_of_value? hv⟩

theorem Settled.isCategory_iff (settled : l.Settled k) (n : Nat) :
    n < l.db.orders.categories.length ↔ k.IsCategory (n + 1) := by
  constructor
  · intro inside
    have listed := List.getElem?_eq_getElem inside
    obtain ⟨datum, found, _, hvalue⟩ := settled.tables.categories.named n
      (l.db.categories.nameOf l.db.orders.categories[n]) (by
        rw [Numbering.names, List.getElem?_map]
        exact congrArg (Option.map _) listed)
    exact ⟨_, datum, found, hvalue⟩
  · rintro ⟨name, h⟩
    obtain ⟨id, hid⟩ := settled.id?_of_gives h
    exact (List.getElem?_eq_some_iff.mp hid).1

/-- A category is placed where the table says, also under the name of an alias. -/
theorem Settled.gives_of_position (settled : l.Settled k) {id : Id} {n : Nat}
    (h : l.db.categoryPosition id = .ok n) : (∃ c, l.db.categories.value? id = some c ∧ c.kind ≠ .set) ∧
      k.categories.Gives (·.value) (l.db.categories.nameOf id) (n + 1) := by
  -- What stands in the order is a category itself.
  have plain : ∀ other, l.db.orders.categories.idxOf? other = some n →
      l.categories.value? other = some (n + 1) ∧
        ∃ c, l.db.categories.value? other = some c ∧ c.kind = .category := by
    intro other found
    have value : l.categories.value? other = some (n + 1) := Numbering.value?_eq_some.mpr ⟨n, found, rfl⟩
    obtain ⟨actual, link⟩ := settled.orders.categories other (Numbering.mem_of_id? (Numbering.id?_of_value? value))
    obtain ⟨c, hc, heq⟩ := Option.map_eq_some_iff.mp link
    exact ⟨value, c, hc, congrArg Prod.fst heq⟩
  rw [OrderedDatabase.categoryPosition] at h
  split at h
  · rename_i position found
    cases h
    split at found
    · rename_i c hc
      split at found
      · rename_i named
        have kind : c.kind = .aliasName := by simpa using named
        refine ⟨⟨c, hc, by simp [kind]⟩, ?_⟩
        cases hactual : c.actual with
        | none =>
          rw [hactual] at found
          obtain ⟨_, c', hc', kind'⟩ := plain id found
          cases hc.symm.trans hc'
          cases kind.symm.trans kind'
        | some a =>
          rw [hactual] at found
          obtain ⟨d, hd, rfl⟩ := Registry.value?_eq_some.mp hc
          have value := (plain a found).1
          have stands : d.value.standsFor = some a := by simp [CategoryInfo.standsFor, kind, hactual]
          have name : l.db.categories.nameOf id = d.name := by simp [Registry.nameOf, hd]
          have link := Numbering.mem_links.mpr
            ⟨d, Registry.mem_toList_of_get? hd, a, _, stands, value, name.symm, rfl⟩
          obtain ⟨datum, entry, found, _, found', _, same⟩ := settled.tables.categoryAliases.values _ _ link
          have actual := Numbering.gives_of_numbers settled.tables.categories value
          exact ⟨datum, found, same.trans (SymbolTable.Gives.unique ⟨entry, found', rfl⟩ actual)⟩
      · obtain ⟨value, c', hc', kind⟩ := plain id found
        exact ⟨⟨c', hc', by simp [kind]⟩, Numbering.gives_of_numbers settled.tables.categories value⟩
    · obtain ⟨value, c', hc', kind⟩ := plain id found
      exact ⟨⟨c', hc', by simp [kind]⟩, Numbering.gives_of_numbers settled.tables.categories value⟩
  · cases h

theorem Settled.numberedBy (settled : l.Settled k) (meaning : k.CategoriesMean l.db means) :
    l.db.NumberedBy k.IsCategory means where
  whole := settled.isCategory_iff
  placed := by
    intro id n h v
    obtain ⟨⟨c, hc, plain⟩, gives⟩ := settled.gives_of_position h
    rw [meaning.category id c hc plain v]
    exact ⟨fun other => other.unique gives, fun same => same ▸ gives⟩

theorem Settled.knownMeans (settled : l.Settled k) (nested : l.db.Nested depth)
    (meaning : k.CategoriesMean l.db means) : OrderedDatabase.KnownMeans means l.db.categorySets := by
  rw [settled.categories.sets]
  exact OrderedDatabase.knownMeans_evaluateCategorySets nested meaning (settled.numberedBy meaning)

/-! ### Levels -/

/-- The value of a sensitivity is that of its entry. -/
theorem Settled.gives_sensitivity (settled : l.Settled k) {id : Id}
    (sensitivity : l.db.signature.IsSensitivity id) :
    k.sensitivities.Gives (·.level.sens) (l.db.sensitivities.nameOf id)
      ((l.sensitivities.value? id).getD 0) := by
  obtain ⟨actual, link⟩ := sensitivity
  obtain ⟨s, hs, heq⟩ := Option.map_eq_some_iff.mp link
  have listed : id ∈ l.sensitivities.ids := by
    rw [settled.numbered.sensitivities]
    exact settled.passed.placed.sensitivities id ⟨s, hs, congrArg Prod.fst heq⟩
  obtain ⟨v, hv⟩ := Numbering.exists_value? listed
  rw [hv]
  exact Numbering.gives_of_numbers settled.tables.sensitivities hv

theorem Settled.spellsLevelArg (settled : l.Settled k) (nested : l.db.Nested depth)
    (meaning : k.CategoriesMean l.db means) {level : LevelArg Id} (within : l.db.signature.LevelWithin level)
    {v : LevelValue} (h : l.db.evalLevel level = .ok v) : k.SpellsLevelArg l.db means level (l.level v) := by
  rw [EvaluatedDatabase.evalLevel] at h
  split at h
  · cases h
  · rename_i sensitivity hspec
    cases h
    exact ⟨_, hspec, settled.gives_sensitivity (settled.closed.levelSpec within hspec).sensitivity,
      by simp [Lowering.level]⟩
  · rename_i sensitivity e hspec
    obtain ⟨categories, hcategories, h⟩ := bind_eq_ok.mp h
    cases h
    obtain ⟨_, selected⟩ := OrderedDatabase.places_categoryBits nested meaning
      (settled.numberedBy meaning) (settled.knownMeans nested meaning) hcategories
    refine ⟨_, hspec, settled.gives_sensitivity (settled.closed.levelSpec within hspec).sensitivity, ?_⟩
    exact fun n => (selected n).trans (by simp)

theorem Settled.spellsRange (settled : l.Settled k) (nested : l.db.Nested depth)
    (meaning : k.CategoriesMean l.db means) (mls : l.settings.mls = true) {range : RangeArg Id}
    (within : l.db.signature.RangeWithin range) {r : LevelRange} (h : l.evalRange range = .ok r) :
    k.SpellsRange l.db means range r := by
  rw [Lowering.evalRange, if_pos mls] at h
  obtain ⟨levels, hlevels, rfl⟩ := map_eq_ok.mp h
  rw [EvaluatedDatabase.evalRange] at hlevels
  split at hlevels
  · cases hlevels
  · rename_i low high hspec
    obtain ⟨first, hfirst, hlevels⟩ := bind_eq_ok.mp hlevels
    obtain ⟨second, hsecond, hlevels⟩ := bind_eq_ok.mp hlevels
    cases hlevels
    obtain ⟨lowWithin, highWithin⟩ := settled.closed.rangeSpec within hspec
    exact ⟨_, hspec, settled.spellsLevelArg nested meaning lowWithin hfirst,
      settled.spellsLevelArg nested meaning highWithin hsecond⟩

theorem Settled.spellsContext (settled : l.Settled k) (nested : l.db.Nested depth)
    (meaning : k.CategoriesMean l.db means) {context : ContextArg Id}
    (within : l.db.signature.ContextWithin context) {c : Context} (lowered : l.LowersContext context c) :
    k.SpellsContextArg l.db means context c := by
  obtain ⟨location, h⟩ := lowered
  obtain ⟨spec, hspec, huser, hrole, htype, hrange⟩ := context_ok h
  have spelled := settled.closed.contextSpec within hspec
  obtain ⟨actual, link⟩ := spelled.type
  obtain ⟨t, ht, heq⟩ := Option.map_eq_some_iff.mp link
  have kind : t.kind = .concrete := congrArg Prod.fst heq
  have concrete : l.db.IsConcrete spec.type := Registry.test_iff.mpr ⟨t, ht, by simp [kind]⟩
  rw [typeValue?_concrete concrete] at htype
  refine ⟨spec, hspec, ?_, ?_, ?_, fun mls => ?_⟩
  · exact Numbering.gives_of_numbers settled.tables.users huser
  · exact Numbering.gives_of_numbers settled.tables.roles hrole
  · exact Numbering.gives_of_numbers settled.tables.types htype
  · exact settled.spellsRange nested meaning (settled.built.mls ▸ mls) spelled.range hrange

end Lowering

namespace KernelPolicy

/-- The levels of users, contexts and sensitivities spell what their source says. -/
structure SpellsLevels (k : KernelPolicy) (db : EvaluatedDatabase) (means : Id → Nat → Prop) : Prop where
  users : k.mls = true → ∀ name datum, k.users.find? name = some datum → ∃ id u range level,
    db.users.value? id = some u ∧ db.users.nameOf id = name ∧
    u.range = some range ∧ k.SpellsRange db means range datum.range ∧
    u.level = some level ∧ k.SpellsLevelArg db means level datum.defaultLevel
  sids : ∀ sid ∈ k.objects.sids, ∃ id context, db.sids.value? id = some (some context) ∧
    db.sids.nameOf id = sid.name ∧ k.SpellsContextArg db means context sid.context
  sidsGiven : ∀ id context, db.sids.value? id = some (some context) → ∃ sid ∈ k.objects.sids,
    db.sids.nameOf id = sid.name ∧ k.SpellsContextArg db means context sid.context
  objects : k.objects.From (k.SpellsContextArg db means) (db.labels.usedBy k.target)
  genfs : MadeFrom (k.SpellsContextArg db means) db.labels.genfs
    (fun s c => (s.filesystem, ⟨s.path, 0, c⟩)) (k.genfs.flatMap Genfs.labels)
  sensitivities : ∀ name datum, k.sensitivities.find? name = some datum → ∃ id d,
    db.sensitivities.get? id = some d ∧ k.sensitivities.Gives (·.level.sens) d.name datum.level.sens ∧
    ∀ n, n ∈ datum.level.cats ↔ ∃ e ∈ d.value.categories, e.Selects k.IsCategory means (n + 1)

end KernelPolicy

namespace Lowering

variable {l : Lowering} {k : KernelPolicy} {means : Id → Nat → Prop} {depth : Id → Nat}

/-- A user that is no attribute has a range and a level. -/
theorem Settled.exists_level (settled : l.Settled k) {user : Id} {d : Declared UserInfo}
    (hd : l.db.users.get? user = some d) (plain : d.value.isAttribute = false) :
    ∃ range level, d.value.range = some range ∧ d.value.level = some level := by
  have listed : (user, d) ∈ l.db.users.indexed.filter (!·.2.value.isAttribute) :=
    List.mem_filter.mpr ⟨Registry.mem_indexed.mpr hd, by simp [plain]⟩
  have silent := List.flatMap_eq_nil_iff.mp settled.passed.users (user, d) listed
  simp only [List.append_eq_nil_iff] at silent
  obtain ⟨⟨leveled, ranged⟩, _⟩ := silent
  cases hlevel : d.value.level with
  | none => simp [hlevel] at leveled
  | some level =>
    cases hrange : d.value.range with
    | none => simp [hrange] at ranged
    | some range => exact ⟨range, level, rfl, rfl⟩

theorem Settled.spellsUser (settled : l.Settled k) (nested : l.db.Nested depth)
    (meaning : k.CategoriesMean l.db means) (mls : k.mls = true) {name : String} {datum : UserDatum}
    (found : k.users.find? name = some datum) : ∃ id u range level,
      l.db.users.value? id = some u ∧ l.db.users.nameOf id = name ∧
      u.range = some range ∧ k.SpellsRange l.db means range datum.range ∧
      u.level = some level ∧ k.SpellsLevelArg l.db means level datum.defaultLevel := by
  have mls : l.settings.mls = true := settled.built.mls ▸ mls
  obtain ⟨symbols, hsymbols, run⟩ := bind_eq_ok.mp settled.built.users
  obtain ⟨⟨v, id, d⟩, hmem, hsymbol⟩ :=
    mem_of_mapM hsymbols ((SymbolTable.find?_ofList (mapError_eq_ok.mp run)).mp found)
  obtain ⟨rfl, _, _, ranges, levels⟩ := userSymbol_spec hsymbol
  obtain ⟨hid, hd⟩ := of_mem_numbered hmem
  have hu : l.db.users.value? id = some d.value := Registry.value?_eq_some.mpr ⟨d, hd, rfl⟩
  have listed := Numbering.mem_of_id? hid
  rw [settled.numbered.users, Numbering.mem_ofRegistry] at listed
  obtain ⟨u, hu', plain⟩ := listed
  cases hu.symm.trans hu'
  obtain ⟨range, level, hrange, hlevel⟩ := settled.exists_level hd (by simpa using plain)
  have within := settled.closed.within.users id d.value hu
  have evaluated := levels level hlevel
  rw [Lowering.evalLevel, if_pos mls] at evaluated
  obtain ⟨lv, hlv, heq⟩ := map_eq_ok.mp evaluated
  refine ⟨id, d.value, range, level, hu, by simp [Registry.nameOf, hd], hrange, ?_, hlevel, ?_⟩
  · exact settled.spellsRange nested meaning mls (within.range range hrange) (ranges range hrange)
  · exact heq ▸ settled.spellsLevelArg nested meaning (within.level level hlevel) hlv

/-- An alias may be used with the categories of the sensitivity that has its value. -/
theorem Settled.spellsSensitivity (settled : l.Settled k) (nested : l.db.Nested depth)
    (meaning : k.CategoriesMean l.db means) {name : String} {datum : SensitivityDatum}
    (found : k.sensitivities.find? name = some datum) : ∃ id d,
      l.db.sensitivities.get? id = some d ∧ k.sensitivities.Gives (·.level.sens) d.name datum.level.sens ∧
      ∀ n, n ∈ datum.level.cats ↔ ∃ e ∈ d.value.categories, e.Selects k.IsCategory means (n + 1) := by
  have selected : ∀ id d, l.db.sensitivities.get? id = some d →
      ∀ n, n ∈ l.db.sensitivityCategories.getD id ∅ ↔
        ∃ e ∈ d.value.categories, e.Selects k.IsCategory means (n + 1) := by
    intro id d hd
    obtain ⟨same, done⟩ := settled.categories.sensitivities id d hd
    rw [same]
    exact (OrderedDatabase.places_evaluateSensitivity nested meaning (settled.numberedBy meaning)
      (settled.knownMeans nested meaning) done).2
  have run := settled.filled.sensitivities
  rw [sensitivitySymbols_eq] at run
  rcases List.mem_append.mp ((SymbolTable.find?_ofList run).mp found) with listed | listed
  · obtain ⟨⟨v, id, d⟩, hmem, heq⟩ := List.mem_map.mp listed
    have hd := (of_mem_numbered hmem).2
    cases heq
    exact ⟨id, d, hd, ⟨_, found, rfl⟩, selected id d hd⟩
  · obtain ⟨d, _, a, v, _, hv, heq⟩ := mem_aliasSymbols.mp listed
    cases heq
    have listed := Numbering.mem_of_id? (Numbering.id?_of_value? hv)
    rw [settled.numbered.sensitivities] at listed
    obtain ⟨actual, link⟩ := settled.orders.sensitivities a listed
    obtain ⟨s, hs, _⟩ := Option.map_eq_some_iff.mp link
    obtain ⟨d', hd', rfl⟩ := Registry.value?_eq_some.mp hs
    have gives := Numbering.gives_of_numbers settled.tables.sensitivities hv
    have name : l.db.sensitivities.nameOf a = d'.name := by simp [Registry.nameOf, hd']
    exact ⟨a, d', hd', name ▸ gives, selected a d' hd'⟩

theorem Settled.spellsLevels (settled : l.Settled k) (nested : l.db.Nested depth)
    (meaning : k.CategoriesMean l.db means) : k.SpellsLevels l.db means where
  users mls _ _ found := settled.spellsUser nested meaning mls found
  sids := by
    intro sid hsid
    obtain ⟨id, location, context, hvalue, name, h⟩ :=
      initialSids_come (objects_from settled.built.objects).1 sid hsid
    have within := settled.closed.within.sids id (some context) hvalue context rfl
    exact ⟨id, context, hvalue, name, settled.spellsContext nested meaning within ⟨location, h⟩⟩
  sidsGiven := by
    intro id context hvalue
    obtain ⟨sid, hsid, location, name, h⟩ :=
      exists_initialSid (objects_from settled.built.objects).1 settled.passed.placed hvalue
    have within := settled.closed.within.sids id (some context) hvalue context rfl
    exact ⟨sid, hsid, name, settled.spellsContext nested meaning within ⟨location, h⟩⟩
  objects := by
    rw [settled.filled.target]
    exact (objects_from settled.built.objects).2.imp (settled.closed.within.labels.usedBy _)
      fun _ _ within lowered => settled.spellsContext nested meaning within lowered
  genfs := (genfs_from settled.built.genfs).imp settled.closed.within.labels.genfs
    fun _ _ within lowered => settled.spellsContext nested meaning within lowered
  sensitivities _ _ found := settled.spellsSensitivity nested meaning found

end Lowering

end CilPolicy
