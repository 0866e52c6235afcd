import CilPolicy.Proofs.Lowering.Inside

/-!
# Values in the symbol tables

Each symbol table hands out the values from one on, without a gap and each to one entry,
in the order of the numbering from which all other parts of the policy take their values.
An alias has an entry when what it stands for has a value, and then has that value.
-/

namespace CilPolicy

/-- What the type stands for, when it is an alias. -/
def TypeInfo.standsFor (t : TypeInfo) : Option Id :=
  if t.isAlias then t.actual else none

def SensitivityInfo.standsFor (s : SensitivityInfo) : Option Id :=
  if s.isAlias then s.actual else none

def CategoryInfo.standsFor (c : CategoryInfo) : Option Id :=
  if c.kind == .aliasName then c.actual else none

/-! ### Tables that number their names -/

namespace SymbolTable

variable {α : Type}

/-- The primary entries have the values from one on, each once, and the names have theirs in
order. -/
structure Numbers (t : SymbolTable α) (primary : α → Bool) (value : α → Nat) (names : List String) :
    Prop where
  count : t.primaries = names.length
  dense : ((t.toList.filter fun e => primary e.2).map fun e => value e.2).Perm
    (List.range' 1 t.primaries)
  named : ∀ i name, names[i]? = some name →
    ∃ datum, t.find? name = some datum ∧ primary datum = true ∧ value datum = i + 1

/-- The aliases of the table are linked, and the two names of a link have one value. -/
structure Follows (t : SymbolTable α) (isAlias : α → Bool) (value : α → Nat)
    (links : List (String × String)) : Prop where
  linked : ∀ name datum, t.find? name = some datum → isAlias datum = true →
    ∃ actual, (name, actual) ∈ links
  values : ∀ name actual, (name, actual) ∈ links →
    ∃ datum entry, t.find? name = some datum ∧ isAlias datum = true ∧
      t.find? actual = some entry ∧ isAlias entry = false ∧ value datum = value entry

theorem numbers_ofList {bucketCount primaries : Nat} {symbols : List (String × α)} {t : SymbolTable α}
    (run : ofList bucketCount primaries symbols = .ok t) {primary : α → Bool} {value : α → Nat}
    {names : List String} (count : primaries = names.length)
    (values : (symbols.filter fun e => primary e.2).map (fun e => (e.1, value e.2)) = names.zipIdx 1) :
    t.Numbers primary value names := by
  obtain ⟨same, entries⟩ := ofList_perm run
  refine ⟨same.trans count, ?_, fun i name hname => ?_⟩
  · rw [same, count, ← List.zipIdx_map_snd 1 names, ← values, List.map_map]
    exact (entries.filter _).map _
  · have numbered : (name, i + 1) ∈ names.zipIdx 1 :=
      List.mk_mem_zipIdx_iff_le_and_getElem?_sub.mpr ⟨Nat.le_add_left 1 i, hname⟩
    rw [← values] at numbered
    obtain ⟨⟨name, datum⟩, listed, heq⟩ := List.mem_map.mp numbered
    obtain ⟨rfl, hvalue⟩ := Prod.mk.inj heq
    obtain ⟨listed, isPrimary⟩ := List.mem_filter.mp listed
    exact ⟨datum, (find?_ofList run).mpr listed, isPrimary, hvalue⟩

end SymbolTable

namespace Numbering

variable {α : Type} {n : Numbering} {r : Registry α}

/-- The names of the declarations, in the order of their values. -/
def names (n : Numbering) (r : Registry α) : List String :=
  n.ids.map r.nameOf

/-- Each alias of a declaration with a value, with the name of that declaration. -/
def links (n : Numbering) (r : Registry α) (actual : α → Option Id) : List (String × String) :=
  r.toList.filterMap fun d =>
    ((actual d.value).filter (n.ids.contains ·)).map fun a => (d.name, r.nameOf a)

theorem length_names : (n.names r).length = n.size :=
  List.length_map _

/-- A declaration is found under its name, with its value. -/
theorem find?_of_numbers {β : Type} {t : SymbolTable β} {primary : β → Bool} {value : β → Nat}
    (numbers : t.Numbers primary value (n.names r)) {id : Id} {v : Nat} (h : n.value? id = some v) :
    ∃ datum, t.find? (r.nameOf id) = some datum ∧ primary datum = true ∧ value datum = v := by
  obtain ⟨i, _, rfl⟩ := value?_eq_some.mp h
  have listed : n.ids[i]? = some id := id?_of_value? h
  refine numbers.named i (r.nameOf id) ?_
  rw [names, List.getElem?_map, listed, Option.map_some]

/-- The values of a numbering are those that the counter of a table hands out one after the other. -/
theorem values_reserve {β : Type} (nodup : n.ids.Nodup) (bucketCount : Nat) :
    n.ids.map n.value? = ((SymbolTable.new bucketCount : SymbolTable β).reserve n.size).1.map some := by
  rw [SymbolTable.reserve_eq]
  refine List.ext_getElem (by simp [size]) fun i inside _ => ?_
  rw [List.length_map] at inside
  have value : n.value? n.ids[i] = some (i + 1) :=
    value?_of_id? nodup (List.getElem?_eq_getElem inside)
  simp [value, SymbolTable.new, Nat.add_comm]

theorem mem_links {actual : α → Option Id} {name other : String} :
    (name, other) ∈ n.links r actual ↔ ∃ d ∈ r.toList, ∃ a v, actual d.value = some a ∧
      n.value? a = some v ∧ d.name = name ∧ r.nameOf a = other := by
  rw [links, List.mem_filterMap]
  constructor
  · rintro ⟨d, hd, heq⟩
    obtain ⟨a, ha, heq⟩ := Option.map_eq_some_iff.mp heq
    cases heq
    obtain ⟨found, listed⟩ := Option.filter_eq_some_iff.mp ha
    obtain ⟨v, hv⟩ := exists_value? (List.contains_iff_mem.mp listed)
    exact ⟨d, hd, a, v, found, hv, rfl, rfl⟩
  · rintro ⟨d, hd, a, v, found, hv, rfl, rfl⟩
    have listed := mem_of_id? (id?_of_value? hv)
    refine ⟨d, hd, ?_⟩
    simp [found, listed]

end Numbering

namespace Lowering

variable {l : Lowering} {k : KernelPolicy}

/-- The declarations of a numbering have their places as values. -/
theorem map_numbered {α : Type} {n : Numbering} {r : Registry α}
    (declared : ∀ id ∈ n.ids, ∃ v, r.value? id = some v) :
    (numbered n r).map (fun x => (x.2.2.name, x.1)) = (n.names r).zipIdx 1 := by
  rw [numbered, Numbering.names]
  suffices each : ∀ (ids : List Id) (start : Nat), (∀ id ∈ ids, ∃ v, r.value? id = some v) →
      ((ids.zipIdx start).filterMap fun x => (r.get? x.1).map fun d => (x.2 + 1, x.1, d)).map
        (fun x => (x.2.2.name, x.1)) = (ids.map r.nameOf).zipIdx (start + 1) from
    each n.ids 0 declared
  intro ids
  induction ids with
  | nil => simp
  | cons id rest ih =>
    intro start declared
    obtain ⟨v, hv⟩ := declared id List.mem_cons_self
    obtain ⟨d, hd, _⟩ := Registry.value?_eq_some.mp hv
    have name : r.nameOf id = d.name := by simp [Registry.nameOf, hd]
    have others := ih (start + 1) fun id hid => declared id (List.mem_cons_of_mem _ hid)
    simp [List.zipIdx_cons, hd, name, others]

/-! ### The eight tables -/

/-- Symbols of a numbering, none of which is an alias. -/
theorem numbers_of_map {α β : Type} {n : Numbering} {r : Registry α} {bucketCount : Nat}
    {symbols : List (String × β)} {t : SymbolTable β}
    (run : SymbolTable.ofList bucketCount n.size symbols = .ok t) {value : β → Nat}
    (declared : ∀ id ∈ n.ids, ∃ v, r.value? id = some v)
    (values : symbols.map (fun e => (e.1, value e.2)) = (numbered n r).map fun x => (x.2.2.name, x.1)) :
    t.Numbers (fun _ => true) value (n.names r) := by
  refine SymbolTable.numbers_ofList run Numbering.length_names.symm ?_
  rw [List.filter_true, values, map_numbered declared]

theorem declared_ofRegistry {α : Type} {r : Registry α} {test : Id → α → Bool} :
    ∀ id ∈ (Numbering.ofRegistry r test).ids, ∃ v, r.value? id = some v := by
  intro id hid
  obtain ⟨v, hv, _⟩ := Numbering.mem_ofRegistry.mp hid
  exact ⟨v, hv⟩

theorem classSymbols_number (numbered : l.Numbered) {classes : SymbolTable ClassDatum}
    (run : l.classSymbols = .ok classes) :
    classes.Numbers (fun _ => true) (·.value) (l.classes.names l.db.classes) := by
  obtain ⟨symbols, hsymbols, run⟩ := bind_eq_ok.mp run
  refine numbers_of_map run ?_ (map_of_mapM hsymbols ?_)
  · intro id hid
    rw [numbered.classes] at hid
    obtain ⟨c, hc, _⟩ := Registry.test_iff.mp (List.mem_filter.mp hid).2
    exact ⟨c, hc⟩
  · rintro ⟨v, id, d⟩ symbol h
    obtain ⟨permissions, _, h⟩ := bind_eq_ok.mp h
    cases h
    rfl

theorem roleSymbols_number (numbered : l.Numbered) {roles : SymbolTable RoleDatum}
    (run : l.roleSymbols = .ok roles) :
    roles.Numbers (fun _ => true) (·.value) (l.roles.names l.db.roles) := by
  refine numbers_of_map run ?_ (List.map_map ..)
  rw [numbered.roles]
  exact declared_ofRegistry

theorem userSymbols_number (numbered : l.Numbered) {users : SymbolTable UserDatum}
    (run : l.userSymbols = .ok users) :
    users.Numbers (fun _ => true) (·.value) (l.users.names l.db.users) := by
  obtain ⟨symbols, hsymbols, run⟩ := bind_eq_ok.mp run
  refine numbers_of_map (mapError_eq_ok.mp run) ?_ (map_of_mapM hsymbols ?_)
  · rw [numbered.users]
    exact declared_ofRegistry
  · rintro ⟨v, id, d⟩ ⟨name, u⟩ h
    obtain ⟨rfl, rfl, _⟩ := userSymbol_spec h
    rfl

theorem booleanSymbols_number (booleans : l.booleans = .ofRegistry l.db.booleans fun _ _ => true)
    {table : SymbolTable BooleanDatum} (run : l.booleanSymbols = .ok table) :
    table.Numbers (fun _ => true) (·.value) (l.booleans.names l.db.booleans) := by
  refine numbers_of_map run ?_ (List.map_map ..)
  rw [booleans]
  exact declared_ofRegistry

theorem commonSymbols_number {commons : SymbolTable CommonDatum} (run : l.commonSymbols = .ok commons) :
    commons.Numbers (fun _ => true) (·.value) (l.db.commons.toList.map (·.name)) := by
  obtain ⟨symbols, hsymbols, run⟩ := bind_eq_ok.mp run
  refine SymbolTable.numbers_ofList run ?_ ?_
  · rw [List.length_map]
    exact Array.length_toList.symm
  · have values : symbols.map (fun e => (e.1, e.2.value)) =
        l.db.commons.indexed.map fun x => (x.2.name, x.1 + 1) := by
      refine map_of_mapM hsymbols ?_
      rintro ⟨id, d⟩ symbol h
      obtain ⟨permissions, _, h⟩ := bind_eq_ok.mp h
      cases h
      rfl
    rw [List.filter_true, values, Registry.indexed, List.zipIdx_map, List.zipIdx_succ]
    simp

/-- The symbols of the aliases of declarations that have values. -/
def aliasSymbols {α β : Type} (n : Numbering) (r : Registry α) (actual : α → Option Id)
    (make : Id → Nat → β) : List (String × β) :=
  r.toList.filterMap fun d => (actual d.value).bind fun a => (n.value? a).map fun v => (d.name, make a v)

theorem mem_aliasSymbols {α β : Type} {n : Numbering} {r : Registry α} {actual : α → Option Id}
    {make : Id → Nat → β} {e : String × β} :
    e ∈ aliasSymbols n r actual make ↔ ∃ d ∈ r.toList, ∃ a v, actual d.value = some a ∧
      n.value? a = some v ∧ (d.name, make a v) = e := by
  simp only [aliasSymbols, List.mem_filterMap, Option.bind_eq_some_iff, Option.map_eq_some_iff,
    exists_and_left]

/-- Aliases follow what they stand for when their entries have those values. -/
theorem follows_of_entries {α β : Type} {n : Numbering} {r : Registry α} {t : SymbolTable β}
    {actual : α → Option Id} {isAlias : β → Bool} {value : β → Nat}
    (numbers : t.Numbers (fun d => !isAlias d) value (n.names r))
    (linked : ∀ name datum, t.find? name = some datum → isAlias datum = true →
      ∃ d ∈ r.toList, ∃ a v, actual d.value = some a ∧ n.value? a = some v ∧ d.name = name)
    (entries : ∀ d ∈ r.toList, ∀ a v, actual d.value = some a → n.value? a = some v →
      ∃ datum, t.find? d.name = some datum ∧ isAlias datum = true ∧ value datum = v) :
    t.Follows isAlias value (n.links r actual) where
  linked := by
    intro name datum found named
    obtain ⟨d, hd, a, v, ha, hv, rfl⟩ := linked name datum found named
    exact ⟨r.nameOf a, Numbering.mem_links.mpr ⟨d, hd, a, v, ha, hv, rfl, rfl⟩⟩
  values := by
    intro name other link
    obtain ⟨d, hd, a, v, ha, hv, rfl, rfl⟩ := Numbering.mem_links.mp link
    obtain ⟨datum, found, named, hvalue⟩ := entries d hd a v ha hv
    obtain ⟨entry, found', plain, hvalue'⟩ := Numbering.find?_of_numbers numbers hv
    exact ⟨datum, entry, found, named, found', by simpa using plain, hvalue.trans hvalue'.symm⟩

theorem follows_of_append {α β : Type} {n : Numbering} {r : Registry α} {bucketCount primaries : Nat}
    {symbols : List (String × β)} {actual : α → Option Id} {make : Id → Nat → β} {t : SymbolTable β}
    (run : SymbolTable.ofList bucketCount primaries (symbols ++ aliasSymbols n r actual make) = .ok t)
    {isAlias : β → Bool} {value : β → Nat}
    (numbers : t.Numbers (fun d => !isAlias d) value (n.names r))
    (plain : ∀ e ∈ symbols, isAlias e.2 = false) (named : ∀ a v, isAlias (make a v) = true)
    (values : ∀ a v, value (make a v) = v) : t.Follows isAlias value (n.links r actual) := by
  refine follows_of_entries numbers ?_ ?_
  · intro name datum found isNamed
    rcases List.mem_append.mp ((SymbolTable.find?_ofList run).mp found) with primary | listed
    · exact absurd isNamed (by simp [plain _ primary])
    · obtain ⟨d, hd, a, v, ha, hv, heq⟩ := mem_aliasSymbols.mp listed
      exact ⟨d, hd, a, v, ha, hv, congrArg Prod.fst heq⟩
  · intro d hd a v ha hv
    have listed : (d.name, make a v) ∈ aliasSymbols n r actual make :=
      mem_aliasSymbols.mpr ⟨d, hd, a, v, ha, hv, rfl⟩
    exact ⟨make a v, (SymbolTable.find?_ofList run).mpr (List.mem_append.mpr (Or.inr listed)),
      named a v, values a v⟩

theorem sensitivitySymbols_eq : l.sensitivitySymbols =
    SymbolTable.ofList SymbolKind.sensitivities.bucketCount l.sensitivities.size
      (((numbered l.sensitivities l.db.sensitivities).map fun x =>
          (x.2.2.name, ⟨false, ⟨x.1, l.db.sensitivityCategories.getD x.2.1 ∅⟩⟩))
        ++ aliasSymbols l.sensitivities l.db.sensitivities SensitivityInfo.standsFor
          fun a v => ⟨true, ⟨v, l.db.sensitivityCategories.getD a ∅⟩⟩) := by
  refine congrArg (fun aliases => SymbolTable.ofList _ _ (_ ++ aliases)) (congrArg (List.filterMap · _) ?_)
  funext d
  rw [SensitivityInfo.standsFor]
  cases d.value.isAlias with
  | false => rfl
  | true =>
    cases d.value.actual with
    | none => rfl
    | some a => exact (Option.map_eq_bind ..).symm

/-- A table of primary symbols, followed by aliases. -/
theorem numbers_of_append {α β : Type} {n : Numbering} {r : Registry α} {bucketCount : Nat}
    {symbols aliases : List (String × β)} {t : SymbolTable β}
    (run : SymbolTable.ofList bucketCount n.size (symbols ++ aliases) = .ok t) {isAlias : β → Bool}
    {value : β → Nat} (declared : ∀ id ∈ n.ids, ∃ v, r.value? id = some v)
    (values : symbols.map (fun e => (e.1, value e.2)) = (numbered n r).map fun x => (x.2.2.name, x.1))
    (plain : ∀ e ∈ symbols, isAlias e.2 = false) (others : ∀ e ∈ aliases, isAlias e.2 = true) :
    t.Numbers (fun d => !isAlias d) value (n.names r) := by
  refine SymbolTable.numbers_ofList run Numbering.length_names.symm ?_
  have kept : symbols.filter (fun e => !isAlias e.2) = symbols :=
    List.filter_eq_self.mpr fun e he => by simp [plain e he]
  have dropped : aliases.filter (fun e => !isAlias e.2) = [] :=
    List.filter_eq_nil_iff.mpr fun e he => by simp [others e he]
  rw [List.filter_append, kept, dropped, List.append_nil, values, map_numbered declared]

theorem sensitivitySymbols_number (numbered : l.Numbered) (orders : l.db.OrdersInside)
    {table : SymbolTable SensitivityDatum} (run : l.sensitivitySymbols = .ok table) :
    table.Numbers (fun d => !d.isAlias) (·.level.sens) (l.sensitivities.names l.db.sensitivities) := by
  rw [sensitivitySymbols_eq] at run
  refine numbers_of_append run ?_ (List.map_map ..) ?_ ?_
  · intro id hid
    rw [numbered.sensitivities] at hid
    obtain ⟨actual, h⟩ := orders.sensitivities id hid
    obtain ⟨s, hs, _⟩ := Option.map_eq_some_iff.mp h
    exact ⟨s, hs⟩
  · intro e he
    obtain ⟨x, _, rfl⟩ := List.mem_map.mp he
    rfl
  · intro e he
    obtain ⟨d, _, a, v, _, _, rfl⟩ := mem_aliasSymbols.mp he
    rfl

theorem sensitivitySymbols_follow (numbered : l.Numbered) (orders : l.db.OrdersInside)
    {table : SymbolTable SensitivityDatum} (run : l.sensitivitySymbols = .ok table) :
    table.Follows (·.isAlias) (·.level.sens)
      (l.sensitivities.links l.db.sensitivities SensitivityInfo.standsFor) := by
  have numbers := sensitivitySymbols_number numbered orders run
  rw [sensitivitySymbols_eq] at run
  refine follows_of_append run numbers ?_ (fun _ _ => rfl) (fun _ _ => rfl)
  intro e he
  obtain ⟨x, _, rfl⟩ := List.mem_map.mp he
  rfl

/-- The order of the categories as a numbering. -/
def categories (l : Lowering) : Numbering :=
  ⟨l.db.orders.categories⟩

theorem categorySymbols_eq : l.categorySymbols = SymbolTable.ofList SymbolKind.categories.bucketCount
    l.categories.size (((numbered l.categories l.db.categories).map fun x => (x.2.2.name, ⟨x.1, false⟩))
      ++ aliasSymbols l.categories l.db.categories CategoryInfo.standsFor fun _ v => ⟨v, true⟩) := by
  refine congrArg (fun aliases => SymbolTable.ofList _ _ (_ ++ aliases)) (congrArg (List.filterMap · _) ?_)
  funext d
  rw [CategoryInfo.standsFor]
  by_cases named : d.value.kind = .aliasName
  · simp only [named, bne_self_eq_false, beq_self_eq_true, if_true, Bool.false_eq_true, if_false]
    cases d.value.actual with
    | none => rfl
    | some a => exact (Option.map_eq_bind ..).symm
  · simp [named]

theorem categorySymbols_number (orders : l.db.OrdersInside) {table : SymbolTable CategoryDatum}
    (run : l.categorySymbols = .ok table) :
    table.Numbers (fun d => !d.isAlias) (·.value) (l.categories.names l.db.categories) := by
  rw [categorySymbols_eq] at run
  refine numbers_of_append run ?_ (List.map_map ..) ?_ ?_
  · intro id hid
    obtain ⟨actual, h⟩ := orders.categories id hid
    obtain ⟨c, hc, _⟩ := Option.map_eq_some_iff.mp h
    exact ⟨c, hc⟩
  · intro e he
    obtain ⟨x, _, rfl⟩ := List.mem_map.mp he
    rfl
  · intro e he
    obtain ⟨d, _, a, v, _, _, rfl⟩ := mem_aliasSymbols.mp he
    rfl

theorem categorySymbols_follow (orders : l.db.OrdersInside) {table : SymbolTable CategoryDatum}
    (run : l.categorySymbols = .ok table) :
    table.Follows (·.isAlias) (·.value) (l.categories.links l.db.categories CategoryInfo.standsFor) := by
  have numbers := categorySymbols_number orders run
  rw [categorySymbols_eq] at run
  refine follows_of_append run numbers ?_ (fun _ _ => rfl) (fun _ _ => rfl)
  intro e he
  obtain ⟨x, _, rfl⟩ := List.mem_map.mp he
  rfl

/-- With a numbering that names each declaration once, places and values are the same. -/
theorem map_values {n : Numbering} (nodup : n.ids.Nodup) {name : Id → String} :
    n.ids.map (fun id => (name id, (n.value? id).getD 0)) = (n.ids.map name).zipIdx 1 := by
  refine List.ext_getElem? fun i => ?_
  rw [List.getElem?_map, List.getElem?_zipIdx, List.getElem?_map]
  cases h : n.ids[i]? with
  | none => rfl
  | some id =>
    have value : n.value? id = some (i + 1) := Numbering.value?_of_id? nodup h
    simp [value, Nat.add_comm]

/-- The type has a value of its own. -/
def hasValue (l : Lowering) (id : Id) (t : TypeInfo) : Bool :=
  t.kind == .concrete || l.db.isKept l.options.expandAttributes id

theorem typeDatum?_primary (numbered : l.Numbered) {id : Id} {d : Declared TypeInfo}
    (hd : l.db.types.get? id = some d) :
    (((l.typeDatum? id d.value).map fun t => (d.name, t)).filter fun e => e.2.flavor != .aliasName).map
        (fun e => (e.1, e.2.value)) =
      if l.hasValue id d.value then some (d.name, (l.types.value? id).getD 0) else none := by
  have hvalue : l.db.types.value? id = some d.value := Registry.value?_eq_some.mpr ⟨d, hd, rfl⟩
  have listed : id ∈ l.types.ids ↔ l.hasValue id d.value = true := by
    rw [numbered.types, Numbering.mem_ofRegistry, hvalue]
    simp [hasValue]
  have known : l.hasValue id d.value = true → ∃ v, l.types.value? id = some v :=
    fun has => Numbering.exists_value? (listed.mpr has)
  have unknown : l.hasValue id d.value = false → l.types.value? id = none := by
    intro none
    rw [Numbering.value?, Option.map_eq_none_iff]
    exact List.idxOf?_eq_none_iff.mpr (by simp [listed, none])
  cases hkind : d.value.kind with
  | aliasName =>
    have without : l.hasValue id d.value = false := by
      simp [hasValue, hkind, EvaluatedDatabase.isKept, Registry.test, hvalue, TypeInfo.isAttribute]
    cases htype : l.typeValue? id <;> simp [typeDatum?, hkind, htype, without]
  | concrete =>
    have concrete : l.db.IsConcrete id := Registry.test_iff.mpr ⟨d.value, hvalue, by simp [hkind]⟩
    have has : l.hasValue id d.value = true := by simp [hasValue, hkind]
    obtain ⟨v, hv⟩ := known has
    simp [typeDatum?, hkind, typeValue?_concrete concrete, hv, has]
  | attr =>
    have own : l.typeValue? id = l.types.value? id := by
      rw [typeValue?, hvalue]
      split
      · rename_i heq
        rw [Option.some.inj heq] at hkind
        cases hkind
      · rfl
    cases has : l.hasValue id d.value with
    | false => simp [typeDatum?, own, unknown has]
    | true =>
      obtain ⟨v, hv⟩ := known has
      simp [typeDatum?, hkind, own, hv]

theorem typeSymbols_number (numbered : l.Numbered) {types : SymbolTable TypeDatum}
    (run : l.typeSymbols = .ok types) :
    types.Numbers (fun t => !(t.flavor == .aliasName)) (·.value) (l.types.names l.db.types) := by
  refine SymbolTable.numbers_ofList run Numbering.length_names.symm ?_
  rw [Numbering.names, ← map_values numbered.types_nodup, List.filter_filterMap, List.map_filterMap]
  have ids : l.types.ids = (l.db.types.indexed.filter fun x => l.hasValue x.1 x.2.value).map (·.1) := by
    rw [numbered.types]
    rfl
  conv_rhs => rw [ids, List.map_map, ← List.filterMap_eq_map, List.filterMap_filter]
  refine List.filterMap_congr fun x hx => ?_
  have hd := Registry.mem_indexed.mp hx
  have name : l.db.types.nameOf x.1 = x.2.name := by simp [Registry.nameOf, hd]
  refine (typeDatum?_primary numbered hd).trans ?_
  simp only [Function.comp_apply, name]

theorem typeValue?_alias {id : Id} {t : TypeInfo} (ht : l.db.types.value? id = some t)
    (kind : t.kind = .aliasName) : l.typeValue? id = t.actual.bind l.types.value? := by
  rw [typeValue?, ht]
  obtain ⟨_, _, _, _, _, _, _⟩ := t
  cases kind
  rfl

theorem typeSymbols_follow (numbered : l.Numbered) {types : SymbolTable TypeDatum}
    (run : l.typeSymbols = .ok types) :
    types.Follows (·.flavor == .aliasName) (·.value) (l.types.links l.db.types TypeInfo.standsFor) := by
  refine follows_of_entries (typeSymbols_number numbered run) ?_ ?_
  · intro name datum found named
    obtain ⟨⟨id, d⟩, listed, heq⟩ := List.mem_filterMap.mp ((SymbolTable.find?_ofList run).mp found)
    obtain ⟨_, hdatum, heq⟩ := Option.map_eq_some_iff.mp heq
    cases heq
    obtain ⟨v, hvalue, rfl⟩ := Option.map_eq_some_iff.mp hdatum
    have hd := Registry.mem_indexed.mp listed
    have kind : d.value.kind = .aliasName := by
      cases hkind : d.value.kind <;> simp [hkind] at named ⊢
    rw [typeValue?_alias (Registry.value?_eq_some.mpr ⟨d, hd, rfl⟩) kind] at hvalue
    obtain ⟨a, ha, hv⟩ := Option.bind_eq_some_iff.mp hvalue
    have stands : d.value.standsFor = some a := by simp [TypeInfo.standsFor, TypeInfo.isAlias, kind, ha]
    exact ⟨d, Registry.mem_toList_of_get? hd, a, v, stands, hv, rfl⟩
  · intro d hd a v ha hv
    obtain ⟨id, hd⟩ := Registry.exists_get?_of_mem hd
    rw [TypeInfo.standsFor] at ha
    split at ha
    · rename_i named
      have kind : d.value.kind = .aliasName := by simpa [TypeInfo.isAlias] using named
      have hvalue : l.typeValue? id = some v := by
        rw [typeValue?_alias (Registry.value?_eq_some.mpr ⟨d, hd, rfl⟩) kind, ha]
        exact hv
      refine ⟨⟨v, .aliasName, 0⟩, ?_, rfl, rfl⟩
      rw [SymbolTable.find?_ofList run, List.mem_filterMap]
      refine ⟨(id, d), Registry.mem_indexed.mpr hd, ?_⟩
      simp [typeDatum?, hvalue, kind]
    · cases ha

/-! ### All symbols -/

/-- Every symbol table numbers its declarations, and aliases follow what they stand for. -/
structure TablesNumber (l : Lowering) (k : KernelPolicy) : Prop where
  commons : k.commons.Numbers (fun _ => true) (·.value) (l.db.commons.toList.map (·.name))
  classes : k.classes.Numbers (fun _ => true) (·.value) (l.classes.names l.db.classes)
  roles : k.roles.Numbers (fun _ => true) (·.value) (l.roles.names l.db.roles)
  types : k.types.Numbers (fun t => !(t.flavor == .aliasName)) (·.value) (l.types.names l.db.types)
  users : k.users.Numbers (fun _ => true) (·.value) (l.users.names l.db.users)
  booleans : k.booleans.Numbers (fun _ => true) (·.value) (l.booleans.names l.db.booleans)
  sensitivities : k.sensitivities.Numbers (fun d => !d.isAlias) (·.level.sens)
    (l.sensitivities.names l.db.sensitivities)
  categories : k.categories.Numbers (fun d => !d.isAlias) (·.value)
    (l.categories.names l.db.categories)
  typeAliases : k.types.Follows (·.flavor == .aliasName) (·.value)
    (l.types.links l.db.types TypeInfo.standsFor)
  sensitivityAliases : k.sensitivities.Follows (·.isAlias) (·.level.sens)
    (l.sensitivities.links l.db.sensitivities SensitivityInfo.standsFor)
  categoryAliases : k.categories.Follows (·.isAlias) (·.value)
    (l.categories.links l.db.categories CategoryInfo.standsFor)

/-- The parts of a kernel policy that come from declarations and transitions. -/
structure Filled (l : Lowering) (k : KernelPolicy) : Prop where
  target : k.target = l.options.target
  commons : l.commonSymbols = .ok k.commons
  booleans : l.booleanSymbols = .ok k.booleans
  sensitivities : l.sensitivitySymbols = .ok k.sensitivities
  categories : l.categorySymbols = .ok k.categories
  roleTransitions : k.roleTransitions = l.rules.table.roleTransitions
  roleAllows : k.roleAllows = l.rules.table.roleAllows
  filenameTransitions : k.filenameTransitions = l.rules.table.named
  rangeTransitions : k.rangeTransitions = l.rules.table.rangeTransitions

theorem filled_of_policy (run : l.policy.Yields k) : l.Filled k := by
  obtain ⟨symbols⟩ := composed_of_policy run
  exact ⟨symbols.target, symbols.commons, symbols.booleans, symbols.sensitivities, symbols.categories, rfl, rfl, rfl, rfl⟩

theorem tablesNumber {db : EvaluatedDatabase} {settings : Settings} {options : LoweringOptions}
    (orders : db.OrdersInside) (built : (Lowering.new db settings options).Built k)
    (filled : (Lowering.new db settings options).Filled k) :
    (Lowering.new db settings options).TablesNumber k := by
  have numbered := numbered_new db settings options
  exact {
    commons := commonSymbols_number filled.commons
    classes := classSymbols_number numbered built.classes
    roles := roleSymbols_number numbered built.roles
    types := typeSymbols_number numbered built.types
    users := userSymbols_number numbered built.users
    booleans := booleanSymbols_number rfl filled.booleans
    sensitivities := sensitivitySymbols_number numbered orders filled.sensitivities
    categories := categorySymbols_number orders filled.categories
    typeAliases := typeSymbols_follow numbered built.types
    sensitivityAliases := sensitivitySymbols_follow numbered orders filled.sensitivities
    categoryAliases := categorySymbols_follow orders filled.categories }

end Lowering

end CilPolicy
