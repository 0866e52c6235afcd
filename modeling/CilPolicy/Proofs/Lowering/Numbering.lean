import CilPolicy.Lowering.Symbols
import CilPolicy.Proofs.Table.Symbol
import CilPolicy.Proofs.Verification.Passed

/-!
# Kernel values and what they stand for

A kernel value stands for a declaration, and the value of a type covers the concrete
types that the declaration stands for. The rows of the attribute map hold exactly the
values that cover a type, whether attributes are kept or expanded, and the values that
an access rule is given for a type cover exactly its concrete types.
-/

namespace CilPolicy

/-! ### Numberings -/

namespace Numbering

variable {n : Numbering} {id : Id} {v : Nat}

theorem value?_eq_some : n.value? id = some v ↔ ∃ i, n.ids.idxOf? id = some i ∧ i + 1 = v :=
  Option.map_eq_some_iff

theorem id?_of_value? (h : n.value? id = some v) : n.id? v = some id := by
  obtain ⟨i, hi, rfl⟩ := value?_eq_some.mp h
  obtain ⟨hlt, heq, _⟩ := List.idxOf?_eq_some_iff.mp hi
  exact List.getElem?_eq_some_iff.mpr ⟨hlt, heq⟩

/-- A value is given to one declaration only. -/
theorem value?_injective {other : Id} (h : n.value? id = some v) (hother : n.value? other = some v) :
    id = other :=
  Option.some.inj ((id?_of_value? h).symm.trans (id?_of_value? hother))

theorem value?_pos (h : n.value? id = some v) : 0 < v := by
  obtain ⟨i, _, rfl⟩ := value?_eq_some.mp h
  exact Nat.succ_pos i

theorem exists_value? (h : id ∈ n.ids) : ∃ v, n.value? id = some v := by
  cases hi : n.ids.idxOf? id with
  | none => exact absurd h (List.idxOf?_eq_none_iff.mp hi)
  | some i => exact ⟨i + 1, value?_eq_some.mpr ⟨i, hi, rfl⟩⟩

theorem mem_of_id? (h : n.id? v = some id) : id ∈ n.ids := by
  cases v with
  | zero => cases h
  | succ i => exact List.mem_of_getElem? h

theorem value?_of_id? (nodup : n.ids.Nodup) (h : n.id? v = some id) : n.value? id = some v := by
  cases v with
  | zero => cases h
  | succ i =>
    obtain ⟨hlt, heq⟩ := List.getElem?_eq_some_iff.mp h
    refine value?_eq_some.mpr ⟨i, List.idxOf?_eq_some_iff.mpr ⟨hlt, heq, fun j hj same => ?_⟩, rfl⟩
    have := List.pairwise_iff_getElem.mp nodup j i (by omega) hlt hj
    exact this (same.trans heq.symm)

theorem mem_ofRegistry {α : Type} {r : Registry α} {test : Id → α → Bool} :
    id ∈ (ofRegistry r test).ids ↔ ∃ v, r.value? id = some v ∧ test id v = true := by
  rw [ofRegistry, List.mem_map]
  constructor
  · rintro ⟨⟨id, d⟩, hmem, rfl⟩
    obtain ⟨hlisted, htest⟩ := List.mem_filter.mp hmem
    exact ⟨d.value, Registry.value?_eq_some.mpr ⟨d, Registry.mem_indexed.mp hlisted, rfl⟩, htest⟩
  · rintro ⟨v, hv, htest⟩
    obtain ⟨d, hd, rfl⟩ := Registry.value?_eq_some.mp hv
    exact ⟨(id, d), List.mem_filter.mpr ⟨Registry.mem_indexed.mpr hd, htest⟩, rfl⟩

/-- What has a value is declared. -/
theorem exists_get? {α : Type} {r : Registry α} {test : Id → α → Bool}
    (h : (ofRegistry r test).value? id = some v) : ∃ d, r.get? id = some d := by
  obtain ⟨_, hvalue, _⟩ := mem_ofRegistry.mp (mem_of_id? (id?_of_value? h))
  obtain ⟨d, hd, _⟩ := Registry.value?_eq_some.mp hvalue
  exact ⟨d, hd⟩

theorem nodup_ofRegistry {α : Type} (r : Registry α) (test : Id → α → Bool) :
    (ofRegistry r test).ids.Nodup := by
  have ids : r.indexed.map (·.1) = List.range r.toList.length := by
    rw [Registry.indexed, List.map_map, List.range_eq_range']
    exact List.zipIdx_map_snd 0 r.toList
  have sub : (ofRegistry r test).ids.Sublist (r.indexed.map (·.1)) :=
    List.Sublist.map _ List.filter_sublist
  rw [ids] at sub
  exact sub.nodup List.nodup_range

end Numbering

/-! ### Type values -/

namespace EvaluatedDatabase

/-- The type is concrete. -/
def IsConcrete (db : EvaluatedDatabase) (id : Id) : Prop :=
  db.types.test id (·.kind == .concrete) = true

instance (db : EvaluatedDatabase) (id : Id) : Decidable (db.IsConcrete id) :=
  inferInstanceAs (Decidable (_ = true))

/-- A rule with the source and the target speaks of the concrete types: each is one of
those that its side stands for, and for `self` the two are the same. -/
def Aims (db : EvaluatedDatabase) (source : Id) (target : RuleTarget) (s t : Id) : Prop :=
  s ∈ db.expandType source ∧
    match target with
    | .type id => t ∈ db.expandType id
    | .self => t = s

theorem Evaluated.concrete_of_aims {db : EvaluatedDatabase} (evaluated : db.Evaluated) {source s t : Id}
    {target : RuleTarget} (aims : db.Aims source target s t) : db.IsConcrete s ∧ db.IsConcrete t := by
  have concrete := evaluated.concrete_of_mem aims.1
  refine ⟨concrete, ?_⟩
  cases target with
  | type id => exact evaluated.concrete_of_mem aims.2
  | self => exact aims.2 ▸ concrete

end EvaluatedDatabase

namespace Lowering

/-- The numberings are those of the database. -/
structure Numbered (l : Lowering) : Prop where
  classes : l.classes = ⟨l.db.orders.classes.filter fun id => l.db.classes.test id (!·.isMap)⟩
  roles : l.roles = .ofRegistry l.db.roles fun _ r => !r.isAttribute
  types : l.types = .ofRegistry l.db.types fun id t =>
    t.kind == .concrete || l.db.isKept l.options.expandAttributes id
  users : l.users = .ofRegistry l.db.users fun _ u => !u.isAttribute
  sensitivities : l.sensitivities = ⟨l.db.orders.sensitivities⟩

theorem numbered_new (db : EvaluatedDatabase) (settings : Settings) (options : LoweringOptions) :
    (Lowering.new db settings options).Numbered :=
  ⟨rfl, rfl, rfl, rfl, rfl⟩

/-- The value stands for a type or attribute to which the concrete type belongs. -/
def Covers (l : Lowering) (v : Nat) (s : Id) : Prop :=
  ∃ id, l.types.id? v = some id ∧ s ∈ l.db.expandType id

variable {l : Lowering}

theorem Numbered.types_nodup (numbered : l.Numbered) : l.types.ids.Nodup := by
  rw [numbered.types]
  exact Numbering.nodup_ofRegistry _ _

theorem Numbered.mem_types (numbered : l.Numbered) {id : Id} :
    id ∈ l.types.ids ↔ l.db.IsConcrete id ∨ l.db.isKept l.options.expandAttributes id = true := by
  rw [numbered.types, Numbering.mem_ofRegistry]
  constructor
  · rintro ⟨t, ht, htest⟩
    rcases Bool.or_eq_true_iff.mp htest with concrete | kept
    · exact Or.inl (Registry.test_iff.mpr ⟨t, ht, concrete⟩)
    · exact Or.inr kept
  · rintro (concrete | kept)
    · obtain ⟨t, ht, htest⟩ := Registry.test_iff.mp concrete
      exact ⟨t, ht, by simp [htest]⟩
    · obtain ⟨t, ht, _⟩ := Registry.test_iff.mp (Bool.and_eq_true_iff.mp kept).1
      exact ⟨t, ht, by simp [kept]⟩

theorem Numbered.exists_typeValue (numbered : l.Numbered) {s : Id} (concrete : l.db.IsConcrete s) :
    ∃ v, l.types.value? s = some v :=
  Numbering.exists_value? (numbered.mem_types.mpr (Or.inl concrete))

/-- The value of a concrete type covers that type alone. -/
theorem covers_concrete (evaluated : l.db.Evaluated) {s s' : Id} {v : Nat}
    (concrete : l.db.IsConcrete s') (hv : l.types.value? s' = some v) : l.Covers v s ↔ s = s' := by
  rw [Covers, Numbering.id?_of_value? hv]
  constructor
  · rintro ⟨id, heq, hs⟩
    cases heq
    exact (evaluated.mem_expandType_concrete concrete).mp hs
  · rintro rfl
    exact ⟨s, rfl, (evaluated.mem_expandType_concrete concrete).mpr rfl⟩

theorem mem_concreteTypes (evaluated : l.db.Evaluated) {id : Id} {v : Nat} :
    v ∈ l.concreteTypes id ↔ ∃ s ∈ l.db.expandType id, l.types.value? s = some v := by
  rw [concreteTypes, List.mem_filterMap]
  simp only [BitSet.mem_toList (evaluated.expandType_wellFormed id)]

/-- Each concrete type has a value, which covers that type alone. -/
theorem exists_concreteTypes (numbered : l.Numbered) (evaluated : l.db.Evaluated) {id s : Id} :
    (∃ v ∈ l.concreteTypes id, l.Covers v s) ↔ s ∈ l.db.expandType id := by
  constructor
  · rintro ⟨v, hv, covers⟩
    obtain ⟨s', hs', hvalue⟩ := (mem_concreteTypes evaluated).mp hv
    exact (covers_concrete evaluated (evaluated.concrete_of_mem hs') hvalue).mp covers ▸ hs'
  · intro hs
    have concrete := evaluated.concrete_of_mem hs
    obtain ⟨v, hv⟩ := numbered.exists_typeValue concrete
    exact ⟨v, (mem_concreteTypes evaluated).mpr ⟨s, hs, hv⟩,
      (covers_concrete evaluated concrete hv).mpr rfl⟩

/-- Kept or expanded, the values of an access rule cover the types that it names. -/
theorem exists_ruleTypes (numbered : l.Numbered) (evaluated : l.db.Evaluated) {id s : Id} :
    (∃ v ∈ l.ruleTypes id, l.Covers v s) ↔ s ∈ l.db.expandType id := by
  rw [ruleTypes]
  split
  · rename_i whole
    simp only [Bool.and_eq_true] at whole
    obtain ⟨v, hv⟩ := Numbering.exists_value? (numbered.mem_types.mpr (Or.inr whole.1.1))
    rw [hv]
    simp only [Option.toList_some, List.mem_singleton, exists_eq_left, Covers,
      Numbering.id?_of_value? hv, Option.some.injEq, exists_eq_left']
  · exact exists_concreteTypes numbered evaluated

/-- The pairs of values of an access rule cover the pairs of types that it speaks of. -/
theorem exists_rulePairs (numbered : l.Numbered) (evaluated : l.db.Evaluated) {source s t : Id}
    {target : RuleTarget} :
    (∃ pair ∈ l.rulePairs source target, l.Covers pair.1 s ∧ l.Covers pair.2 t) ↔
      l.db.Aims source target s t := by
  cases target with
  | type target =>
    rw [EvaluatedDatabase.Aims, ← exists_ruleTypes numbered evaluated,
      ← exists_ruleTypes numbered evaluated]
    simp only [rulePairs, pairsWith, List.mem_flatMap, List.mem_map]
    constructor
    · rintro ⟨_, ⟨v, hv, w, hw, rfl⟩, hs, ht⟩
      exact ⟨⟨v, hv, hs⟩, ⟨w, hw, ht⟩⟩
    · rintro ⟨⟨v, hv, hs⟩, ⟨w, hw, ht⟩⟩
      exact ⟨(v, w), ⟨v, hv, w, hw, rfl⟩, hs, ht⟩
  | self =>
    simp only [rulePairs, pairsWith, List.mem_map, EvaluatedDatabase.Aims]
    constructor
    · rintro ⟨_, ⟨v, hv, rfl⟩, hs, ht⟩
      obtain ⟨s', hs', hvalue⟩ := (mem_concreteTypes evaluated).mp hv
      have concrete := evaluated.concrete_of_mem hs'
      cases (covers_concrete evaluated concrete hvalue).mp hs
      cases (covers_concrete evaluated concrete hvalue).mp ht
      exact ⟨hs', rfl⟩
    · rintro ⟨hs, rfl⟩
      obtain ⟨v, hv, covers⟩ := (exists_concreteTypes numbered evaluated).mpr hs
      exact ⟨(v, v), ⟨v, hv, rfl⟩, covers, covers⟩

/-! ### The attribute map -/

/-- The row of a concrete type has the values that cover it, each less one. -/
theorem mem_typeAttributes (numbered : l.Numbered) (evaluated : l.db.Evaluated) {s : Id}
    (concrete : l.db.IsConcrete s) {sv : Nat} (hsv : l.types.value? s = some sv) {bit : Nat} :
    bit ∈ l.typeAttributes.getD (sv - 1) ∅ ↔ l.Covers (bit + 1) s := by
  obtain ⟨i, hi, rfl⟩ := Numbering.value?_eq_some.mp hsv
  have hid : l.types.ids[i]? = some s := Numbering.id?_of_value? hsv
  have row : l.typeAttributes[i]? = some (.ofList (i :: ((l.types.ids.zipIdx.filter fun x =>
      l.db.types.test x.1 (·.isAttribute)).filter fun x =>
        (l.db.expandType x.1).has s).map (·.2))) := by
    simp only [typeAttributes, List.getElem?_map, List.getElem?_zipIdx, hid]
    simp
  rw [Nat.add_sub_cancel, List.getD_eq_getElem?_getD, row, Option.getD_some, BitSet.mem_ofList]
  simp only [List.mem_cons, List.mem_map, List.mem_filter, Prod.exists, exists_eq_right]
  constructor
  · rintro (rfl | ⟨id, ⟨listed, _⟩, member⟩)
    · exact ⟨s, hid, (evaluated.mem_expandType_concrete concrete).mpr rfl⟩
    · exact ⟨id, List.mem_zipIdx_iff_getElem?.mp listed, member⟩
  · rintro ⟨id, hbit, member⟩
    rcases numbered.mem_types.mp (Numbering.mem_of_id? hbit) with plain | kept
    · cases (evaluated.mem_expandType_concrete plain).mp member
      have same := (Numbering.value?_of_id? numbered.types_nodup hbit).symm.trans hsv
      exact Or.inl (Nat.succ.inj (Option.some.inj same))
    · refine Or.inr ⟨id, ⟨List.mem_zipIdx_iff_getElem?.mpr hbit, ?_⟩, member⟩
      exact (Bool.and_eq_true_iff.mp kept).1

/-! ### Classes -/

theorem Numbered.exists_classValue (numbered : l.Numbered) (placed : l.db.Placed) {cls : Id}
    {c : ClassInfo} (declared : l.db.classes.value? cls = some c) (kernel : c.isMap = false) :
    ∃ v, l.classes.value? cls = some v := by
  apply Numbering.exists_value?
  rw [numbered.classes]
  refine List.mem_filter.mpr ⟨placed.classes cls c declared kernel, ?_⟩
  exact Registry.test_iff.mpr ⟨c, declared, by simp [kernel]⟩

theorem Numbered.kernel_of_classValue (numbered : l.Numbered) {cls : Id} {v : Nat}
    (h : l.classes.value? cls = some v) : ∃ c, l.db.classes.value? cls = some c ∧ c.isMap = false := by
  have listed := Numbering.mem_of_id? (Numbering.id?_of_value? h)
  rw [numbered.classes] at listed
  obtain ⟨c, declared, kernel⟩ := Registry.test_iff.mp (List.mem_filter.mp listed).2
  exact ⟨c, declared, by simpa using kernel⟩

/-! ### Names -/

theorem mem_numbered {α : Type} {n : Numbering} {r : Registry α} {id : Id} {v : Nat} {d : Declared α}
    (hv : n.value? id = some v) (hd : r.get? id = some d) : (v, id, d) ∈ numbered n r := by
  obtain ⟨i, hi, rfl⟩ := Numbering.value?_eq_some.mp hv
  have hid : n.ids[i]? = some id := Numbering.id?_of_value? hv
  refine List.mem_filterMap.mpr ⟨(id, i), List.mem_zipIdx_iff_getElem?.mpr hid, ?_⟩
  exact congrArg (Option.map _) hd

theorem typeValue?_concrete {s : Id} (concrete : l.db.IsConcrete s) :
    l.typeValue? s = l.types.value? s := by
  obtain ⟨t, ht, kind⟩ := Registry.test_iff.mp concrete
  rw [typeValue?]
  split
  · rename_i h
    cases ht.symm.trans h
    cases kind
  · rfl

/-- A concrete type is found under its name, with its value. -/
theorem find?_typeSymbols {types : SymbolTable TypeDatum} (run : l.typeSymbols = .ok types) {s : Id}
    (concrete : l.db.IsConcrete s) {sv : Nat} (hsv : l.types.value? s = some sv) :
    ∃ datum, types.find? (l.db.types.nameOf s) = some datum ∧ datum.flavor = .concrete ∧ datum.value = sv := by
  obtain ⟨t, ht, kind⟩ := Registry.test_iff.mp concrete
  obtain ⟨d, hd, rfl⟩ := Registry.value?_eq_some.mp ht
  have kind : d.value.kind = .concrete := by simpa using kind
  have hvalue : l.typeValue? s = some sv := (typeValue?_concrete concrete).trans hsv
  have hname : l.db.types.nameOf s = d.name := by simp [Registry.nameOf, hd]
  refine ⟨⟨sv, .concrete, (d.value.bounds.bind l.typeValue?).getD 0⟩, ?_, rfl, rfl⟩
  rw [hname, SymbolTable.find?_ofList run, List.mem_filterMap]
  refine ⟨(s, d), Registry.mem_indexed.mpr hd, ?_⟩
  simp only [typeDatum?, hvalue, kind, Option.map_some]

/-- A kernel class is found under its name, with its value. -/
theorem find?_classSymbols {classes : SymbolTable ClassDatum} (run : l.classSymbols = .ok classes)
    {cls : Id} {c : ClassInfo} (declared : l.db.classes.value? cls = some c) {v : Nat}
    (hv : l.classes.value? cls = some v) :
    ∃ datum, classes.find? (l.db.classes.nameOf cls) = some datum ∧ datum.value = v := by
  obtain ⟨d, hd, rfl⟩ := Registry.value?_eq_some.mp declared
  have hname : l.db.classes.nameOf cls = d.name := by simp [Registry.nameOf, hd]
  obtain ⟨symbols, hsymbols, run⟩ := bind_eq_ok.mp run
  obtain ⟨⟨name, datum⟩, hmem, hsymbol⟩ := exists_of_mapM hsymbols (mem_numbered hv hd)
  obtain ⟨permissions, _, heq⟩ := bind_eq_ok.mp hsymbol
  cases heq
  rw [hname]
  exact ⟨_, (SymbolTable.find?_ofList run).mpr hmem, rfl⟩

/-- What the entry of a user is made of. -/
theorem userSymbol_spec {v : Nat} {id : Id} {d : Declared UserInfo} {name : String} {u : UserDatum}
    (h : l.userSymbol v id d = .ok (name, u)) :
    name = d.name ∧ u.value = v ∧ u.roles = l.roleBits (l.db.userRoles.getD id ∅) ∧
      (∀ range ∈ d.value.range, l.evalRange range = .ok u.range) ∧
      ∀ level ∈ d.value.level, l.evalLevel level = .ok u.defaultLevel := by
  rw [userSymbol] at h
  dsimp only at h
  split at h
  all_goals
    obtain ⟨range, hrange, h⟩ := bind_eq_ok.mp h
    split at h
    all_goals
      obtain ⟨level, hlevel, h⟩ := bind_eq_ok.mp h
      cases h
      refine ⟨rfl, rfl, rfl, fun given hgiven => ?_, fun given hgiven => ?_⟩
      · simp_all [mapError_eq_ok]
      · simp_all [mapError_eq_ok]

end Lowering

end CilPolicy
