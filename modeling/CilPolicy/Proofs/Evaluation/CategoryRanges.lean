import CilPolicy.Proofs.BitSet.Refinement
import CilPolicy.Proofs.Database.Origins
import CilPolicy.Proofs.Evaluation.CategoryMeaning
import CilPolicy.Proofs.Verification.Inside

/-!
# Ranges of categories that run backwards

A category expression of a database that is in order has positions, unless it has a range whose
first category comes after its last in the order, itself or through the sets that it names. The
positions are those that the expression denotes among all ordered categories. It makes no
difference which of the sets have been evaluated before.
-/

namespace CilPolicy

/-! ### Counting from one -/

/-- The numbers that come after those with the property. -/
def Following (p : Nat → Prop) : Nat → Prop
  | 0 => False
  | n + 1 => p n

section Following

variable {whole : Nat → Prop} {means : Id → Nat → Prop}

theorem Operator.denotes_following (op : Operator) (ps : List (Nat → Prop)) :
    op.Denotes (Following whole) (ps.map Following) = Following (op.Denotes whole ps) := by
  funext n
  apply propext
  cases n with
  | succ n =>
    rw [← op.denotes_succ, List.map_map]
    exact iff_of_eq (congrArg (fun ps => op.Denotes whole ps n) (List.map_id ps))
  | zero =>
    have union : ¬ ∃ a ∈ ps.map Following, a 0 := by simp [Following]
    refine iff_of_false ?_ id
    match op, ps, union with
    | .all, _, _ => exact id
    | .not, [_], _ => exact fun h => h.1
    | .and, [_, _], _ => exact fun h => h.1
    | .or, [_, _], _ => exact fun h => h.elim id id
    | .xor, [_, _], _ => exact fun h => h.2
    | .not, [], union | .not, _ :: _ :: _, union => exact union
    | .and, [], union | .and, [_], union | .and, _ :: _ :: _ :: _, union => exact union
    | .or, [], union | .or, [_], union | .or, _ :: _ :: _ :: _, union => exact union
    | .xor, [], union | .xor, [_], union | .xor, _ :: _ :: _ :: _, union => exact union
    | .range, _, union | .eq, _, union | .neq, _, union => exact union

namespace Expr

mutual

/-- It does not matter whether numbers are counted from zero or from one. -/
theorem selects_following : (e : Expr Id) →
    e.Selects (Following whole) (fun id => Following (means id)) = Following (e.Selects whole means)
  | item id => rfl
  | list members => by
    rw [Selects, Selects, selections_following members]
    funext n
    cases n <;> simp [Following]
  | apply op operands => by
    by_cases range : op = .range
    · subst range
      unfold Selects
      split
      · funext n
        apply propext
        cases n with
        | zero =>
          refine iff_of_false ?_ id
          rintro ⟨a, b, low, _, le, _⟩
          obtain rfl := Nat.le_zero.mp le
          exact low
        | succ n =>
          constructor
          · rintro ⟨_ | a, _ | b, low, high, le, ge⟩
            · exact low.elim
            · exact low.elim
            · exact high.elim
            · exact ⟨a, b, low, high, by omega, by omega⟩
          · rintro ⟨a, b, low, high, le, ge⟩
            exact ⟨a + 1, b + 1, low, high, by omega, by omega⟩
      · funext n
        cases n <;> rfl
    · rw [Selects, Selects, selections_following operands, op.denotes_following]
      · exact range
      · exact range

theorem selections_following : (es : List (Expr Id)) →
    selections (Following whole) (fun id => Following (means id)) es = (selections whole means es).map Following
  | [] => rfl
  | e :: es => by rw [selections, selections, selects_following e, selections_following es, List.map_cons]

end

end Expr

end Following

/-! ### Computations that fail for one reason -/

/-- The computation fails, because of a range, if the condition holds. Otherwise it comes to a result. -/
def FailsIff {α : Type} (bad : Prop) (x : Except LevelFault α) : Prop :=
  (bad → x = .error .categoryRange) ∧ (¬ bad → ∃ a, x = .ok a)

section FailsIff

variable {α β : Type} {p q : Prop} {x : Except LevelFault α}

theorem failsIff_ok {a : α} (good : ¬ p) : FailsIff p (.ok a : Except LevelFault α) :=
  ⟨fun bad => absurd bad good, fun _ => ⟨a, rfl⟩⟩

theorem FailsIff.of_iff (h : FailsIff p x) (same : q ↔ p) : FailsIff q x :=
  ⟨fun bad => h.1 (same.mp bad), fun good => h.2 fun bad => good (same.mpr bad)⟩

theorem FailsIff.bind {f : α → Except LevelFault β} (h : FailsIff p x) (next : ∀ a, FailsIff q (f a)) :
    FailsIff (p ∨ q) (x >>= f) := by
  by_cases first : p
  · rw [h.1 first]
    exact ⟨fun _ => rfl, fun good => absurd (.inl first) good⟩
  · obtain ⟨a, rfl⟩ := h.2 first
    exact (next a).of_iff (or_iff_right first)

theorem FailsIff.map {f : α → β} (h : FailsIff p x) : FailsIff p (f <$> x) := by
  refine ⟨fun bad => ?_, fun good => ?_⟩
  · rw [h.1 bad]
    rfl
  · obtain ⟨a, rfl⟩ := h.2 good
    exact ⟨f a, rfl⟩

theorem FailsIff.not_of_ok {a : α} (h : FailsIff p x) (found : x = .ok a) : ¬ p := by
  intro bad
  rw [h.1 bad] at found
  cases found

theorem FailsIff.iff (h : FailsIff p x) : (∃ fault, x = .error fault) ↔ p := by
  constructor
  · rintro ⟨fault, failed⟩
    by_contra good
    obtain ⟨a, found⟩ := h.2 good
    rw [found] at failed
    cases failed
  · exact fun bad => ⟨_, h.1 bad⟩

end FailsIff

namespace OrderedDatabase

variable {db : OrderedDatabase} {id : Id} {e : Expr Id} {es : List (Expr Id)} {known : Array (Option BitSet)}

/-! ### Positions and what they mean -/

/-- What an alias stands for, and anything else itself. -/
def standsFor (db : OrderedDatabase) (id : Id) : Id :=
  match db.categories.value? id with
  | some c => if c.kind == .aliasName then c.actual.getD id else id
  | none => id

/-- The category comes at the place in the order, where places are counted from zero. -/
def HasPlace (db : OrderedDatabase) (id : Id) (n : Nat) : Prop :=
  db.orders.categories[n]? = some (db.standsFor id)

/-- A meaning of categories and category sets by places in the order: a category is where it is in
the order, and a set has what its expression selects under the same meaning. -/
def PlaceMeaning (db : OrderedDatabase) (means : Id → Nat → Prop) : Prop :=
  db.CategoryMeaning (· < db.orders.categories.length) db.HasPlace means

/-- The expression that a category set has. -/
def setMembers (db : OrderedDatabase) (id : Id) : Option (Expr Id) :=
  match db.categories.value? id with
  | some { kind := .set, members, .. } => members
  | _ => none

/-- With the sets that it names unfolded, the expression has a range whose first category comes
after its last. -/
def Backwards (db : OrderedDatabase) (e : Expr Id) : Prop :=
  ∃ low high i j, e.Contains db.setMembers (.apply .range [.item low, .item high]) ∧
    db.HasPlace low i ∧ db.HasPlace high j ∧ j < i

/-- All that is known is what the evaluation comes to. -/
def Remembers (db : OrderedDatabase) (known : Array (Option BitSet)) : Prop :=
  ∀ (id : Nat) (s : BitSet), known[id]? = some (some s) → db.evaluateCategorySets.1[id]? = some (some s)

theorem setMembers_set {c : CategoryInfo} (hc : db.categories.value? id = some c) (kind : c.kind = .set) :
    db.setMembers id = c.members := by
  obtain ⟨_, _, _⟩ := c
  cases kind
  rw [setMembers, hc]

theorem setMembers_plain (plain : db.signature.IsPlainCategory id) : db.setMembers id = none := by
  obtain ⟨⟨_, _, _⟩, hc, kind⟩ := Database.isPlainCategory_iff.mp plain
  cases kind
  rw [setMembers, hc]

theorem standsFor_eq (noAlias : ∀ c, db.categories.value? id = some c → c.kind ≠ .aliasName) :
    db.standsFor id = id := by
  rw [standsFor]
  split
  · rename_i c hc
    exact if_neg (by simpa using noAlias c hc)
  · rfl

theorem standsFor_plain (plain : db.signature.IsPlainCategory id) : db.standsFor id = id := by
  obtain ⟨c, hc, kind⟩ := Database.isPlainCategory_iff.mp plain
  refine standsFor_eq fun c' hc' => ?_
  cases hc.symm.trans hc'
  simp [kind]

theorem position_eq_ok_iff {n : Nat} : db.categoryPosition id = .ok n ↔
    db.orders.categories.idxOf? (db.standsFor id) = some n := by
  rw [categoryPosition]
  split
  · rename_i position found
    exact ⟨fun h => Except.ok.inj h ▸ found, fun h => congrArg Except.ok (Option.some.inj (found.symm.trans h))⟩
  · rename_i none
    exact ⟨nofun, fun h => nomatch none.symm.trans h⟩

theorem hasPlace_of_position {n : Nat} (h : db.categoryPosition id = .ok n) : db.HasPlace id n := by
  obtain ⟨inside, same, _⟩ := List.idxOf?_eq_some_iff.mp (position_eq_ok_iff.mp h)
  exact List.getElem?_eq_some_iff.mpr ⟨inside, same⟩

/-! ### Ranges in parts -/

theorem backwards_item_iff : db.Backwards (.item id) ↔ ∃ e, db.setMembers id = some e ∧ db.Backwards e := by
  constructor
  · rintro ⟨low, high, i, j, inside, placed⟩
    obtain ⟨e, members, inside⟩ := Expr.contains_item_iff.mp inside
    exact ⟨e, members, low, high, i, j, inside, placed⟩
  · rintro ⟨e, members, low, high, i, j, inside, placed⟩
    exact ⟨low, high, i, j, .unfolded members inside, placed⟩

theorem not_backwards_item (none : db.setMembers id = none) : ¬ db.Backwards (.item id) := by
  intro backwards
  obtain ⟨e, members, _⟩ := backwards_item_iff.mp backwards
  cases none.symm.trans members

theorem backwards_set_iff (members : db.setMembers id = some e) : db.Backwards (.item id) ↔ db.Backwards e := by
  rw [backwards_item_iff, members]
  simp

theorem backwards_list_iff : db.Backwards (.list es) ↔ ∃ e ∈ es, db.Backwards e := by
  constructor
  · rintro ⟨low, high, i, j, inside, placed⟩
    obtain ⟨e, he, inside⟩ := Expr.contains_list_iff.mp inside
    exact ⟨e, he, low, high, i, j, inside, placed⟩
  · rintro ⟨e, he, low, high, i, j, inside, placed⟩
    exact ⟨low, high, i, j, .member he inside, placed⟩

theorem backwards_apply_iff {op : Operator} (other : op ≠ .range) :
    db.Backwards (.apply op es) ↔ ∃ e ∈ es, db.Backwards e := by
  constructor
  · rintro ⟨low, high, i, j, inside, placed⟩
    rcases Expr.contains_apply_iff.mp inside with ⟨same, _⟩ | ⟨e, he, inside⟩
    · exact absurd same other
    · exact ⟨e, he, low, high, i, j, inside, placed⟩
  · rintro ⟨e, he, low, high, i, j, inside, placed⟩
    exact ⟨low, high, i, j, .operand he inside, placed⟩

theorem backwards_range_iff {low high : Id} (lowPlain : db.signature.IsPlainCategory low)
    (highPlain : db.signature.IsPlainCategory high) : db.Backwards (.apply .range [.item low, .item high]) ↔
      ∃ i j, db.HasPlace low i ∧ db.HasPlace high j ∧ j < i := by
  constructor
  · rintro ⟨low', high', i, j, inside, placed⟩
    rcases Expr.contains_apply_iff.mp inside with ⟨_, same⟩ | ⟨e, he, inside⟩
    · cases same
      exact ⟨i, j, placed⟩
    · have leaf : ∀ id, db.signature.IsPlainCategory id → e = .item id → False := by
        rintro id plain rfl
        obtain ⟨_, members, _⟩ := Expr.contains_item_iff.mp inside
        rw [setMembers_plain plain] at members
        cases members
      rcases List.mem_pair.mp he with same | same
      · exact (leaf low lowPlain same).elim
      · exact (leaf high highPlain same).elim
  · rintro ⟨i, j, placed⟩
    exact ⟨low, high, i, j, .self, placed⟩

/-! ### Databases in order -/

/-- What there is to categories once they are in order: each has one place, and expressions of sets
are category expressions and lead to no set again. -/
structure CategoriesOrdered (db : OrderedDatabase) : Prop where
  inside : ∀ id ∈ db.orders.categories, db.signature.IsPlainCategory id
  placed : ∀ id, db.signature.IsPlainCategory id → id ∈ db.orders.categories
  nodup : db.orders.categories.Nodup
  members : ∀ id c e, db.categories.value? id = some c → c.members = some e → db.signature.FitsCategories e
  nested : ∃ depth, db.Nested depth

namespace CategoriesOrdered

variable (ordered : db.CategoriesOrdered)

include ordered

theorem exists_position (plain : db.signature.IsPlainCategory id) :
    ∃ n, db.categoryPosition id = .ok n ∧ db.HasPlace id n := by
  have found : (db.orders.categories.idxOf? (db.standsFor id)).isSome = true := by
    rw [List.isSome_idxOf?, standsFor_plain plain]
    exact ordered.placed id plain
  obtain ⟨n, found⟩ := Option.isSome_iff_exists.mp found
  have position := position_eq_ok_iff.mpr found
  exact ⟨n, position, hasPlace_of_position position⟩

theorem place_unique {m n : Nat} (first : db.HasPlace id m) (second : db.HasPlace id n) : m = n :=
  (List.getElem?_inj (List.getElem?_eq_some_iff.mp first).1 ordered.nodup).mp (first.trans second.symm)

/-- Only categories and aliases come in the order. -/
theorem not_set_of_place {n : Nat} (place : db.HasPlace id n) :
    ∃ c, db.categories.value? id = some c ∧ c.kind ≠ .set := by
  obtain ⟨c, hc, kind⟩ := Database.isPlainCategory_iff.mp (ordered.inside _ (List.mem_of_getElem? place))
  cases own : db.categories.value? id with
  | none =>
    rw [standsFor_eq (by simp [own]), own] at hc
    cases hc
  | some d =>
    refine ⟨d, rfl, fun set => ?_⟩
    rw [standsFor_eq (by simp [own, set]), own] at hc
    cases hc
    cases kind.symm.trans set

/-- Counted from one, the places in the order are the numbers that the meaning has. -/
theorem numberedBy {means : Id → Nat → Prop} (meaning : db.PlaceMeaning means) :
    db.NumberedBy (Following (· < db.orders.categories.length)) fun id => Following (means id) where
  whole _ := Iff.rfl
  placed id n position v := by
    have place := hasPlace_of_position position
    obtain ⟨c, hc, plain⟩ := ordered.not_set_of_place place
    cases v with
    | zero => exact iff_of_false (fun never => never) (Nat.succ_ne_zero n).symm
    | succ m =>
      refine (meaning.category id c hc plain m).trans ?_
      constructor
      · intro other
        rw [ordered.place_unique other place]
      · intro same
        rw [Nat.succ.inj same]
        exact place

end CategoriesOrdered

theorem PlaceMeaning.following {means : Id → Nat → Prop} (meaning : db.PlaceMeaning means) :
    db.CategoryMeaning (Following (· < db.orders.categories.length)) (fun id => Following (db.HasPlace id))
      fun id => Following (means id) where
  category id c hc plain n := by
    cases n with
    | zero => exact Iff.rfl
    | succ n => exact meaning.category id c hc plain n
  set id c hc kind n := by
    simp only [Expr.selects_following]
    cases n with
    | zero => simp [Following]
    | succ n => exact meaning.set id c hc kind n

/-! ### Evaluation -/

section Parts

variable {whole : BitSet} {leaf : Id → Except LevelFault BitSet}

mutual

/-- An expression fails for the ranges in it, when its leaves do. -/
theorem failsIff_categoryPositions (ordered : db.CategoriesOrdered) : (e : Expr Id) →
    e.RangesBetween db.signature.IsPlainCategory → (∀ id ∈ e.leaves, FailsIff (db.Backwards (.item id)) (leaf id)) →
    FailsIff (db.Backwards e) (e.categoryPositions whole leaf db.categoryPosition)
  | .item id, _, leaves => leaves id (List.mem_singleton.mpr rfl)
  | .list members, between, leaves =>
    (failsIff_categoryUnion ordered members (Expr.rangesBetween_list.mp between) leaves).of_iff backwards_list_iff
  | .apply op operands, between, leaves => by
    by_cases range : op = .range
    · subst range
      obtain ⟨low, high, rfl, lowPlain, highPlain⟩ := between _ .self
      obtain ⟨i, first, lowPlace⟩ := ordered.exists_position lowPlain
      obtain ⟨j, last, highPlace⟩ := ordered.exists_position highPlain
      have backwards : db.Backwards (.apply .range [.item low, .item high]) ↔ j < i := by
        rw [backwards_range_iff lowPlain highPlain]
        constructor
        · rintro ⟨i', j', lowPlace', highPlace', lt⟩
          rwa [ordered.place_unique lowPlace lowPlace', ordered.place_unique highPlace highPlace']
        · exact fun lt => ⟨i, j, lowPlace, highPlace, lt⟩
      refine FailsIff.of_iff ?_ backwards
      rw [Expr.categoryPositions, first, last]
      refine ⟨fun lt => ?_, fun le => ?_⟩
      · exact if_pos lt
      · exact ⟨_, if_neg le⟩
    · rw [Expr.rangesBetween_apply range] at between
      rw [Expr.categoryPositions]
      · exact ((failsIff_categoryOperands ordered operands between leaves).map).of_iff (backwards_apply_iff range)
      · exact range

theorem failsIff_categoryUnion (ordered : db.CategoriesOrdered) : (es : List (Expr Id)) →
    (∀ e ∈ es, e.RangesBetween db.signature.IsPlainCategory) →
    (∀ id ∈ Expr.leavesAll es, FailsIff (db.Backwards (.item id)) (leaf id)) → {acc : BitSet} →
    FailsIff (∃ e ∈ es, db.Backwards e) (Expr.categoryUnion whole leaf db.categoryPosition acc es)
  | [], _, _, _ => failsIff_ok (by simp)
  | e :: es, between, leaves, acc => by
    rw [List.forall_mem_cons] at between
    refine FailsIff.of_iff (FailsIff.bind
      (failsIff_categoryPositions ordered e between.1 fun id hid => leaves id (List.mem_append_left _ hid)) fun _ =>
        failsIff_categoryUnion ordered es between.2 fun id hid => leaves id (List.mem_append_right _ hid)) ?_
    simp

theorem failsIff_categoryOperands (ordered : db.CategoriesOrdered) : (es : List (Expr Id)) →
    (∀ e ∈ es, e.RangesBetween db.signature.IsPlainCategory) →
    (∀ id ∈ Expr.leavesAll es, FailsIff (db.Backwards (.item id)) (leaf id)) →
    FailsIff (∃ e ∈ es, db.Backwards e) (Expr.categoryOperands whole leaf db.categoryPosition es)
  | [], _, _ => failsIff_ok (by simp)
  | e :: es, between, leaves => by
    rw [List.forall_mem_cons] at between
    refine FailsIff.of_iff (FailsIff.bind
      (failsIff_categoryPositions ordered e between.1 fun id hid => leaves id (List.mem_append_left _ hid)) fun _ =>
        (failsIff_categoryOperands ordered es between.2 fun id hid => leaves id (List.mem_append_right _ hid)).map) ?_
    simp

end

end Parts

section Sets

variable (ordered : db.CategoriesOrdered)

include ordered

/-- A category or category set fails for the ranges that it has, unless it is known. -/
theorem failsIff_categoryLeaf {depth : Id → Nat} (nested : db.Nested depth)
    (forwards : ∀ (id : Nat) (s : BitSet), known[id]? = some (some s) → ¬ db.Backwards (.item id)) {fuel : Nat} {id : Id}
    (enough : depth id < fuel) (category : db.signature.IsCategory id) :
    FailsIff (db.Backwards (.item id)) (db.categoryLeaf known fuel id) := by
  induction fuel generalizing id with
  | zero => omega
  | succ fuel ih =>
    obtain ⟨_, _, found, noAlias⟩ := category
    obtain ⟨⟨kind, actual, members⟩, hc, link⟩ := Option.map_eq_some_iff.mp found
    obtain ⟨rfl, rfl⟩ := Prod.mk.inj link
    cases kind with
    | aliasName => exact absurd rfl noAlias
    | category =>
      have plain : db.signature.IsPlainCategory id := ⟨actual, found⟩
      obtain ⟨n, position, _⟩ := ordered.exists_position plain
      rw [categoryLeaf, hc]
      dsimp only
      rw [position]
      exact failsIff_ok (not_backwards_item (setMembers_plain plain))
    | set =>
      have own : db.setMembers id = members := setMembers_set hc rfl
      rw [categoryLeaf, hc]
      dsimp only
      cases remembered : (known[id]?).join with
      | some s => exact failsIff_ok (forwards id s (Option.join_eq_some_iff.mp remembered))
      | none =>
        cases members with
        | none => exact failsIff_ok (not_backwards_item own)
        | some e =>
          have fits := ordered.members id _ e hc rfl
          refine (failsIff_categoryPositions ordered e fits.ranges fun child hchild => ?_).of_iff
            (backwards_set_iff own)
          have below := nested.below id _ e hc rfl rfl child hchild
          exact ih (by omega) (fits.within child hchild)

theorem failsIff_categoryBits
    (forwards : ∀ (id : Nat) (s : BitSet), known[id]? = some (some s) → ¬ db.Backwards (.item id))
    (fits : db.signature.FitsCategories e) : FailsIff (db.Backwards e) (db.categoryBits known e) := by
  obtain ⟨depth, nested⟩ := ordered.nested
  exact failsIff_categoryPositions ordered e fits.ranges fun id hid =>
    failsIff_categoryLeaf ordered nested forwards (Nat.lt_succ_of_le (nested.bounded id)) (fits.within id hid)

/-- No set whose positions are found runs backwards. -/
theorem forwards_of_evaluate {id : Nat} {s : BitSet} (h : db.evaluateCategorySets.1[id]? = some (some s)) :
    ¬ db.Backwards (.item id) := by
  refine of_evaluateCategorySets (P := fun id _ => ¬ db.Backwards (.item id)) ?_ h
  intro known id c e s forwards hc kind members found
  rw [backwards_set_iff ((setMembers_set hc kind).trans members)]
  exact (failsIff_categoryBits ordered forwards (ordered.members id c e hc members)).not_of_ok found

theorem exists_placeMeaning : ∃ means, db.PlaceMeaning means := by
  obtain ⟨depth, nested⟩ := ordered.nested
  exact nested.exists_meaning _ _

/-- Positions that are found are those that the expression denotes. -/
theorem mem_iff_selects {means : Id → Nat → Prop} (meaning : db.PlaceMeaning means) (remembers : db.Remembers known)
    {s : BitSet} (found : db.categoryBits known e = .ok s) :
    s.WellFormed ∧ ∀ n, n ∈ s ↔ e.Selects (· < db.orders.categories.length) means n := by
  obtain ⟨depth, nested⟩ := ordered.nested
  have numbered := ordered.numberedBy meaning
  have all := knownMeans_evaluateCategorySets nested meaning.following numbered
  obtain ⟨wf, hmem⟩ := places_categoryBits nested meaning.following numbered
    (fun id s h => all id s (remembers id s h)) found
  refine ⟨wf, fun n => (hmem n).trans ?_⟩
  rw [Expr.selects_following]
  exact Iff.rfl

end Sets

end OrderedDatabase

/-! ### The stages before -/

/-- In the merged order, every category has its place, and no other. -/
theorem Database.categories_of_order {resolved : Database} {db : OrderedDatabase} (run : resolved.order.Yields db) :
    db.orders.categories.Nodup ∧
      ∀ id c, resolved.categories.value? id = some c → c.kind = .category → id ∈ db.orders.categories := by
  rw [Database.order] at run
  obtain ⟨_, _, run⟩ := Report.yields_bind run
  obtain ⟨_, _, run⟩ := Report.yields_bind run
  obtain ⟨_, _, run⟩ := Report.yields_bind run
  obtain ⟨categories, merged, run⟩ := Report.yields_bind run
  obtain ⟨_, placed, run⟩ := Report.yields_bind run
  cases Report.yields_pure run
  have none := Report.yields_reject placed
  simp only [List.append_eq_nil_iff] at none
  obtain ⟨⟨_, unplaced⟩, _⟩ := none
  exact ⟨nodup_mergeFragments merged, fun id c hc kind => Database.mem_of_unplaced unplaced hc (by simp [kind])⟩

namespace OrderedDatabase

variable {db : OrderedDatabase} {e : Expr Id} {tree : ParseTree} {qualified repeats : Bool} {statements : List Statement} {resolved : Database}

/-- What the stages before evaluation leave is in order. -/
theorem categoriesOrdered_of_stages (built : (tree.build qualified).outcome.1 = .ok statements)
    (resolve : (Database.resolve repeats statements).outcome.1 = .ok resolved)
    (order : resolved.order.outcome.1 = .ok db) (passed : db.preVerify.outcome.1 = .ok ()) :
    db.toDatabase.Closed ∧ db.CategoriesOrdered := by
  rw [Database.outcome_resolve] at resolve
  have closed := Database.closed_of_ofStatements resolve
  have members := Database.categoryExpr_of_members
    (tree.statements_of_build (Report.yields_of_outcome built)) resolve
  have order := Report.yields_of_outcome order
  have orders := closed.orderInside.orders order
  obtain ⟨nodup, placed⟩ := Database.categories_of_order order
  obtain ⟨rfl, _⟩ := Database.order_spec order
  have none := Report.yields_reject (Report.yields_of_outcome passed)
  have acyclic : Database.selfReference db.categories db.categoryNext = [] :=
    (List.append_eq_nil_iff.mp none).2
  refine ⟨closed, orders.categories, fun id plain => ?_, nodup, fun id c e hc given => ?_,
    Database.exists_nested acyclic⟩
  · obtain ⟨c, hc, kind⟩ := Database.isPlainCategory_iff.mp plain
    exact placed id c hc kind
  · exact (members id c hc e given).fits closed

/-- A category expression of a database that is in order fails exactly if it has a range that runs
backwards, itself or through the sets that it names. Otherwise it comes to the places that it denotes
among those of all ordered categories. It comes to the same whichever sets have been evaluated before,
and so it does once all of them have. -/
theorem categoryBits_exact (built : (tree.build qualified).outcome.1 = .ok statements)
    (resolve : (Database.resolve repeats statements).outcome.1 = .ok resolved)
    (order : resolved.order.outcome.1 = .ok db) (passed : db.preVerify.outcome.1 = .ok ())
    (expr : db.CategoryExpr e) :
    (∃ means, db.PlaceMeaning means) ∧
    (∀ known, db.Remembers known → ((∃ fault, db.categoryBits known e = .error fault) ↔ db.Backwards e)) ∧
    (¬ db.Backwards e → ∃ s : BitSet, s.WellFormed ∧
      (∀ means, db.PlaceMeaning means → ∀ n, n ∈ s ↔ e.Selects (· < db.orders.categories.length) means n) ∧
      (∀ n ∈ s, n < db.orders.categories.length) ∧
      (∀ known, db.Remembers known → db.categoryBits known e = .ok s) ∧
      ∀ evaluated, (db.evaluate repeats).outcome.1 = .ok evaluated →
        evaluated.categoryBits evaluated.categorySets e = .ok s) := by
  obtain ⟨closed, ordered⟩ := categoriesOrdered_of_stages built resolve order passed
  have fails : ∀ known, db.Remembers known → FailsIff (db.Backwards e) (db.categoryBits known e) :=
    fun known remembers => failsIff_categoryBits ordered
      (fun id s h => forwards_of_evaluate ordered (remembers id s h)) (expr.fits closed)
  have nothing : db.Remembers #[] := fun id s h => by simp at h
  obtain ⟨means, meaning⟩ := exists_placeMeaning ordered
  refine ⟨⟨means, meaning⟩, fun known remembers => (fails known remembers).iff, fun good => ?_⟩
  obtain ⟨s, found⟩ := (fails #[] nothing).2 good
  obtain ⟨wf, hmem⟩ := mem_iff_selects ordered meaning nothing found
  have same : ∀ known, db.Remembers known → db.categoryBits known e = .ok s := by
    intro known remembers
    obtain ⟨s', found'⟩ := (fails known remembers).2 good
    obtain ⟨wf', hmem'⟩ := mem_iff_selects ordered meaning remembers found'
    rw [found', BitSet.eq_of_mem_iff wf' wf fun n => (hmem' n).trans (hmem n).symm]
  refine ⟨s, wf, fun means meaning => (mem_iff_selects ordered meaning nothing found).2, fun n hn => ?_, same,
    fun evaluated run => ?_⟩
  · have within := within_categoryBits (fun id s h => by simp at h) found
    exact BitSet.mem_below.mp (within.inside n hn)
  · have run := Report.yields_of_outcome run
    have sets := (EvaluatedDatabase.categoriesEvaluated run).sets
    obtain ⟨_, fields⟩ := evaluate_spec run
    have categories : evaluated.categories = db.categories := by rw [fields]
    have orders : evaluated.orders = db.orders := by rw [fields]
    rw [sets, EvaluatedDatabase.categoryBits_congr categories orders,
      EvaluatedDatabase.evaluateCategorySets_congr categories orders]
    exact same _ fun _ _ h => h

/-- A set of the first three of four categories, and the set of all others. -/
def nestedText : String :=
  "(category c0) (category c1) (category c2) (category c3) (categoryorder (c0 c1 c2 c3)) " ++
    "(categoryset low (range c0 c2)) (categoryset rest (not low))"

/-- All but the rest are the first three, and a range from the third to the first runs backwards. -/
theorem categoryBits_exact_nested : ∃ tree statements resolved, ∃ db : OrderedDatabase, ∃ good bad,
    (ParseTree.parseAll [("p.cil", nestedText)]).outcome.1 = .ok tree ∧
    (tree.build false).outcome.1 = .ok statements ∧
    (Database.resolve false statements).outcome.1 = .ok resolved ∧ resolved.order.outcome.1 = .ok db ∧
    db.preVerify.outcome.1 = .ok () ∧ db.CategoryExpr good ∧ db.CategoryExpr bad ∧
    (∃ s : BitSet, s.toList = [0, 1, 2] ∧ ∀ known, db.Remembers known → db.categoryBits known good = .ok s) ∧
    db.Backwards bad := by
  let word (v : String) : Node := .leaf default v
  let goodList : Node := .list default [word "not", word "rest"]
  let badList : Node := .list default [word "range", word "c2", word "c0"]
  have goodBuilt : Build.expr .category goodList ⟨"", default, false⟩ = .ok (.apply .not [.item "rest"]) := rfl
  have badBuilt : Build.expr .category badList ⟨"", default, false⟩ =
    .ok (.apply .range [.item "c2", .item "c0"]) := rfl
  have run : ((ParseTree.parseAll [("p.cil", nestedText)]).outcome.1.toOption.bind fun tree =>
      (tree.build false).outcome.1.toOption.bind fun statements =>
      (Database.resolve false statements).outcome.1.toOption.bind fun resolved =>
      resolved.order.outcome.1.toOption.bind fun db =>
      db.preVerify.outcome.1.toOption.bind fun _ =>
      (db.categoryExpr (.apply .not [.item "rest"]) ⟨"", default⟩).toOption.bind fun good =>
      (db.categoryExpr (.apply .range [.item "c2", .item "c0"]) ⟨"", default⟩).toOption.bind fun bad =>
      (db.categoryBits #[] good).toOption.map fun s =>
        (s.toList, (db.categoryBits #[] bad).toOption.isNone)) = some ([0, 1, 2], true) := by
    decide +kernel
  obtain ⟨tree, parsed, run⟩ := Option.bind_eq_some_iff.mp run
  obtain ⟨statements, built, run⟩ := Option.bind_eq_some_iff.mp run
  obtain ⟨resolved, resolve, run⟩ := Option.bind_eq_some_iff.mp run
  obtain ⟨db, order, run⟩ := Option.bind_eq_some_iff.mp run
  obtain ⟨⟨⟩, passed, run⟩ := Option.bind_eq_some_iff.mp run
  obtain ⟨good, goodFound, run⟩ := Option.bind_eq_some_iff.mp run
  obtain ⟨bad, badFound, run⟩ := Option.bind_eq_some_iff.mp run
  obtain ⟨s, found, run⟩ := Option.map_eq_some_iff.mp run
  obtain ⟨three, failed⟩ := Prod.mk.inj run
  rw [toOption_eq_some_iff] at parsed built resolve order passed goodFound badFound found
  have goodExpr : db.CategoryExpr good := ⟨_, _, _, _, goodBuilt, goodFound⟩
  have badExpr : db.CategoryExpr bad := ⟨_, _, _, _, badBuilt, badFound⟩
  have nothing : db.Remembers #[] := fun id s h => by simp at h
  obtain ⟨_, goodFails, goodExact⟩ := categoryBits_exact built resolve order passed goodExpr
  obtain ⟨_, badFails, _⟩ := categoryBits_exact built resolve order passed badExpr
  have forwards : ¬ db.Backwards good := by
    intro backwards
    obtain ⟨fault, failed⟩ := (goodFails #[] nothing).mpr backwards
    rw [found] at failed
    cases failed
  obtain ⟨s', _, _, _, same, _⟩ := goodExact forwards
  have once := same #[] nothing
  rw [found] at once
  cases once
  refine ⟨tree, statements, resolved, db, good, bad, parsed, built, resolve, order, passed, goodExpr, badExpr,
    ⟨s, three, same⟩, (badFails #[] nothing).mp ?_⟩
  cases h : db.categoryBits #[] bad with
  | error fault => exact ⟨fault, rfl⟩
  | ok s =>
    rw [h] at failed
    cases failed

end OrderedDatabase

end CilPolicy
