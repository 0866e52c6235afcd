import CilPolicy.Evaluation.Database
import CilPolicy.Proofs.Database.Signature
import CilPolicy.Proofs.Evaluation.Category
import CilPolicy.Proofs.Graph.Cycle
import CilPolicy.Verification.Cycle
import Mathlib.Data.List.Induction

/-!
# What category expressions select

A category has a number, and an expression selects numbers: a named set those of its own
expression, a range all from the number of one category to that of another. This is said
by equations, which have a solution because no set contains itself. The evaluation of an
expression to positions in the order agrees with every solution: position `n` is in the
set exactly when number `n + 1` is selected.
-/

namespace CilPolicy

open BitSet

namespace Expr

mutual

/-- The number belongs to a category that the expression selects. -/
def Selects (whole : Nat → Prop) (means : Id → Nat → Prop) : Expr Id → Nat → Prop
  | item id => means id
  | list members => fun n => ∃ a ∈ selections whole means members, a n
  | apply .range operands =>
    match operands with
    | [item low, item high] => fun n => ∃ a b, means low a ∧ means high b ∧ a ≤ n ∧ n ≤ b
    | _ => fun _ => False
  | apply op operands => op.Denotes whole (selections whole means operands)

/-- What each of some expressions selects. -/
def selections (whole : Nat → Prop) (means : Id → Nat → Prop) : List (Expr Id) → List (Nat → Prop)
  | [] => []
  | e :: es => e.Selects whole means :: selections whole means es

end

mutual

/-- What an expression selects depends on its leaves only. -/
theorem selects_congr {whole : Nat → Prop} {means other : Id → Nat → Prop} : (e : Expr Id) →
    (∀ id ∈ e.leaves, means id = other id) → e.Selects whole means = e.Selects whole other
  | item id, same => same id (List.mem_singleton.mpr rfl)
  | list members, same => by
    rw [Selects, Selects, selections_congr members same]
  | apply op operands, same => by
    by_cases range : op = .range
    · subst range
      unfold Selects
      split
      · rename_i low high
        rw [same low (by simp [leaves, leavesAll]), same high (by simp [leaves, leavesAll])]
      · rfl
    · rw [Selects, Selects, selections_congr operands same]
      · exact range
      · exact range

theorem selections_congr {whole : Nat → Prop} {means other : Id → Nat → Prop} : (es : List (Expr Id)) →
    (∀ id ∈ leavesAll es, means id = other id) → selections whole means es = selections whole other es
  | [], _ => rfl
  | e :: es, same => by
    rw [selections, selections, selects_congr e fun id hid => same id (List.mem_append_left _ hid),
      selections_congr es fun id hid => same id (List.mem_append_right _ hid)]

end

end Expr

/-! ### From numbers to positions -/

/-- Operators do not mind whether one counts from zero or from one. -/
theorem Operator.denotes_succ {whole : Nat → Prop} (op : Operator) (ps : List (Nat → Prop)) (n : Nat) :
    op.Denotes (fun n => whole (n + 1)) (ps.map fun p n => p (n + 1)) n ↔
      op.Denotes whole ps (n + 1) := by
  have union : (∃ a ∈ ps.map fun p n => p (n + 1), a n) ↔ ∃ a ∈ ps, a (n + 1) := by
    simp only [List.mem_map, exists_exists_and_eq_and]
  match op, ps with
  | .all, _ => exact Iff.rfl
  | .not, [a] | .and, [a, b] | .or, [a, b] | .xor, [a, b] => exact Iff.rfl
  | .not, [] | .not, _ :: _ :: _ => exact union
  | .and, [] | .and, [_] | .and, _ :: _ :: _ :: _ => exact union
  | .or, [] | .or, [_] | .or, _ :: _ :: _ :: _ => exact union
  | .xor, [] | .xor, [_] | .xor, _ :: _ :: _ :: _ => exact union
  | .range, _ | .eq, _ | .neq, _ => exact union

namespace Expr

/-- A set of positions has those whose numbers satisfy the predicate. -/
def Places (set : BitSet) (p : Nat → Prop) : Prop :=
  Represents set fun n => p (n + 1)

section Positions

variable {whole : BitSet} {numbers : Nat → Prop} {means : Id → Nat → Prop}
  {leaf : Id → Except LevelFault BitSet} {position : Id → Except LevelFault Nat}

mutual

/-- An expression has the positions that it selects, when its leaves have. -/
theorem places_categoryPositions (ww : Places whole numbers)
    (placed : ∀ id n, position id = .ok n → ∀ v, means id v ↔ v = n + 1) : (e : Expr Id) →
    (∀ id ∈ e.leaves, ∀ s, leaf id = .ok s → Places s (means id)) → {s : BitSet} →
    e.categoryPositions whole leaf position = .ok s → Places s (e.Selects numbers means)
  | item id, leaves, s, h => leaves id (List.mem_singleton.mpr rfl) s h
  | list members, leaves, s, h => by
    obtain ⟨wf, hmem⟩ := places_categoryUnion ww placed members leaves represents_empty h
    exact ⟨wf, fun n => (hmem n).trans (by simp [Selects])⟩
  | apply op operands, leaves, s, h => by
    by_cases range : op = .range
    · subst range
      unfold categoryPositions at h
      split at h
      · rename_i low high
        obtain ⟨a, ha, h⟩ := bind_eq_ok.mp h
        obtain ⟨b, hb, h⟩ := bind_eq_ok.mp h
        split at h
        · cases h
        · cases h
          have inside : Within (.below (b + 1)) (interval a b) :=
            within_interval fun n hn => mem_below.mpr (by omega)
          refine ⟨inside.wellFormed, fun n => ?_⟩
          rw [mem_interval, Selects]
          simp only [placed low a ha, placed high b hb, exists_and_left, exists_eq_left]
          omega
      · cases h
    · rw [categoryPositions] at h
      · obtain ⟨sets, hsets, h⟩ := bind_eq_ok.mp h
        cases h
        obtain ⟨wf, hmem⟩ := represents_apply ww.1 op (places_categoryOperands ww placed operands leaves hsets)
        have same : (· ∈ whole) = fun n => numbers (n + 1) := funext fun n => propext (ww.2 n)
        refine ⟨wf, fun n => (hmem n).trans ?_⟩
        rw [same, op.denotes_succ, Selects]
        exact range
      · exact range

theorem places_categoryUnion (ww : Places whole numbers)
    (placed : ∀ id n, position id = .ok n → ∀ v, means id v ↔ v = n + 1) : (es : List (Expr Id)) →
    (∀ id ∈ leavesAll es, ∀ s, leaf id = .ok s → Places s (means id)) → {acc s : BitSet} →
    {p : Nat → Prop} → Represents acc p → categoryUnion whole leaf position acc es = .ok s →
    Represents s fun n => p n ∨ ∃ a ∈ selections numbers means es, a (n + 1)
  | [], _, _, _, _, start, h => by
    cases h
    exact ⟨start.1, fun n => by simp [selections, start.2 n]⟩
  | e :: es, leaves, _, _, _, start, h => by
    obtain ⟨positions, first, h⟩ := bind_eq_ok.mp h
    have step := represents_union start (places_categoryPositions ww placed e
      (fun id hid => leaves id (List.mem_append_left _ hid)) first)
    obtain ⟨wf, hmem⟩ := places_categoryUnion ww placed es
      (fun id hid => leaves id (List.mem_append_right _ hid)) step h
    exact ⟨wf, fun n => (hmem n).trans (by simp [selections, or_assoc])⟩

theorem places_categoryOperands (ww : Places whole numbers)
    (placed : ∀ id n, position id = .ok n → ∀ v, means id v ↔ v = n + 1) : (es : List (Expr Id)) →
    (∀ id ∈ leavesAll es, ∀ s, leaf id = .ok s → Places s (means id)) → {sets : List BitSet} →
    categoryOperands whole leaf position es = .ok sets →
    List.Forall₂ Represents sets ((selections numbers means es).map fun p n => p (n + 1))
  | [], _, _, h => by
    cases h
    exact .nil
  | e :: es, leaves, _, h => by
    obtain ⟨first, hfirst, h⟩ := bind_eq_ok.mp h
    obtain ⟨others, hothers, h⟩ := bind_eq_ok.mp h
    cases h
    exact .cons
      (places_categoryPositions ww placed e (fun id hid => leaves id (List.mem_append_left _ hid)) hfirst)
      (places_categoryOperands ww placed es (fun id hid => leaves id (List.mem_append_right _ hid)) hothers)

end

end Positions

end Expr

/-! ### The meaning of categories and of their sets -/

namespace Database

variable {db : Database}

/-- A meaning of categories and category sets, where the numbers of the categories are given:
a set has what its expression selects under the same meaning. -/
structure CategoryMeaning (db : Database) (whole : Nat → Prop) (number means : Id → Nat → Prop) : Prop where
  category : ∀ id c, db.categories.value? id = some c → c.kind ≠ .set → ∀ n, means id n ↔ number id n
  set : ∀ id c, db.categories.value? id = some c → c.kind = .set →
    ∀ n, means id n ↔ ∃ e ∈ c.members, e.Selects whole means n

/-- Sets lie deeper than what their expressions name. -/
structure Nested (db : Database) (depth : Id → Nat) : Prop where
  bounded : ∀ id, depth id ≤ db.categories.size
  below : ∀ id c e, db.categories.value? id = some c → c.kind = .set → c.members = some e →
    ∀ child ∈ e.leaves, depth child < depth id

theorem exists_nested (acyclic : selfReference db.categories db.categoryNext = []) :
    ∃ depth, db.Nested depth := by
  have none : Graph.findCycle (List.range db.categories.size) db.categoryNext = none := by
    rw [selfReference] at acyclic
    split at acyclic
    · assumption
    · cases acyclic
  have closed : Graph.ClosedUnder db.categoryNext (List.range db.categories.size) := by
    intro id _ child _ inner
    rw [List.mem_range]
    cases hc : db.categories.value? child with
    | none => simp [categoryNext, attributesIn, hc] at inner
    | some c => exact Registry.lt_of_value? hc
  obtain ⟨level, bounded, down⟩ := Graph.exists_level_of_findCycle closed none
  rw [List.length_range] at bounded
  refine ⟨fun id => if db.categories.test id (·.kind == .set) then level id + 1 else 0, ?_, ?_⟩
  · intro id
    split
    · rename_i set
      obtain ⟨c, hc, _⟩ := Registry.test_iff.mp set
      exact bounded id (List.mem_range.mpr (Registry.lt_of_value? hc))
    · exact Nat.zero_le _
  · intro id c e hc kind members child hchild
    have set : db.categories.test id (·.kind == .set) = true := Registry.test_iff.mpr ⟨c, hc, by simp [kind]⟩
    rw [if_pos set]
    split
    · rename_i inner
      obtain ⟨c', hc', _⟩ := Registry.test_iff.mp inner
      have next : child ∈ db.categoryNext id := by
        rw [categoryNext, attributesIn, hc, Option.bind_some, members]
        simpa using ⟨hchild, inner⟩
      have lower := down id (List.mem_range.mpr (Registry.lt_of_value? hc)) child next
        (List.mem_range.mpr (Registry.lt_of_value? hc'))
      omega
    · exact Nat.succ_pos _

/-- The numbers of a category or category set, as far as sets are unfolded so often. -/
def numbersOf (db : Database) (whole : Nat → Prop) (number : Id → Nat → Prop) : Nat → Id → Nat → Prop
  | 0, _ => fun _ => False
  | fuel + 1, id => fun n =>
    match db.categories.value? id with
    | some { kind := .set, members, .. } =>
      ∃ e ∈ members, e.Selects whole (db.numbersOf whole number fuel) n
    | _ => number id n

theorem numbersOf_set {whole : Nat → Prop} {number : Id → Nat → Prop} {fuel : Nat} {id : Id}
    {c : CategoryInfo} (hc : db.categories.value? id = some c) (kind : c.kind = .set) (n : Nat) :
    db.numbersOf whole number (fuel + 1) id n ↔
      ∃ e ∈ c.members, e.Selects whole (db.numbersOf whole number fuel) n := by
  obtain ⟨_, _, _⟩ := c
  cases kind
  rw [numbersOf, hc]

theorem numbersOf_plain {whole : Nat → Prop} {number : Id → Nat → Prop} {fuel : Nat} {id : Id}
    (plain : ∀ c, db.categories.value? id = some c → c.kind ≠ .set) (n : Nat) :
    db.numbersOf whole number (fuel + 1) id n ↔ number id n := by
  rw [numbersOf]
  split
  · rename_i hc
    exact absurd rfl (plain _ hc)
  · exact Iff.rfl

/-- Unfolding further than a set is deep makes no difference. -/
theorem Nested.numbersOf_eq {depth : Id → Nat} (nested : db.Nested depth) {whole : Nat → Prop}
    {number : Id → Nat → Prop} {fuel more : Nat} {id : Id} (enough : depth id < fuel) (further : fuel ≤ more) :
    db.numbersOf whole number fuel id = db.numbersOf whole number more id := by
  induction fuel generalizing more id with
  | zero => omega
  | succ fuel ih =>
    obtain ⟨more, rfl⟩ : ∃ m, more = m + 1 := ⟨more - 1, by omega⟩
    funext n
    apply propext
    by_cases set : ∃ c, db.categories.value? id = some c ∧ c.kind = .set
    · obtain ⟨c, hc, kind⟩ := set
      rw [numbersOf_set hc kind, numbersOf_set hc kind]
      refine exists_congr fun e => and_congr_right fun he => ?_
      rw [Expr.selects_congr e fun child hchild => ?_]
      have lower := nested.below id c e hc kind he child hchild
      exact ih (by omega) (by omega)
    · have plain : ∀ c, db.categories.value? id = some c → c.kind ≠ .set :=
        fun c hc kind => set ⟨c, hc, kind⟩
      rw [numbersOf_plain plain, numbersOf_plain plain]

/-- Where no set contains itself, there is a meaning. -/
theorem Nested.exists_meaning {depth : Id → Nat} (nested : db.Nested depth) (whole : Nat → Prop)
    (number : Id → Nat → Prop) : ∃ means, db.CategoryMeaning whole number means := by
  refine ⟨db.numbersOf whole number (db.categories.size + 1), ?_, ?_⟩
  · intro id c hc plain n
    refine numbersOf_plain (fun c' hc' => ?_) n
    cases hc.symm.trans hc'
    exact plain
  · intro id c hc kind n
    rw [numbersOf_set hc kind]
    refine exists_congr fun e => and_congr_right fun he => ?_
    rw [Expr.selects_congr e fun child hchild => ?_]
    have lower := nested.below id c e hc kind he child hchild
    have bounded := nested.bounded id
    exact nested.numbersOf_eq (by omega) (Nat.le_succ _)

end Database

/-! ### Evaluation -/

namespace OrderedDatabase

variable {db : OrderedDatabase} {numbers : Nat → Prop} {number means : Id → Nat → Prop}
  {known : Array (Option BitSet)}

/-- Places in the order, counted from one, are the numbers of categories. -/
structure NumberedBy (db : OrderedDatabase) (numbers : Nat → Prop) (means : Id → Nat → Prop) : Prop where
  whole : ∀ n, n < db.orders.categories.length ↔ numbers (n + 1)
  placed : ∀ id n, db.categoryPosition id = .ok n → ∀ v, means id v ↔ v = n + 1

/-- What is known of the category sets agrees with the meaning. -/
def KnownMeans (means : Id → Nat → Prop) (known : Array (Option BitSet)) : Prop :=
  ∀ (id : Nat) (s : BitSet), known[id]? = some (some s) → Expr.Places s (means id)

theorem NumberedBy.places_whole (numbered : db.NumberedBy numbers means) :
    Expr.Places db.categoryWhole numbers :=
  ⟨wellFormed_categoryWhole, fun n => mem_below.trans (numbered.whole n)⟩

theorem places_categoryLeaf {depth : Id → Nat} (nested : db.Nested depth)
    (meaning : db.CategoryMeaning numbers number means) (numbered : db.NumberedBy numbers means)
    (agrees : KnownMeans means known) {fuel : Nat} {id : Id} (enough : depth id < fuel) {s : BitSet}
    (h : db.categoryLeaf known fuel id = .ok s) : Expr.Places s (means id) := by
  induction fuel generalizing id s with
  | zero => omega
  | succ fuel ih =>
    rw [categoryLeaf] at h
    split at h
    · rename_i actual members hc
      have equation := meaning.set id _ hc rfl
      dsimp only at equation
      split at h
      · rename_i found
        cases h
        exact agrees id s (Option.join_eq_some_iff.mp found)
      · rename_i e _
        obtain ⟨wf, hmem⟩ := Expr.places_categoryPositions numbered.places_whole numbered.placed e
          (fun child hchild inner hinner => ih
            (Nat.lt_of_lt_of_le (nested.below id _ e hc rfl rfl child hchild) (Nat.lt_succ_iff.mp enough))
            hinner) h
        exact ⟨wf, fun n => (hmem n).trans (by simp [equation])⟩
      · cases h
        exact ⟨wellFormed_empty, fun n => by simp [equation]⟩
    · obtain ⟨n, hn, rfl⟩ := map_eq_ok.mp h
      refine ⟨wellFormed_singleton n, fun m => ?_⟩
      have only := numbered.placed id n hn (m + 1)
      rw [Nat.succ_inj] at only
      exact mem_singleton.trans only.symm

/-- The positions of an expression are those that it selects. -/
theorem places_categoryBits {depth : Id → Nat} (nested : db.Nested depth)
    (meaning : db.CategoryMeaning numbers number means) (numbered : db.NumberedBy numbers means)
    (agrees : KnownMeans means known) {e : Expr Id} {s : BitSet} (h : db.categoryBits known e = .ok s) :
    Expr.Places s (e.Selects numbers means) :=
  Expr.places_categoryPositions numbered.places_whole numbered.placed e
    (fun id _ _ => places_categoryLeaf nested meaning numbered agrees (Nat.lt_succ_of_le (nested.bounded id))) h

/-- Evaluates one category set after others. -/
def addSet (db : OrderedDatabase) (state : Array (Option BitSet) × List Diagnostic)
    (d : Declared CategoryInfo) : Array (Option BitSet) × List Diagnostic :=
  match d.value.kind, d.value.members with
  | .set, some e =>
    match db.categoryBits state.1 e with
    | .ok positions => (state.1.push (some positions), state.2)
    | .error fault => (state.1.push none, state.2 ++ [.violation (.level fault) (some d.location)])
  | _, _ => (state.1.push none, state.2)

theorem evaluateCategorySets_eq : db.evaluateCategorySets = db.categories.toList.foldl db.addSet (#[], []) := by
  rw [evaluateCategorySets, Registry.indexed, List.foldl_map]
  conv_rhs => rw [← List.zipIdx_map_fst 0 db.categories.toList, List.foldl_map]
  rfl

theorem addSet_spec (db : OrderedDatabase) (state : Array (Option BitSet) × List Diagnostic) (d : Declared CategoryInfo) :
    ∃ s?, (db.addSet state d).1 = state.1.push s? ∧ ∀ s, s? = some s →
      d.value.kind = .set ∧ ∃ e, d.value.members = some e ∧ db.categoryBits state.1 e = .ok s := by
  rw [addSet]
  split
  · rename_i e kind members
    split
    · rename_i positions found
      refine ⟨some positions, rfl, fun s hs => ⟨kind, e, members, ?_⟩⟩
      cases hs
      exact found
    · exact ⟨none, rfl, by simp⟩
  · exact ⟨none, rfl, by simp⟩

/-- Sets are evaluated in the order of their numbers, each after those that came before. -/
theorem known_foldl {P : Id → BitSet → Prop}
    (step : ∀ known id c e s, (∀ (i : Nat) t, known[i]? = some (some t) → P i t) →
      db.categories.value? id = some c → c.kind = .set → c.members = some e →
      db.categoryBits known e = .ok s → P id s)
    (ds : List (Declared CategoryInfo)) (state : Array (Option BitSet) × List Diagnostic)
    (listed : ∀ i d, ds[i]? = some d → db.categories.get? (state.1.size + i) = some d)
    (before : ∀ (i : Nat) t, state.1[i]? = some (some t) → P i t) :
    ∀ (i : Nat) t, (ds.foldl db.addSet state).1[i]? = some (some t) → P i t := by
  induction ds generalizing state with
  | nil => exact before
  | cons d rest ih =>
    have hd : db.categories.get? state.1.size = some d := listed 0 d rfl
    obtain ⟨s?, pushed, evaluated⟩ := addSet_spec db state d
    refine ih (db.addSet state d) (fun i d' hd' => ?_) (fun id s h => ?_)
    · rw [pushed, Array.size_push, Nat.add_assoc, Nat.add_comm 1 i]
      exact listed (i + 1) d' hd'
    · rw [pushed, Array.getElem?_push] at h
      split at h
      · rename_i last
        subst last
        obtain ⟨kind, e, members, found⟩ := evaluated s (Option.some.inj h)
        have hc : db.categories.value? state.1.size = some d.value :=
          Registry.value?_eq_some.mpr ⟨d, hd, rfl⟩
        exact step _ _ _ e s before hc kind members found
      · exact before id s h

/-- What holds of every set whose positions are found, given that it holds of the sets before,
holds of all that the evaluation comes to. -/
theorem of_evaluateCategorySets {P : Id → BitSet → Prop}
    (step : ∀ known id c e s, (∀ (i : Nat) t, known[i]? = some (some t) → P i t) →
      db.categories.value? id = some c → c.kind = .set → c.members = some e →
      db.categoryBits known e = .ok s → P id s) {id : Nat} {s : BitSet}
    (h : db.evaluateCategorySets.1[id]? = some (some s)) : P id s := by
  rw [evaluateCategorySets_eq] at h
  refine known_foldl step _ _ (fun i d hd => ?_) (fun i t before => by simp at before) id s h
  rw [List.size_toArray, List.length_nil, Nat.zero_add]
  exact Array.getElem?_toList.symm.trans hd

theorem knownMeans_evaluateCategorySets {depth : Id → Nat} (nested : db.Nested depth)
    (meaning : db.CategoryMeaning numbers number means) (numbered : db.NumberedBy numbers means) :
    KnownMeans means db.evaluateCategorySets.1 := by
  intro id s h
  refine of_evaluateCategorySets (P := fun id s => Expr.Places s (means id)) ?_ h
  intro known id c e s agrees hc kind members found
  obtain ⟨wf, hmem⟩ := places_categoryBits nested meaning numbered agrees found
  exact ⟨wf, fun n => (hmem n).trans (by simp [meaning.set _ _ hc kind, members])⟩

/-- Adds what one expression of a sensitivity selects. -/
def addCategories (db : OrderedDatabase) (known : Array (Option BitSet)) (location : Location)
    (state : BitSet × List Diagnostic) (e : Expr Id) : BitSet × List Diagnostic :=
  match db.categoryBits known e with
  | .ok more => (state.1.union more, state.2)
  | .error fault => (state.1, state.2 ++ [.violation (.level fault) (some location)])

/-- Without a fault, expressions of a sensitivity add up to what they select. -/
theorem places_foldl_addCategories {depth : Id → Nat} (nested : db.Nested depth)
    (meaning : db.CategoryMeaning numbers number means) (numbered : db.NumberedBy numbers means)
    (agrees : KnownMeans means known) {location : Location} (es : List (Expr Id))
    (done : (es.foldl (db.addCategories known location) (∅, [])).2 = []) :
    Expr.Places (es.foldl (db.addCategories known location) (∅, [])).1
      (fun n => ∃ e ∈ es, e.Selects numbers means n) := by
  induction es using List.reverseRecOn with
  | nil => exact ⟨wellFormed_empty, by simp⟩
  | append_singleton es e ih =>
    rw [List.foldl_append, List.foldl_cons, List.foldl_nil, addCategories] at done ⊢
    split at done
    · rename_i more found
      have selected := places_categoryBits nested meaning numbered agrees found
      obtain ⟨wf, hmem⟩ := Expr.represents_union (ih done) selected
      exact ⟨wf, fun n => (hmem n).trans (by simp [or_and_right, exists_or])⟩
    · exact absurd (List.append_eq_nil_iff.mp done).2 (List.cons_ne_nil _ _)

theorem places_evaluateSensitivity {depth : Id → Nat} (nested : db.Nested depth)
    (meaning : db.CategoryMeaning numbers number means) (numbered : db.NumberedBy numbers means)
    (agrees : KnownMeans means known) {d : Declared SensitivityInfo}
    (done : (db.evaluateSensitivity known d).2 = []) :
    Expr.Places (db.evaluateSensitivity known d).1
      (fun n => ∃ e ∈ d.value.categories, e.Selects numbers means n) :=
  places_foldl_addCategories nested meaning numbered agrees d.value.categories done

end OrderedDatabase

namespace EvaluatedDatabase

variable {db : EvaluatedDatabase}

/-- The positions of sets and of sensitivities are those that the evaluation comes to, and it had
no fault. -/
structure CategoriesEvaluated (db : EvaluatedDatabase) : Prop where
  sets : db.categorySets = db.evaluateCategorySets.1
  sensitivities : ∀ id d, db.sensitivities.get? id = some d →
    db.sensitivityCategories.getD id ∅ = (db.evaluateSensitivity db.categorySets d).1 ∧
      (db.evaluateSensitivity db.categorySets d).2 = []

/-- Positions depend on the categories and their order only. -/
theorem categoryBits_congr {a b : OrderedDatabase} (categories : a.categories = b.categories)
    (orders : a.orders = b.orders) : a.categoryBits = b.categoryBits := by
  have position : a.categoryPosition = b.categoryPosition := by
    funext id
    simp only [OrderedDatabase.categoryPosition, categories, orders]
  have whole : a.categoryWhole = b.categoryWhole := by
    rw [OrderedDatabase.categoryWhole, OrderedDatabase.categoryWhole, orders]
  have leaf : ∀ known fuel, a.categoryLeaf known fuel = b.categoryLeaf known fuel := by
    intro known fuel
    induction fuel with
    | zero => rfl
    | succ fuel ih =>
      funext id
      simp only [OrderedDatabase.categoryLeaf, categories, position, whole, ih]
  funext known e
  simp only [OrderedDatabase.categoryBits, categories, position, whole, leaf]

theorem evaluateCategorySets_congr {a b : OrderedDatabase} (categories : a.categories = b.categories)
    (orders : a.orders = b.orders) : a.evaluateCategorySets = b.evaluateCategorySets := by
  have step : a.addSet = b.addSet := by
    funext state d
    simp only [OrderedDatabase.addSet, categoryBits_congr categories orders]
  rw [OrderedDatabase.evaluateCategorySets_eq, OrderedDatabase.evaluateCategorySets_eq, step, categories]

theorem evaluateSensitivity_congr {a b : OrderedDatabase} (categories : a.categories = b.categories)
    (orders : a.orders = b.orders) : a.evaluateSensitivity = b.evaluateSensitivity := by
  funext known d
  simp only [OrderedDatabase.evaluateSensitivity, categoryBits_congr categories orders]

theorem categoriesEvaluated {ordered : OrderedDatabase} {repeats : Bool}
    (run : (ordered.evaluate repeats).Yields db) : db.CategoriesEvaluated := by
  obtain ⟨_, same⟩ := OrderedDatabase.evaluate_spec run
  rw [OrderedDatabase.evaluate] at run
  obtain ⟨_, faultless, run⟩ := Report.yields_bind run
  obtain ⟨_, _, run⟩ := Report.yields_bind run
  have result := Report.yields_pure run
  have sets : db.categorySets = ordered.evaluateCategorySets.1 :=
    congrArg EvaluatedDatabase.categorySets result
  have allowed : db.sensitivityCategories = (ordered.sensitivities.entries.map
      (ordered.evaluateSensitivity db.categorySets)).map (·.1) := by
    rw [sets]
    exact congrArg EvaluatedDatabase.sensitivityCategories result
  have none : (ordered.sensitivities.entries.map
      (ordered.evaluateSensitivity ordered.evaluateCategorySets.1)).toList.flatMap (·.2) = [] :=
    (List.append_eq_nil_iff.mp (Report.yields_reject faultless)).2
  rw [← sets] at none
  have categories : db.categories = ordered.categories := by rw [same]
  have orders : db.orders = ordered.orders := by rw [same]
  refine ⟨?_, fun id d hd => ?_⟩
  · rw [sets, evaluateCategorySets_congr categories orders]
  · rw [same] at hd
    have found : ordered.sensitivities.entries[id]? = some d := hd
    have listed : ordered.evaluateSensitivity db.categorySets d ∈
        (ordered.sensitivities.entries.map (ordered.evaluateSensitivity db.categorySets)).toList := by
      rw [Array.toList_map]
      exact List.mem_map_of_mem (Registry.mem_toList_of_get? hd)
    rw [evaluateSensitivity_congr categories orders, allowed]
    refine ⟨?_, List.flatMap_eq_nil_iff.mp none _ listed⟩
    simp [Array.getD_eq_getD_getElem?, found]

end EvaluatedDatabase

end CilPolicy
