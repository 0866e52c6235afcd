import CilPolicy.FileContexts
import CilPolicy.Proofs.Compiler.Agreement
import CilPolicy.Proofs.Database.Origins
import CilPolicy.Proofs.Evaluation.AttributeMeaning
import CilPolicy.Proofs.Evaluation.CategoryRanges
import CilPolicy.Proofs.Lowering.Ranges

/-!
# Texts of levels and contexts

A level is written as its sensitivity and the runs of its categories. Names have none of the marks
that stand between them, so a text splits in one way only: at the colon, at the commas, and at the
dots. The parts between the commas need not be the runs, since a run of two is written as two parts,
but they cover the same places.

With levels, a context is written as its user, role and type and its range, with colons between, so
the text shows the user, the role and the type. The range is one level, or two with a dash between
them, and names may have dashes. So ranges may share a text; then one of them has two levels, and the
text of the other's low level goes on, behind a dash, from that of its own.
-/

namespace CilPolicy

/-! ### Runs -/

/-- The runs of any numbers cover the numbers, and nothing else. -/
theorem mem_runs {numbers : List Nat} {n : Nat} :
    n ∈ numbers ↔ ∃ run ∈ runs numbers, run.1 ≤ n ∧ n ≤ run.2 := by
  induction numbers with
  | nil => simp [runs]
  | cons m ns ih =>
    rw [List.mem_cons, ih, runs]
    split
    · rename_i first last rest found
      have upwards : first ≤ last := runs_ascend (first, last) (found ▸ List.mem_cons_self)
      rw [found]
      split
      · rename_i next
        simp only [List.exists_mem_cons_iff]
        rw [← or_assoc]
        refine or_congr_left ?_
        omega
      · simp only [List.exists_mem_cons_iff]
        refine or_congr_left ?_
        omega
    · rename_i found
      rw [found]
      simp only [List.exists_mem_cons_iff]
      refine or_congr ?_ (by simp)
      omega

/-- The first and the last of a run are among the numbers. -/
theorem ends_mem_of_run {numbers : List Nat} {run : Nat × Nat} (h : run ∈ runs numbers) :
    run.1 ∈ numbers ∧ run.2 ∈ numbers :=
  have upwards := runs_ascend run h
  ⟨mem_runs.mpr ⟨run, h, Nat.le_refl _, upwards⟩, mem_runs.mpr ⟨run, h, upwards, Nat.le_refl _⟩⟩

/-- What stands for a run between the commas: a run of two is written as two numbers. -/
def runPieces (run : Nat × Nat) : List (Nat × Nat) :=
  if run.2 = run.1 + 1 then [(run.1, run.1), (run.2, run.2)] else [run]

theorem runPieces_ne_nil {run : Nat × Nat} : runPieces run ≠ [] := by
  rw [runPieces]
  split <;> simp

theorem mem_runPieces {run : Nat × Nat} {n : Nat} :
    (∃ piece ∈ runPieces run, piece.1 ≤ n ∧ n ≤ piece.2) ↔ run.1 ≤ n ∧ n ≤ run.2 := by
  rw [runPieces]
  split
  · rename_i two
    simp only [List.exists_mem_cons_iff, List.not_mem_nil, false_and, exists_false, or_false]
    omega
  · simp

/-- The ends of a piece are ends of its run. -/
theorem ends_of_piece {run piece : Nat × Nat} (h : piece ∈ runPieces run) :
    (piece.1 = run.1 ∨ piece.1 = run.2) ∧ (piece.2 = run.1 ∨ piece.2 = run.2) := by
  rw [runPieces] at h
  split at h
  · rcases List.mem_pair.mp h with rfl | rfl <;> simp
  · cases List.mem_singleton.mp h
    simp

namespace BitSet

variable {s : BitSet}

def pieces (s : BitSet) : List (Nat × Nat) :=
  (runs s.toList).flatMap runPieces

/-- The pieces of a set cover its numbers, and nothing else. -/
theorem mem_iff_pieces (wf : s.WellFormed) {n : Nat} : n ∈ s ↔ ∃ piece ∈ s.pieces, piece.1 ≤ n ∧ n ≤ piece.2 := by
  rw [← mem_toList wf, mem_runs, pieces]
  simp only [List.mem_flatMap]
  constructor
  · rintro ⟨run, hrun, inside⟩
    obtain ⟨piece, hpiece, inside⟩ := mem_runPieces.mpr inside
    exact ⟨piece, ⟨run, hrun, hpiece⟩, inside⟩
  · rintro ⟨piece, ⟨run, hrun, hpiece⟩, inside⟩
    exact ⟨run, hrun, mem_runPieces.mp ⟨piece, hpiece, inside⟩⟩

theorem ends_mem_of_piece (wf : s.WellFormed) {piece : Nat × Nat} (h : piece ∈ s.pieces) :
    piece.1 ∈ s ∧ piece.2 ∈ s := by
  obtain ⟨run, hrun, hpiece⟩ := List.mem_flatMap.mp h
  obtain ⟨first, last⟩ := ends_mem_of_run hrun
  rw [mem_toList wf] at first last
  obtain ⟨left, right⟩ := ends_of_piece hpiece
  constructor
  · rcases left with same | same <;> rwa [same]
  · rcases right with same | same <;> rwa [same]

end BitSet

/-! ### Joined parts -/

namespace Lists

variable {α : Type} {x y : α}

/-- A part, and what may follow it behind a mark. -/
def tailed (x : α) (a : List α) : Option (List α) → List α
  | none => a
  | some rest => a ++ x :: rest

/-- Two readings of a whole agree, or one of the parts goes on from the other, behind the mark that
something follows there. -/
theorem tailed_cases {a b : List α} {tail tail' : Option (List α)} (same : tailed x a tail = tailed x b tail') :
    (a = b ∧ tail = tail') ∨ (tail.isSome ∧ ∃ rest, b = a ++ x :: rest) ∨
      (tail'.isSome ∧ ∃ rest, a = b ++ x :: rest) := by
  cases tail with
  | none =>
    cases tail' with
    | none => exact .inl ⟨same, rfl⟩
    | some rest' => exact .inr (.inr ⟨rfl, rest', same⟩)
  | some rest =>
    cases tail' with
    | none => exact .inr (.inl ⟨rfl, rest, same.symm⟩)
    | some rest' =>
      rcases List.append_eq_append_iff.mp same with ⟨between, hb, rests⟩ | ⟨between, ha, rests⟩
      · cases between with
        | nil => exact .inl ⟨by simpa using hb.symm, congrArg some (List.cons.inj rests).2⟩
        | cons y between =>
          obtain ⟨rfl, -⟩ := List.cons.inj rests
          exact .inr (.inl ⟨rfl, between, hb⟩)
      · cases between with
        | nil => exact .inl ⟨by simpa using ha, congrArg some (List.cons.inj rests).2.symm⟩
        | cons y between =>
          obtain ⟨rfl, -⟩ := List.cons.inj rests
          exact .inr (.inr ⟨rfl, between, ha⟩)

/-- A part without the mark is known from the whole, and so is what follows it. -/
theorem tailed_inj {a b : List α} {tail tail' : Option (List α)} (left : x ∉ a) (right : x ∉ b)
    (same : tailed x a tail = tailed x b tail') : a = b ∧ tail = tail' := by
  rcases tailed_cases same with agree | ⟨_, rest, rfl⟩ | ⟨_, rest, rfl⟩
  · exact agree
  · exact absurd (List.mem_append_right a List.mem_cons_self) right
  · exact absurd (List.mem_append_right b List.mem_cons_self) left

theorem some_unless_inj {p q : Prop} [Decidable p] [Decidable q] {a b : α}
    (same : (if p then none else some a) = if q then none else some b) : (p ↔ q) ∧ (¬ p → a = b) := by
  split at same <;> split at same <;> simp_all

/-- Parts without the mark that joins them are known from the whole. -/
theorem intercalate_inj [DecidableEq α] {parts parts' : List (List α)} (left : ∀ p ∈ parts, x ∉ p)
    (right : ∀ p ∈ parts', x ∉ p) (full : parts ≠ []) (full' : parts' ≠ [])
    (same : [x].intercalate parts = [x].intercalate parts') : parts = parts' := by
  rw [← List.splitOn_intercalate x left full, same, List.splitOn_intercalate x right full']

theorem mem_tailed {a : List α} {tail : Option (List α)} (h : y ∈ tailed x a tail) :
    y ∈ a ∨ y = x ∨ ∃ rest ∈ tail, y ∈ rest := by
  cases tail with
  | none => exact .inl h
  | some rest => simpa [tailed] using h

theorem mem_intercalate {parts : List (List α)} (h : y ∈ [x].intercalate parts) : y = x ∨ ∃ p ∈ parts, y ∈ p := by
  induction parts with
  | nil => cases h
  | cons p rest ih =>
    cases rest with
    | nil => exact .inr ⟨p, List.mem_singleton.mpr rfl, by simpa using h⟩
    | cons q rest =>
      rw [List.intercalate_cons_cons, List.append_assoc, List.mem_append, List.mem_append, List.mem_singleton] at h
      rcases h with here | mark | later
      · exact .inr ⟨p, List.mem_cons_self, here⟩
      · exact .inl mark
      · refine (ih later).imp_right ?_
        rintro ⟨r, hr, inside⟩
        exact ⟨r, List.mem_cons_of_mem p hr, inside⟩

end Lists

/-- Groups of parts that are joined each on its own may be joined all at once. -/
theorem intercalate_flatMap {β : Type} {mark : String} {f : β → List String} (full : ∀ b, f b ≠ []) (l : List β) :
    mark.intercalate (l.map fun b => mark.intercalate (f b)) = mark.intercalate (l.flatMap f) := by
  induction l with
  | nil => rfl
  | cons b rest ih =>
    cases rest with
    | nil => simp
    | cons b' rest =>
      have more : (b' :: rest).flatMap f ≠ [] := by simp [full b']
      rw [List.map_cons, String.intercalate_cons_of_ne_nil (by simp), ih,
        ← String.intercalate_append_of_ne_nil (full b) more]
      rfl

/-! ### What the text shows -/

namespace EvaluatedDatabase

variable {db : EvaluatedDatabase} {v w : LevelValue}

/-- The characters of a piece: its first category and, behind a dot, its last. -/
def pieceChars (db : EvaluatedDatabase) (piece : Nat × Nat) : List Char :=
  Lists.tailed '.' (db.categoryName piece.1).toList
    (if piece.1 = piece.2 then none else some (db.categoryName piece.2).toList)

theorem mem_pieceChars {piece : Nat × Nat} {x : Char} (h : x ∈ db.pieceChars piece) :
    x = '.' ∨ x ∈ (db.categoryName piece.1).toList ∨ x ∈ (db.categoryName piece.2).toList := by
  rcases Lists.mem_tailed h with first | mark | ⟨last, several, inside⟩
  · exact .inr (.inl first)
  · exact .inl mark
  · split at several
    · cases several
    · cases several
      exact .inr (.inr inside)

theorem categoryRun_eq (run : Nat × Nat) :
    db.categoryRun run = ",".intercalate ((runPieces run).map fun piece => String.ofList (db.pieceChars piece)) := by
  obtain ⟨first, last⟩ := run
  rw [categoryRun, runPieces, ← String.toList_inj]
  split
  · rename_i single
    simp [single, pieceChars, Lists.tailed]
  · rename_i several
    split
    · rename_i two
      simp [two, pieceChars, Lists.tailed]
    · simp [several, pieceChars, Lists.tailed]

/-- The text of a level shows its sensitivity and the pieces of its set. -/
theorem toList_levelText : (db.levelText v).toList =
    Lists.tailed ':' (db.sensitivities.nameOf v.sensitivity).toList
      (if v.categories.pieces = [] then none
        else some ([','].intercalate (v.categories.pieces.map db.pieceChars))) := by
  rw [levelText, BitSet.pieces]
  split
  · rename_i none
    rw [none]
    rfl
  · rename_i other
    have full : (runs v.categories.toList).flatMap runPieces ≠ [] := by
      intro nothing
      obtain ⟨run, rest, split⟩ := List.exists_cons_of_ne_nil other
      rw [split, List.flatMap_cons] at nothing
      exact runPieces_ne_nil (List.append_eq_nil_iff.mp nothing).1
    rw [if_neg full, funext categoryRun_eq, intercalate_flatMap fun run => by simp [runPieces_ne_nil]]
    simp [Lists.tailed, String.toList_intercalate, List.map_flatMap, Function.comp_def]

theorem lt_of_found {α β : Type} {r : Registry α} {f : α → β} {id : Nat} {b : β}
    (h : (r.value? id).map f = some b) : id < r.size := by
  obtain ⟨a, ha, _⟩ := Option.map_eq_some_iff.mp h
  exact Registry.lt_of_value? ha

theorem nameOf_mem_names {α : Type} {r : Registry α} {id : Nat} (h : id < r.size) : r.nameOf id ∈ r.names := by
  obtain ⟨d, hd, named⟩ := Registry.named_nameOf h
  exact Registry.mem_names.mpr (Option.isSome_iff_exists.mp (Registry.find?_isSome.mpr ⟨id, d, hd, named⟩))

/-- Declarations are known by their names, which have letters, digits, underscores and dashes only,
and ordered categories by their places. -/
structure Legible (db : EvaluatedDatabase) : Prop where
  sound : db.skeleton.Sound
  plain : ∀ kind, ∀ name ∈ (db.registry kind).names, ∀ c ∈ name.toList, isNameChar false c
  nodup : db.orders.categories.Nodup
  declared : ∀ id ∈ db.orders.categories, id < db.categories.size

/-- The level has a declared sensitivity and ordered categories. -/
structure LevelOf (db : EvaluatedDatabase) (v : LevelValue) : Prop where
  sensitivity : v.sensitivity < db.sensitivities.size
  wellFormed : v.categories.WellFormed
  placed : ∀ n ∈ v.categories, n < db.orders.categories.length

theorem LevelOf.ends_lt (level : db.LevelOf v) {p : Nat × Nat} (h : p ∈ v.categories.pieces) :
    p.1 < db.orders.categories.length ∧ p.2 < db.orders.categories.length := by
  obtain ⟨first, last⟩ := BitSet.ends_mem_of_piece level.wellFormed h
  exact ⟨level.placed _ first, level.placed _ last⟩

section Legible

variable (legible : db.Legible)

include legible

/-- No name has a mark. -/
theorem Legible.not_mem (kind : RegistryKind) {id : Nat} (h : id < (db.registry kind).size) {mark : Char}
    (special : isNameChar false mark = false) : mark ∉ ((db.registry kind).nameOf id).toList := by
  intro marked
  have plain := legible.plain kind _ (nameOf_mem_names h) mark marked
  rw [special] at plain
  cases plain

theorem Legible.exists_category {n : Nat} (h : n < db.orders.categories.length) :
    ∃ id, db.orders.categories[n]? = some id ∧ id < db.categories.size ∧
      db.categoryName n = db.categories.nameOf id := by
  have found := List.getElem?_eq_getElem h
  refine ⟨_, found, legible.declared _ (List.getElem_mem h), ?_⟩
  rw [categoryName, found]

theorem Legible.category_not_mem {n : Nat} (h : n < db.orders.categories.length) {mark : Char}
    (special : isNameChar false mark = false) : mark ∉ (db.categoryName n).toList := by
  obtain ⟨id, _, inside, named⟩ := legible.exists_category h
  rw [named]
  exact legible.not_mem .category inside special

theorem Legible.category_inj {m n : Nat} (hm : m < db.orders.categories.length) (hn : n < db.orders.categories.length)
    (same : db.categoryName m = db.categoryName n) : m = n := by
  obtain ⟨id, placed, inside, named⟩ := legible.exists_category hm
  obtain ⟨id', placed', inside', named'⟩ := legible.exists_category hn
  have distinct := (Registry.distinct_outline _).mp legible.sound.categories
  obtain rfl : id = id' := distinct.eq_of_nameOf inside inside' (by rw [← named, same, named'])
  exact (List.getElem?_inj hm legible.nodup).mp (placed.trans placed'.symm)

/-- The characters of a piece of ordered categories show the piece. -/
theorem Legible.piece_inj {p q : Nat × Nat}
    (hp : p.1 < db.orders.categories.length ∧ p.2 < db.orders.categories.length)
    (hq : q.1 < db.orders.categories.length ∧ q.2 < db.orders.categories.length)
    (same : db.pieceChars p = db.pieceChars q) : p = q := by
  obtain ⟨first, tail⟩ := Lists.tailed_inj (legible.category_not_mem hp.1 (by decide))
    (legible.category_not_mem hq.1 (by decide)) same
  have firsts := legible.category_inj hp.1 hq.1 (String.toList_inj.mp first)
  obtain ⟨single, last⟩ := Lists.some_unless_inj tail
  refine Prod.ext firsts ?_
  by_cases one : p.1 = p.2
  · rw [← one, firsts, single.mp one]
  · exact legible.category_inj hp.2 hq.2 (String.toList_inj.mp (last one))

theorem Legible.comma_not_mem (hv : db.LevelOf v) : ∀ part ∈ v.categories.pieces.map db.pieceChars, ',' ∉ part := by
  intro part hpart comma
  obtain ⟨p, hp, rfl⟩ := List.mem_map.mp hpart
  obtain ⟨inside, inside'⟩ := hv.ends_lt hp
  rcases mem_pieceChars comma with mark | first | last
  · exact absurd mark (by decide)
  · exact legible.category_not_mem inside (by decide) first
  · exact legible.category_not_mem inside' (by decide) last

/-- Sets whose pieces look the same have the same numbers. -/
theorem Legible.mem_of_pieces (hv : db.LevelOf v) (hw : db.LevelOf w)
    (shown : v.categories.pieces.map db.pieceChars = w.categories.pieces.map db.pieceChars) {n : Nat}
    (h : n ∈ v.categories) : n ∈ w.categories := by
  obtain ⟨p, hp, inside⟩ := (BitSet.mem_iff_pieces hv.wellFormed).mp h
  have listed : db.pieceChars p ∈ w.categories.pieces.map db.pieceChars := shown ▸ List.mem_map_of_mem hp
  obtain ⟨q, hq, chars⟩ := List.mem_map.mp listed
  obtain rfl := legible.piece_inj (hw.ends_lt hq) (hv.ends_lt hp) chars
  exact (BitSet.mem_iff_pieces hw.wellFormed).mpr ⟨q, hq, inside⟩

/-- The text of a level shows the level. -/
theorem Legible.levelText_inj (hv : db.LevelOf v) (hw : db.LevelOf w) (same : db.levelText v = db.levelText w) :
    v = w := by
  have chars := congrArg String.toList same
  rw [toList_levelText, toList_levelText] at chars
  obtain ⟨names, tails⟩ := Lists.tailed_inj
    (legible.not_mem .sensitivity hv.sensitivity (by decide))
    (legible.not_mem .sensitivity hw.sensitivity (by decide)) chars
  have distinct := (Registry.distinct_outline _).mp legible.sound.sensitivities
  have sensitivity := distinct.eq_of_nameOf hv.sensitivity hw.sensitivity (String.toList_inj.mp names)
  obtain ⟨none, lists⟩ := Lists.some_unless_inj tails
  have pieces : v.categories.pieces.map db.pieceChars = w.categories.pieces.map db.pieceChars := by
    by_cases nothing : v.categories.pieces = []
    · rw [nothing, none.mp nothing]
    · exact Lists.intercalate_inj (legible.comma_not_mem hv) (legible.comma_not_mem hw) (by simpa using nothing)
        (by simpa using fun h => nothing (none.mpr h)) (lists nothing)
  have categories := BitSet.eq_of_mem_iff hv.wellFormed hw.wellFormed fun n =>
    ⟨legible.mem_of_pieces hv hw pieces, legible.mem_of_pieces hw hv pieces.symm⟩
  cases v
  cases w
  cases sensitivity
  cases categories
  rfl

end Legible

/-! ### Databases of a text -/

variable {tree : ParseTree} {ss : List Statement} {repeats again : Bool} {resolved : Database}
  {ordered : OrderedDatabase}

/-- Order and evaluation leave references to what is declared. -/
theorem inside_of_stages (closed : resolved.Closed) (order : resolved.order.Yields ordered)
    (evaluate : (ordered.evaluate again).Yields db) : db.Closed ∧ db.OrdersInside := by
  have orders := closed.orderInside.orders order
  obtain ⟨rfl, _⟩ := Database.order_spec order
  obtain ⟨_, same⟩ := OrderedDatabase.evaluate_spec evaluate
  rw [same]
  exact ⟨closed.evaluated, orders.classes, orders.sids, orders.sensitivities, orders.categories⟩

/-- Whatever a text without qualified names comes to is legible. -/
theorem legible_of_stages (built : tree.statements false = .ok ss)
    (resolve : Database.ofStatements repeats ss = .ok resolved) (order : resolved.order.Yields ordered)
    (evaluate : (ordered.evaluate again).Yields db) : db.Legible := by
  obtain ⟨_, inside⟩ := inside_of_stages (Database.closed_of_ofStatements resolve) order evaluate
  obtain ⟨nodup, _⟩ := Database.categories_of_order order
  obtain ⟨rfl, _⟩ := Database.order_spec order
  obtain ⟨_, same⟩ := OrderedDatabase.evaluate_spec evaluate
  have skeleton : db.skeleton = ordered.skeleton := by rw [same]; rfl
  have placed : db.orders = ordered.orders := by rw [same]
  refine ⟨skeleton ▸ Database.sound_of_ofStatements resolve, fun kind name h c hc => ?_, placed ▸ nodup,
    fun id hid => ?_⟩
  · rw [Database.names_eq_of_skeleton skeleton] at h
    obtain ⟨first, rest, chars, letter, others⟩ := (Database.declarable built resolve h).chars
    rw [chars] at hc
    rcases List.mem_cons.mp hc with rfl | hc
    · simp [isNameChar, Char.isAlphanum, letter]
    · exact others c hc
  · obtain ⟨_, found⟩ := inside.categories id hid
    exact lt_of_found found

/-- What is evaluated inside the database, and well formed, is a level of the database. -/
theorem LevelInside.levelOf (inside : db.LevelInside v) (wf : v.categories.WellFormed) : db.LevelOf v where
  sensitivity := by
    obtain ⟨_, found⟩ := inside.sensitivity
    exact lt_of_found found
  wellFormed := wf
  placed n hn := by
    obtain ⟨_, found, _⟩ := inside.categories n hn
    exact (List.getElem?_eq_some_iff.mp found).1

/-- Every level that is evaluated is one of the database. -/
theorem EvaluatedFrom.levelOf (evaluated : EvaluatedFrom repeats ss db) {level : LevelArg Id}
    (within : db.signature.LevelWithin level) (h : db.evalLevel level = .ok v) : db.LevelOf v := by
  obtain ⟨resolved, ordered, resolve, order, _, evaluate⟩ := evaluated
  rw [Database.outcome_resolve] at resolve
  have evaluate := Report.yields_of_outcome evaluate
  obtain ⟨closed, inside⟩ := inside_of_stages (Database.closed_of_ofStatements resolve)
    (Report.yields_of_outcome order) evaluate
  have known := OrderedDatabase.knownWithin_evaluate evaluate
  exact (levelInside closed inside known within h).levelOf (wellFormed_of_known known h)

/-- In a database of a text without qualified names, levels whose texts are the same have the same
sensitivity and the same categories. -/
theorem levelText_injective (built : (tree.build false).outcome.1 = .ok ss) (evaluated : EvaluatedFrom repeats ss db)
    (hv : db.LevelOf v) (hw : db.LevelOf w) (same : db.levelText v = db.levelText w) :
    v.sensitivity = w.sensitivity ∧ v.categories = w.categories := by
  obtain ⟨resolved, ordered, resolve, order, _, evaluate⟩ := evaluated
  rw [Database.outcome_resolve] at resolve
  have legible := legible_of_stages (tree.statements_of_build (Report.yields_of_outcome built)) resolve
    (Report.yields_of_outcome order) (Report.yields_of_outcome evaluate)
  obtain rfl := legible.levelText_inj hv hw same
  exact ⟨rfl, rfl⟩

/-- Two levels with the same four categories, of which the first three make a range. -/
def foldedText : String :=
  "(category c0) (category c1) (category c2) (category c3) (category c4) (categoryorder (c0 c1 c2 c3 c4)) " ++
    "(sensitivity s) (sensitivityorder (s)) (level low (s ((range c0 c2) c4))) (level same (s (c4 c2 c1 c0)))"

/-- Both levels are written with the range, however they were declared. -/
theorem levelText_injective_folded : ∃ tree ss db v w,
    (ParseTree.parseAll [("p.cil", foldedText)]).outcome.1 = .ok tree ∧ (tree.build false).outcome.1 = .ok ss ∧
    EvaluatedFrom false ss db ∧ db.LevelOf v ∧ db.LevelOf w ∧
    db.evalLevel (.named 0) = .ok v ∧ db.evalLevel (.named 1) = .ok w ∧
    db.levelText v = "s:c0.c2,c4" ∧ db.levelText w = "s:c0.c2,c4" ∧
    v.sensitivity = w.sensitivity ∧ v.categories = w.categories := by
  have run : ((ParseTree.parseAll [("p.cil", foldedText)]).outcome.1.toOption.bind fun tree =>
      (tree.build false).outcome.1.toOption.bind fun ss =>
      (Database.resolve false ss).outcome.1.toOption.bind fun resolved =>
      resolved.order.outcome.1.toOption.bind fun ordered =>
      ordered.preVerify.outcome.1.toOption.bind fun _ =>
      (ordered.evaluate false).outcome.1.toOption.bind fun db =>
      (db.evalLevel (.named 0)).toOption.bind fun v =>
      (db.evalLevel (.named 1)).toOption.map fun w =>
        (db.levels.size, db.levelText v, db.levelText w)) = some (2, "s:c0.c2,c4", "s:c0.c2,c4") := by
    decide +kernel
  obtain ⟨tree, parsed, run⟩ := Option.bind_eq_some_iff.mp run
  obtain ⟨ss, built, run⟩ := Option.bind_eq_some_iff.mp run
  obtain ⟨resolved, resolve, run⟩ := Option.bind_eq_some_iff.mp run
  obtain ⟨ordered, order, run⟩ := Option.bind_eq_some_iff.mp run
  obtain ⟨⟨⟩, passed, run⟩ := Option.bind_eq_some_iff.mp run
  obtain ⟨db, evaluate, run⟩ := Option.bind_eq_some_iff.mp run
  obtain ⟨v, low, run⟩ := Option.bind_eq_some_iff.mp run
  obtain ⟨w, again, run⟩ := Option.map_eq_some_iff.mp run
  obtain ⟨two, texts⟩ := Prod.mk.inj run
  obtain ⟨text, text'⟩ := Prod.mk.inj texts
  rw [toOption_eq_some_iff] at parsed built resolve order passed evaluate low again
  have evaluated : EvaluatedFrom false ss db := ⟨resolved, ordered, resolve, order, passed, evaluate⟩
  have within (id : Nat) (h : id < 2) : db.signature.LevelWithin (.named id) := h.trans_eq two.symm
  have hv := evaluated.levelOf (within 0 (by decide)) low
  have hw := evaluated.levelOf (within 1 (by decide)) again
  exact ⟨tree, ss, db, v, w, parsed, built, evaluated, hv, hw, low, again, text, text',
    levelText_injective built evaluated hv hw (text.trans text'.symm)⟩

/-! ### Dashes -/

/-- The name of a sensitivity or category has a dash. -/
def HasDash (db : EvaluatedDatabase) : Prop :=
  ∃ name ∈ db.sensitivities.names ++ db.categories.names, '-' ∈ name.toList

/-- The range from `low` to `high` has two levels, and the text of the other level goes on, behind a dash,
from that of its low one. -/
def Continues (db : EvaluatedDatabase) (low high other : LevelValue) : Prop :=
  low ≠ high ∧ ∃ rest, db.levelText other = db.levelText low ++ "-" ++ rest

theorem Legible.hasDash_of_category (legible : db.Legible) {n : Nat} (h : n < db.orders.categories.length)
    (dash : '-' ∈ (db.categoryName n).toList) : db.HasDash := by
  obtain ⟨id, _, inside, named⟩ := legible.exists_category h
  rw [named] at dash
  exact ⟨_, List.mem_append_right _ (nameOf_mem_names inside), dash⟩

/-- Dashes in the text of a level come from names. -/
theorem Legible.hasDash (legible : db.Legible) (hv : db.LevelOf v) (dash : '-' ∈ (db.levelText v).toList) :
    db.HasDash := by
  rw [toList_levelText] at dash
  rcases Lists.mem_tailed dash with name | mark | ⟨rest, hrest, dash⟩
  · exact ⟨_, List.mem_append_left _ (nameOf_mem_names hv.sensitivity), name⟩
  · exact absurd mark (by decide)
  · split at hrest
    · cases hrest
    · cases hrest
      rcases Lists.mem_intercalate dash with mark | ⟨part, hpart, dash⟩
      · exact absurd mark (by decide)
      · obtain ⟨p, hp, rfl⟩ := List.mem_map.mp hpart
        obtain ⟨first, last⟩ := hv.ends_lt hp
        rcases mem_pieceChars dash with mark | name | name
        · exact absurd mark (by decide)
        · exact legible.hasDash_of_category first name
        · exact legible.hasDash_of_category last name

theorem Legible.hasDash_of_continues (legible : db.Legible) (hw : db.LevelOf w) {high : LevelValue}
    (h : db.Continues v high w) : db.HasDash := by
  obtain ⟨_, rest, text⟩ := h
  exact legible.hasDash hw (by simp [text])

/-! ### Texts of ranges and contexts -/

theorem toList_rangeText : (db.rangeText v w).toList =
    Lists.tailed '-' (db.levelText v).toList (if v = w then none else some (db.levelText w).toList) := by
  rw [rangeText]
  split <;> simp [Lists.tailed]

/-- Ranges with one text are the same, unless one of two levels has a low level whose text goes on to
that of the other's. -/
theorem Legible.rangeText_cases (legible : db.Legible) {low high low' high' : LevelValue} (hlow : db.LevelOf low)
    (hhigh : db.LevelOf high) (hlow' : db.LevelOf low') (hhigh' : db.LevelOf high')
    (same : db.rangeText low high = db.rangeText low' high') :
    (low = low' ∧ high = high') ∨ db.Continues low high low' ∨ db.Continues low' high' low := by
  have chars := congrArg String.toList same
  rw [toList_rangeText, toList_rangeText] at chars
  have continues : ∀ {a b c : LevelValue} {rest : List Char},
      (if a = b then none else some (db.levelText b).toList).isSome →
      (db.levelText c).toList = (db.levelText a).toList ++ '-' :: rest → db.Continues a b c := by
    intro a b c rest two text
    refine ⟨fun single => ?_, String.ofList rest, String.toList_inj.mp (by simp [text])⟩
    rw [if_pos single] at two
    cases two
  rcases Lists.tailed_cases chars with ⟨lows, highs⟩ | ⟨two, rest, text⟩ | ⟨two, rest, text⟩
  · left
    obtain rfl := legible.levelText_inj hlow hlow' (String.toList_inj.mp lows)
    obtain ⟨one, two⟩ := Lists.some_unless_inj highs
    refine ⟨rfl, ?_⟩
    by_cases single : low = high
    · rw [← single, ← one.mp single]
    · exact legible.levelText_inj hhigh hhigh' (String.toList_inj.mp (two single))
  · exact .inr (.inl (continues two text))
  · exact .inr (.inr (continues two text))

/-- What a context with levels comes to. -/
structure ContextParts where
  user : Id
  role : Id
  type : Id
  low : LevelValue
  high : LevelValue
deriving DecidableEq, Repr

def parts? (db : EvaluatedDatabase) (context : ContextArg Id) : Option ContextParts := do
  let c ← db.contextSpec? context
  let (low, high) ← (db.evalRange c.range).toOption
  return ⟨c.user, c.role, c.type, low, high⟩

def partsText (db : EvaluatedDatabase) (p : ContextParts) : String :=
  ":".intercalate [db.users.nameOf p.user, db.roles.nameOf p.role, db.types.nameOf p.type, db.rangeText p.low p.high]

theorem toList_partsText {p : ContextParts} : (db.partsText p).toList =
    Lists.tailed ':' (db.users.nameOf p.user).toList (some (Lists.tailed ':' (db.roles.nameOf p.role).toList
      (some (Lists.tailed ':' (db.types.nameOf p.type).toList (some (db.rangeText p.low p.high).toList))))) := by
  simp [partsText, Lists.tailed]

/-- The context text of a policy with levels is that of the parts. -/
theorem contextText_eq_ok {context : ContextArg Id} {text : String} :
    db.contextText true context = .ok text ↔ ∃ p, db.parts? context = some p ∧ text = db.partsText p := by
  rw [contextText, parts?]
  cases db.contextSpec? context with
  | none => simp
  | some c =>
    cases h : db.evalRange c.range with
    | error => simp [h, inContext, Except.mapError, Except.toOption]
    | ok levels => simp [h, inContext, Except.mapError, Except.toOption, partsText, eq_comm, String.append_assoc]

/-- The parts are declared, and the levels are of the database. -/
structure PartsOf (db : EvaluatedDatabase) (p : ContextParts) : Prop where
  user : p.user < db.users.size
  role : p.role < db.roles.size
  type : p.type < db.types.size
  low : db.LevelOf p.low
  high : db.LevelOf p.high

/-- Contexts with one text are the same, unless their ranges are not. -/
theorem Legible.partsText_cases (legible : db.Legible) {p q : ContextParts} (hp : db.PartsOf p) (hq : db.PartsOf q)
    (same : db.partsText p = db.partsText q) : p.user = q.user ∧ p.role = q.role ∧ p.type = q.type ∧
      ((p.low = q.low ∧ p.high = q.high) ∨ db.Continues p.low p.high q.low ∨
        db.Continues q.low q.high p.low) := by
  have chars := congrArg String.toList same
  rw [toList_partsText, toList_partsText] at chars
  obtain ⟨users, rest⟩ := Lists.tailed_inj (legible.not_mem .user hp.user (by decide))
    (legible.not_mem .user hq.user (by decide)) chars
  obtain ⟨roles, rest⟩ := Lists.tailed_inj (legible.not_mem .role hp.role (by decide))
    (legible.not_mem .role hq.role (by decide)) (Option.some.inj rest)
  obtain ⟨types, rest⟩ := Lists.tailed_inj (legible.not_mem .type hp.type (by decide))
    (legible.not_mem .type hq.type (by decide)) (Option.some.inj rest)
  have distinctUsers := (Registry.distinct_outline _).mp legible.sound.users
  have distinctRoles := (Registry.distinct_outline _).mp legible.sound.roles
  have distinctTypes := (Registry.distinct_outline _).mp legible.sound.types
  exact ⟨distinctUsers.eq_of_nameOf hp.user hq.user (String.toList_inj.mp users),
    distinctRoles.eq_of_nameOf hp.role hq.role (String.toList_inj.mp roles),
    distinctTypes.eq_of_nameOf hp.type hq.type (String.toList_inj.mp types),
    legible.rangeText_cases hp.low hp.high hq.low hq.high (String.toList_inj.mp (Option.some.inj rest))⟩

theorem partsOf (passed : db.Passed) (closed : db.Closed) (inside : db.ChecksInside) {context : ContextArg Id}
    (within : db.signature.ContextWithin context) {p : ContextParts} (h : db.parts? context = some p) :
    db.PartsOf p := by
  obtain ⟨c, hspec, h⟩ := Option.bind_eq_some_iff.mp h
  obtain ⟨⟨low, high⟩, hlevels, h⟩ := Option.bind_eq_some_iff.mp h
  cases h
  have levels := toOption_eq_some_iff.mp hlevels
  have fits := closed.contextSpec within hspec
  obtain ⟨insideLow, insideHigh⟩ := inside.ranges _ fits.range _ levels
  obtain ⟨wfLow, wfHigh⟩ := wellFormed_of_evalRange passed levels
  obtain ⟨_, type⟩ := fits.type
  exact ⟨lt_of_found fits.user, lt_of_found fits.role, lt_of_found type, insideLow.levelOf wfLow,
    insideHigh.levelOf wfHigh⟩

end EvaluatedDatabase

/-! ### File contexts -/

namespace Compiler

open EvaluatedDatabase

variable {c : Compiler} {lowered : LoweredPolicy} {compiled : CompiledPolicy}

theorem inside_of_lower (run : c.lower.Yields lowered) : lowered.db.ChecksInside := by
  obtain ⟨passed, _⟩ := stages_of_lower run
  obtain ⟨_, _, _, _, resolve, order, _, evaluate, _⟩ := exists_stages run
  have resolve := Database.ofStatements_of_resolve resolve
  obtain ⟨closed, orders⟩ := inside_of_stages (Database.closed_of_ofStatements resolve) order evaluate
  exact checksInside closed orders passed.evaluated passed.categories

theorem legible_of_lower (run : c.lower.Yields lowered) (plain : c.options.qualifiedNames = false) :
    lowered.db.Legible := by
  obtain ⟨_, _, _, built, resolve, order, _, evaluate, _⟩ := exists_stages run
  rw [plain] at built
  exact legible_of_stages (c.tree.statements_of_build built) (Database.ofStatements_of_resolve resolve) order evaluate

/-- Every file context of a policy with levels comes to parts of the database, and its text is theirs. -/
theorem exists_parts (run : c.lower.Yields lowered) {x : Label FileSelector (Option (ContextArg Id))}
    (h : x ∈ lowered.db.labels.files) {context : ContextArg Id} (given : x.context = some context) :
    ∃ p, lowered.db.parts? context = some p ∧ lowered.db.PartsOf p ∧
      lowered.db.contextText true context = .ok (lowered.db.partsText p) := by
  obtain ⟨passed, _⟩ := stages_of_lower run
  obtain ⟨closed, filled⟩ := closed_of_lower run
  have within := closed.within.labels.files x h context given
  have checked := passed.labels_checked.files x h context given
  obtain ⟨text, written⟩ := passed.contextText_ok closed filled within checked true
  obtain ⟨p, parts, rfl⟩ := contextText_eq_ok.mp written
  exact ⟨p, parts, partsOf passed closed (inside_of_lower run) within parts, written⟩

/-- In a policy with levels that compiles without qualified names, every file context comes to parts
and has a text. Texts are different where the user, the role or the type is, and they are different
where a level is, unless a sensitivity or category has a dash in its name, and one context has two
levels and the text of the other's low level goes on, behind a dash, from that of its own. -/
theorem file_contexts_distinct (run : c.compile.outcome.1 = .ok compiled) (plain : c.options.qualifiedNames = false)
    (mls : compiled.settings.mls = true) : ∃ lowered, c.lower.outcome.1 = .ok lowered ∧
    lowered.db.fileContexts true = .ok compiled.fileContexts ∧
    ∀ x ∈ lowered.db.labels.files, ∀ y ∈ lowered.db.labels.files, ∀ a b, x.context = some a → y.context = some b →
      ∃ p q text text', lowered.db.parts? a = some p ∧ lowered.db.parts? b = some q ∧
        lowered.db.contextText true a = .ok text ∧ lowered.db.contextText true b = .ok text' ∧
        (text = text' → p.user = q.user ∧ p.role = q.role ∧ p.type = q.type ∧
          ((p.low = q.low ∧ p.high = q.high) ∨
            lowered.db.HasDash ∧
              (lowered.db.Continues p.low p.high q.low ∨ lowered.db.Continues q.low q.high p.low))) := by
  rw [compile_outcome] at run
  obtain ⟨lowered, lower, finished⟩ := bind_eq_ok.mp run
  obtain ⟨_, _, finished⟩ := bind_eq_ok.mp finished
  obtain ⟨texts, written, done⟩ := bind_eq_ok.mp finished
  cases done
  have yields := Report.yields_of_outcome lower
  have legible := legible_of_lower yields plain
  refine ⟨lowered, lower, mls ▸ written, fun x hx y hy a b ha hb => ?_⟩
  obtain ⟨p, parts, hp, text⟩ := exists_parts yields hx ha
  obtain ⟨q, parts', hq, text'⟩ := exists_parts yields hy hb
  refine ⟨p, q, _, _, parts, parts', text, text', fun same => ?_⟩
  obtain ⟨user, role, type, levels⟩ := legible.partsText_cases hp hq same
  refine ⟨user, role, type, levels.imp_right fun continues => ⟨?_, continues⟩⟩
  rcases continues with on | on
  · exact legible.hasDash_of_continues hq.low on
  · exact legible.hasDash_of_continues hp.low on

/-! ### Ranges with one text -/

/-- A sort of which pairs can be computed from its definition, as those of `mergeSort` cannot. -/
def sortPair {α : Type} (le : α → α → Bool) : List α → List α
  | [a, b] => if le a b then [a, b] else [b, a]
  | l => l.mergeSort le

theorem mergeSort_eq_sortPair {α : Type} (l : List α) (le : α → α → Bool) : l.mergeSort le = sortPair le l := by
  unfold sortPair
  split
  · rename_i a b
    cases h : le a b <;> simp [List.mergeSort, List.MergeSort.Internal.splitInTwo, h]
  · rfl

/-- A compiler that has read two file contexts: one from `s` to `t`, and one at the level `s-t`. -/
def dashedCompiler : Compiler :=
  small {} [wordsNode ["sensitivity", "s-t"], wordsNode ["sensitivity", "t"],
    listNode ["sensitivityorder"] [wordsNode ["s", "s-t", "t"]], wordsNode ["mls", "true"],
    listNode ["userrange", "u"] [rangeNode "s" "t"], allowNode "a",
    listNode ["filecon", "/x", "file"] [contextNode "s" "t"],
    listNode ["filecon", "/y", "file"] [contextNode "s-t" "s-t"]]

/-- The parts and the text of a label. -/
def shown (db : EvaluatedDatabase) (x : Label FileSelector (Option (ContextArg Id))) : Option (ContextParts × String) :=
  x.context.bind fun context => (db.parts? context).bind fun p =>
    (db.contextText true context).toOption.map fun text => (p, text)

set_option maxRecDepth 10000 in
theorem dashedCompiler_shows : (dashedCompiler.lower.outcome.1.toOption.bind fun lowered =>
    (finish lowered).toOption.map fun compiled =>
      (compiled.settings.mls, compiled.fileContexts, lowered.db.labels.files.map (shown lowered.db))) =
    some (true, "/x\t--\tu:r:a:s-t\n/y\t--\tu:r:a:s-t\n",
      [some (⟨0, 1, 0, ⟨0, ∅⟩, ⟨2, ∅⟩⟩, "u:r:a:s-t"), some (⟨0, 1, 0, ⟨1, ∅⟩, ⟨1, ∅⟩⟩, "u:r:a:s-t")]) := by
  simp only [lower, OrderedDatabase.evaluate, Database.sortedLabels, sortLabels, mergeSort_eq_sortPair]
  decide +kernel

theorem exists_of_shown {db : EvaluatedDatabase} {x : Label FileSelector (Option (ContextArg Id))} {p : ContextParts}
    {text : String} (h : shown db x = some (p, text)) :
    ∃ context, x.context = some context ∧ db.parts? context = some p ∧ db.contextText true context = .ok text := by
  obtain ⟨context, given, h⟩ := Option.bind_eq_some_iff.mp h
  obtain ⟨q, parts, h⟩ := Option.bind_eq_some_iff.mp h
  obtain ⟨t, written, h⟩ := Option.map_eq_some_iff.mp h
  cases h
  exact ⟨context, given, parts, toOption_eq_some_iff.mp written⟩

/-- The compiled policy labels two paths with one text, and means different levels. -/
theorem dashedCompiler_compiles : ∃ compiled lowered x y a b p q text,
    dashedCompiler.compile.outcome.1 = .ok compiled ∧ compiled.settings.mls = true ∧
    dashedCompiler.lower.outcome.1 = .ok lowered ∧ x ∈ lowered.db.labels.files ∧ y ∈ lowered.db.labels.files ∧
    x.context = some a ∧ y.context = some b ∧ lowered.db.parts? a = some p ∧ lowered.db.parts? b = some q ∧
    lowered.db.contextText true a = .ok text ∧ lowered.db.contextText true b = .ok text ∧ p.low ≠ q.low := by
  obtain ⟨lowered, lower, shows⟩ := Option.bind_eq_some_iff.mp dashedCompiler_shows
  obtain ⟨compiled, finished, shows⟩ := Option.map_eq_some_iff.mp shows
  obtain ⟨mls, shows⟩ := Prod.mk.inj shows
  obtain ⟨-, shows⟩ := Prod.mk.inj shows
  obtain ⟨x, rest, files, first, shows⟩ := List.map_eq_cons_iff.mp shows
  obtain ⟨y, rest', more, second, -⟩ := List.map_eq_cons_iff.mp shows
  subst more
  obtain ⟨a, givenA, partsA, textA⟩ := exists_of_shown first
  obtain ⟨b, givenB, partsB, textB⟩ := exists_of_shown second
  rw [toOption_eq_some_iff] at lower finished
  refine ⟨compiled, lowered, x, y, a, b, _, _, _, ?_, mls, lower, by simp [files], by simp [files], givenA, givenB,
    partsA, partsB, textA, textB, by decide⟩
  rw [compile_outcome, lower]
  exact finished

/-- Contexts that differ may have one text. -/
theorem file_contexts_collide : ¬ ∀ (c : Compiler) (compiled : CompiledPolicy) (lowered : LoweredPolicy),
    c.compile.outcome.1 = .ok compiled → c.options.qualifiedNames = false → compiled.settings.mls = true →
    c.lower.outcome.1 = .ok lowered → ∀ x ∈ lowered.db.labels.files, ∀ y ∈ lowered.db.labels.files,
      ∀ a b, x.context = some a → y.context = some b → ∀ p q, lowered.db.parts? a = some p →
      lowered.db.parts? b = some q → p ≠ q → lowered.db.contextText true a ≠ lowered.db.contextText true b := by
  intro distinct
  obtain ⟨compiled, lowered, x, y, a, b, p, q, text, run, mls, lower, hx, hy, ha, hb, hp, hq, ta, tb, differ⟩ :=
    dashedCompiler_compiles
  exact distinct dashedCompiler compiled lowered run rfl mls lower x hx y hy a b ha hb p q hp hq
    (fun same => differ (congrArg ContextParts.low same)) (ta.trans tb.symm)

/-- The two texts agree since a sensitivity has a dash in its name, at which one text goes on from
that of the other low level. -/
theorem file_contexts_distinct_dashed : ∃ compiled lowered, ∃ p q : ContextParts,
    dashedCompiler.compile.outcome.1 = .ok compiled ∧ dashedCompiler.options.qualifiedNames = false ∧
    compiled.settings.mls = true ∧ dashedCompiler.lower.outcome.1 = .ok lowered ∧ p.low ≠ q.low ∧ lowered.db.HasDash ∧
    (lowered.db.Continues p.low p.high q.low ∨ lowered.db.Continues q.low q.high p.low) := by
  obtain ⟨compiled, lowered, x, y, a, b, p, q, text, run, mls, lower, hx, hy, ha, hb, hp, hq, ta, tb, differ⟩ :=
    dashedCompiler_compiles
  obtain ⟨lowered', lower', -, apart⟩ := file_contexts_distinct run rfl mls
  cases lower.symm.trans lower'
  obtain ⟨p', q', t, t', hp', hq', ta', tb', apart⟩ := apart x hx y hy a b ha hb
  cases hp.symm.trans hp'
  cases hq.symm.trans hq'
  cases ta.symm.trans ta'
  cases tb.symm.trans tb'
  obtain ⟨-, -, -, levels⟩ := apart rfl
  refine ⟨compiled, lowered, p, q, run, rfl, mls, lower, differ, ?_⟩
  exact levels.resolve_left fun same => differ same.1

end Compiler

end CilPolicy
