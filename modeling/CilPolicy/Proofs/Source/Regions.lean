import CilPolicy.Proofs.Source.Reading
import Mathlib.Data.List.Basic
import Mathlib.Logic.Relation

/-!
# Regions of line marks

The list of a line mark holds what is read before its list is closed, by whatever closes it. This is
the region up to the end of the mark when the parentheses in it are balanced. When they are not, a
node may be held by a mark after whose end it stands, or not be held by a mark in whose region it
stands. Its place is reported by the marks that hold it.
-/

namespace CilPolicy

open Piece

theorem Position.origins_eq (p : Position) :
    p.location.origins.map Prod.fst = (p.scope.marks.map LineMark.told).map fun told => told.2.1 := by
  have each : ∀ (marks : List LineMark) (offset : Nat),
      (originsOf offset marks).map Prod.fst = (marks.map LineMark.told).map fun told => told.2.1 := by
    intro marks
    induction marks with
    | nil => exact fun _ => rfl
    | cons mark outer ih =>
      intro offset
      rw [originsOf, List.map_cons, List.map_cons, List.map_cons, ih]
      rfl
  exact each _ _

namespace ParseTree

/-- The number of the `j`-th node that the piece of the next file makes. -/
def nodeOf (t : ParseTree) (ps : List Piece) (i j : Nat) : Nat :=
  t.nodeCount + countBefore ps i + j

/-- The piece makes a `j`-th node. -/
def Makes (ps : List Piece) (i j : Nat) : Prop :=
  ∃ p v, ps[i]? = some p ∧ p.values[j]? = some v

/-- The first node is somewhere below the second. -/
def Below (t : ParseTree) : Nat → Nat → Prop :=
  Relation.TransGen fun a b => ∃ row, t.rows[a]? = some row ∧ row.parent = some b

/-- The line marks before the piece whose partners come after it, the last one first. -/
def Around (weight : Piece → Int) (ps : List Piece) (i : Nat) (ms : List Nat) : Prop :=
  ms.Pairwise (· > ·) ∧ ∀ m, m ∈ ms ↔ IsMark ps m ∧ ∃ e, Partner weight ps m e ∧ m < i ∧ i < e

/-- The line marks whose lists are open before the piece, the last one first. -/
def openMarks (ps : List Piece) (i : Nat) : List Nat :=
  (openBefore ps i).filter fun m => (toldAt ps m).isSome

/-- The piece stands between the end of the mark's region and the end of its list. -/
def Astray (ps : List Piece) (m i : Nat) : Prop :=
  ∃ e c, Partner Piece.marks ps m e ∧ Partner Piece.lists ps m c ∧ (e < i ∧ i < c ∨ c < i ∧ i < e)

variable {t after : ParseTree} {path source : String} {ps : List Piece} {i j k m e c : Nat}

theorem Below.lt (below : t.Below i k) : k < i := by
  induction below with
  | single step =>
    obtain ⟨row, found, parent⟩ := step
    exact parent_lt found parent
  | tail _ step ih =>
    obtain ⟨row, found, parent⟩ := step
    exact Nat.lt_trans (parent_lt found parent) ih

/-- A node is below its parent and below what its parent is below of. -/
theorem below_iff {row : Node.Row} (found : t.rows[i]? = some row) (parent : row.parent = some k) :
    t.Below i m ↔ k = m ∨ t.Below k m := by
  rw [Below, Relation.TransGen.head'_iff]
  constructor
  · rintro ⟨k', ⟨row', found', parent'⟩, above⟩
    cases found.symm.trans found'
    cases parent.symm.trans parent'
    exact (Relation.reflTransGen_iff_eq_or_transGen.mp above).imp_left Eq.symm
  · intro above
    exact ⟨k, ⟨row, found, parent⟩, Relation.reflTransGen_iff_eq_or_transGen.mpr (above.imp_left Eq.symm)⟩

/-- The tree after a file has the rows it had, and those of the pieces. -/
structure Follows (path : String) (t after : ParseTree) (ps : List Piece) : Prop where
  sound : Sound ps
  active : ∀ k, k ≤ ps.length → 0 ≤ level Piece.marks ps k
  parens : level Piece.parens ps ps.length = 0
  marks : level Piece.marks ps ps.length = 0
  rows : ∃ front back, after.rows = front ++ back ∧ front.length = t.nodeCount ∧
    Source.Written path t.nodeCount ps ps.length (back.map Node.Row.place)

theorem follows_of_accepted (accepted : (t.add path source).2 = none) :
    Follows path t (t.add path source).1 (pieces (Token.tokenize source)) := by
  rw [add] at accepted ⊢
  cases run : Source.parseTokens path (Token.tokenize source) with
  | error r =>
    rw [run] at accepted
    cases accepted
  | ok s =>
    obtain ⟨plain, parens, suspended⟩ := Source.finished_of_run (Token.ended_scan true 1 source.toList) run
    have laid : Source.Laid path t.nodeCount (pieces (Token.tokenize source)) _ s :=
      Source.laid_of_run run plain
    have closed : s.enclosing = [] := by
      have length := laid.opened.length_eq
      rw [laid.depth_eq, parens, suspended] at length
      exact List.length_eq_zero_iff.mp length
    have written := laid.written
    rw [closed] at written
    refine ⟨laid.sound, laid.active, ?_, ?_, _, _, t.rows_concat s.close, t.length_before _, ?_⟩
    · rw [← laid.parens, parens]
      rfl
    · rw [← laid.marks, suspended]
      rfl
    · rw [Source.State.close, closed]
      exact written

/-- Different pieces that make nodes have different first ones. -/
theorem nodeOf_inj {p q : Piece} (found : ps[k]? = some p) (makes : p.values ≠ []) (found' : ps[m]? = some q)
    (makes' : q.values ≠ []) : t.nodeOf ps k 0 = t.nodeOf ps m 0 ↔ k = m := by
  refine ⟨fun same => ?_, fun same => same ▸ rfl⟩
  rw [nodeOf, nodeOf] at same
  by_contra different
  rcases Nat.lt_or_gt_of_ne different with less | less
  · have later := countBefore_lt found makes less
    omega
  · have later := countBefore_lt found' makes' less
    omega

theorem not_below_file : ¬ after.Below t.nodeCount (t.nodeOf ps m 0) := by
  intro below
  have less := below.lt
  rw [nodeOf] at less
  omega

namespace Follows

variable (follows : Follows path t after ps)
include follows

/-- The new nodes have the values that the pieces make, one after the other. -/
theorem values : (after.rows.drop (t.nodeCount + (Node.sourceHeader + 1))).map (·.value) =
    ps.flatMap Piece.values := by
  obtain ⟨front, back, same, length, written⟩ := follows.rows
  have values := written.values
  rw [List.map_map, List.take_length] at values
  rw [same, ← length, List.drop_length_add_append, List.map_drop]
  exact congrArg (List.drop 5) values

theorem exists_row (makes : Makes ps i j) : ∃ row, after.rows[t.nodeOf ps i j]? = some row ∧
    Source.Stands path t.nodeCount ps i j row.place := by
  obtain ⟨front, back, same, length, written⟩ := follows.rows
  obtain ⟨p, v, found, value⟩ := makes
  obtain ⟨place, there, stands⟩ := written.stands i p j v (List.getElem?_eq_some_iff.mp found).1 found value
  rw [List.getElem?_map] at there
  obtain ⟨row, inside, rfl⟩ := Option.map_eq_some_iff.mp there
  refine ⟨row, ?_, stands⟩
  rw [same, nodeOf, ← length, Nat.add_assoc, List.getElem?_append_right (Nat.le_add_right _ _),
    Nat.add_sub_cancel_left]
  exact inside

/-- A node is below the first node of what is open before its piece, and a header below its list. -/
theorem below_nodeOf (makes : Makes ps i j) {p : Piece} (found : ps[m]? = some p) (opens : p.lists = 1) :
    after.Below (t.nodeOf ps i j) (t.nodeOf ps m 0) ↔ m ∈ openBefore ps i ∨ i = m ∧ j ≠ 0 := by
  have makes' := values_ne_nil_of_lists opens
  induction i using Nat.strongRecOn generalizing j with
  | _ i ih =>
    obtain ⟨q, v, there, value⟩ := makes
    have some : q.values ≠ [] := fun none => by simp [none] at value
    have first : after.Below (t.nodeOf ps i 0) (t.nodeOf ps m 0) ↔ m ∈ openBefore ps i := by
      have makes₀ : Makes ps i 0 := ⟨q, _, there, List.getElem?_eq_getElem (List.length_pos_iff.mpr some)⟩
      obtain ⟨row, found₀, parent, _⟩ := follows.exists_row makes₀
      rw [below_iff found₀ parent, if_pos rfl]
      cases opened : openBefore ps i with
      | nil =>
        refine iff_of_false ?_ List.not_mem_nil
        rintro (same | below)
        · rw [Source.holder, nodeOf, countBefore_eq] at same
          omega
        · exact not_below_file below
      | cons k outer =>
        obtain ⟨less, rfl⟩ := openBefore_cons opened
        obtain ⟨r, found', opens'⟩ := lists_of_mem_openBefore (opened ▸ List.mem_cons_self)
        have some' := values_ne_nil_of_lists opens'
        have above := ih k less ⟨r, _, found', List.getElem?_eq_getElem (List.length_pos_iff.mpr some')⟩
        have same := nodeOf_inj (t := t) found' some' found makes'
        rw [List.mem_cons, eq_comm (a := m)]
        refine or_congr same (above.trans ?_)
        simp
    by_cases header : j = 0
    · subst header
      simpa using first
    · obtain ⟨row, found', parent, _⟩ := follows.exists_row ⟨q, v, there, value⟩
      rw [below_iff found' parent, if_neg header]
      have same := nodeOf_inj (t := t) there some found makes'
      refine (or_congr same first).trans ?_
      rw [or_comm]
      simp [header]

/-- Every mark has an end, and its list is closed. -/
theorem exists_partners (mark : IsMark ps m) : ∃ e c, Partner Piece.marks ps m e ∧ Partner Piece.lists ps m c := by
  obtain ⟨word, line, source, found⟩ := mark
  have inside := Nat.le_of_lt (List.getElem?_eq_some_iff.mp found).1
  have depth : level Piece.lists ps ps.length = 0 := by rw [level_lists, follows.parens, follows.marks]; rfl
  have lists := follows.sound m inside
  have active := follows.active m inside
  obtain ⟨e, ends⟩ := exists_partner neg_one_le_marks found rfl (by rw [follows.marks]; exact active)
  obtain ⟨c, closes⟩ := exists_partner neg_one_le_lists found rfl (by omega)
  exact ⟨e, c, ends, closes⟩

theorem mem_openBefore_iff (mark : IsMark ps m) (makes : Makes ps i j) :
    m ∈ openBefore ps i ↔ ∃ c, Partner Piece.lists ps m c ∧ m < i ∧ i < c := by
  obtain ⟨p, v, found, value⟩ := makes
  obtain ⟨_, c, _, closes⟩ := follows.exists_partners mark
  rw [Piece.mem_openBefore_iff follows.sound closes found value, closes.exists_iff]

end Follows

/-- A piece that makes nodes is no partner. -/
theorem Makes.ne_partner {weight : Piece → Int} (makes : Makes ps i j)
    (nonneg : ∀ p : Piece, p.values ≠ [] → 0 ≤ weight p) (partner : Partner weight ps m e) : i ≠ e := by
  rintro rfl
  obtain ⟨p, v, found, value⟩ := makes
  have some := nonneg p fun none => by simp [none] at value
  have closes := partner.weight_neg found
  omega

/-- A piece that makes nodes is astray of a mark exactly when it is in one of region and list only. -/
theorem Makes.not_astray_iff (makes : Makes ps i j) (ends : Partner Piece.marks ps m e)
    (closes : Partner Piece.lists ps m c) : ¬ Astray ps m i ↔ (m < i ∧ i < c ↔ m < i ∧ i < e) := by
  have notEnd := makes.ne_partner (fun _ => marks_nonneg_of_values) ends
  have notClose := makes.ne_partner (fun _ => lists_nonneg_of_values) closes
  have after := ends.1
  have after' := closes.1
  constructor
  · intro not
    have clear : ¬ (e < i ∧ i < c ∨ c < i ∧ i < e) := fun between => not ⟨e, c, ends, closes, between⟩
    omega
  · rintro same ⟨e', c', ends', closes', between⟩
    cases ends.unique ends'
    cases closes.unique closes'
    omega

theorem isMark_iff : IsMark ps m ↔ (toldAt ps m).isSome := by
  rw [IsMark, toldAt]
  cases ps[m]? with
  | none => simp
  | some p => cases p <;> simp [told?]

/-- No piece is astray of a mark in whose region the parentheses are balanced. -/
theorem not_astray_of_balanced (ends : Partner Piece.marks ps m e)
    (within : ∀ n, n ≤ e → m < n → level Piece.parens ps m ≤ level Piece.parens ps n)
    (balanced : level Piece.parens ps (e + 1) = level Piece.parens ps m) : ¬ Astray ps m i := by
  rintro ⟨e', c, ends', closes, between⟩
  cases ends.unique ends'
  cases closes.unique (ends.lists_of_balanced within balanced)
  omega

namespace Follows

variable (follows : Follows path t after ps)
include follows

/-- A node is held by the list of the mark until the list is closed. -/
theorem held_iff (mark : IsMark ps m) (closes : Partner Piece.lists ps m c) (other : i ≠ m) (makes : Makes ps i j) :
    after.Below (t.nodeOf ps i j) (t.nodeOf ps m 0) ↔ m < i ∧ i < c := by
  obtain ⟨word, line, source, found⟩ := id mark
  rw [follows.below_nodeOf makes found rfl, or_iff_left (fun both => other both.1),
    follows.mem_openBefore_iff mark makes, closes.exists_iff]

/-- The region of a mark is what its list holds exactly when nothing is astray of it. -/
theorem region_iff (mark : IsMark ps m) (ends : Partner Piece.marks ps m e) (closes : Partner Piece.lists ps m c) :
    (∀ i j, i ≠ m → Makes ps i j → (after.Below (t.nodeOf ps i j) (t.nodeOf ps m 0) ↔ m < i ∧ i < e)) ↔
      ∀ i j, Makes ps i j → ¬ Astray ps m i := by
  constructor
  · intro region i j makes
    rw [makes.not_astray_iff ends closes]
    by_cases other : i = m
    · omega
    · exact (follows.held_iff mark closes other makes).symm.trans (region i j other makes)
  · intro clear i j other makes
    exact (follows.held_iff mark closes other makes).trans ((makes.not_astray_iff ends closes).mp (clear i j makes))

theorem around_openMarks (makes : Makes ps i j) : Around Piece.lists ps i (openMarks ps i) := by
  refine ⟨(sorted_openBefore ps i).filter _, fun m => ?_⟩
  rw [openMarks, List.mem_filter, ← isMark_iff, and_comm]
  exact and_congr_right fun mark => follows.mem_openBefore_iff mark makes

/-- A node is reported by the marks whose lists hold it, the innermost first. -/
theorem exists_around (makes : Makes ps i j) : ∃ row ms, after.rows[t.nodeOf ps i j]? = some row ∧
    Around Piece.lists ps i ms ∧ row.position.scope.marks.map LineMark.told = ms.filterMap (toldAt ps) := by
  obtain ⟨row, found, _, within⟩ := follows.exists_row makes
  refine ⟨row, openMarks ps i, found, follows.around_openMarks makes, within.marks.trans ?_⟩
  rw [openMarks, List.filterMap_filter]
  refine List.filterMap_congr fun m _ => ?_
  cases toldAt ps m <;> rfl

/-- The marks that report a node are those in whose regions it stands exactly when it is astray of
no mark. -/
theorem around_iff (makes : Makes ps i j) {ms : List Nat} (around : Around Piece.lists ps i ms) :
    Around Piece.marks ps i ms ↔ ∀ m, IsMark ps m → ¬ Astray ps m i := by
  have both : ∀ {m e c}, IsMark ps m → Partner Piece.marks ps m e → Partner Piece.lists ps m c →
      ((m ∈ ms ↔ m < i ∧ i < e) ↔ ¬ Astray ps m i) := by
    intro m e c mark ends closes
    rw [around.2, and_iff_right mark, closes.exists_iff, makes.not_astray_iff ends closes]
  constructor
  · rintro ⟨_, region⟩ m mark
    obtain ⟨e, c, ends, closes⟩ := follows.exists_partners mark
    refine (both mark ends closes).mp ?_
    rw [region, and_iff_right mark, ends.exists_iff]
  · intro clear
    refine ⟨around.1, fun m => ?_⟩
    by_cases mark : IsMark ps m
    · obtain ⟨e, c, ends, closes⟩ := follows.exists_partners mark
      rw [(both mark ends closes).mpr (clear m mark), and_iff_right mark, ends.exists_iff]
    · exact iff_of_false (fun member => mark ((around.2 m).mp member).1) fun region => mark region.1

end Follows

/-- The nodes after the header of an accepted file are those of its pieces, in order. The list of a
line mark holds the pieces up to the one that closes the list, and these are the pieces of its region
exactly when no node is made between the end of the region and the close of the list. A node is
reported by the marks whose lists hold it, innermost first, and these are the marks in whose regions
it stands exactly when it stands in no such place. -/
theorem marks_hold (t : ParseTree) (path source : String) (accepted : (t.add path source).2 = none) :
    let ps := pieces (Token.tokenize source)
    let after := (t.add path source).1
    (after.rows.drop (t.nodeCount + (Node.sourceHeader + 1))).map (·.value) = ps.flatMap Piece.values ∧
    (∀ m, IsMark ps m → ∃ e c, Partner Piece.marks ps m e ∧ Partner Piece.lists ps m c ∧
      (∀ n, after.Below n (t.nodeOf ps m 0) → t.nodeOf ps m 0 < n) ∧
      (∀ i j, i ≠ m → Makes ps i j →
        (after.Below (t.nodeOf ps i j) (t.nodeOf ps m 0) ↔ m < i ∧ i < c)) ∧
      ((∀ i j, i ≠ m → Makes ps i j →
          (after.Below (t.nodeOf ps i j) (t.nodeOf ps m 0) ↔ m < i ∧ i < e)) ↔
        ∀ i j, Makes ps i j → ¬ Astray ps m i)) ∧
    ∀ i j, Makes ps i j → ∃ row ms, after.rows[t.nodeOf ps i j]? = some row ∧ Around Piece.lists ps i ms ∧
      row.position.scope.marks.map LineMark.told = ms.filterMap (toldAt ps) ∧
      row.position.location.origins.map Prod.fst =
        (ms.filterMap (toldAt ps)).map (fun told => told.2.1) ∧
      (Around Piece.marks ps i ms ↔ ∀ m, IsMark ps m → ¬ Astray ps m i) := by
  intro ps after
  have follows : Follows path t after ps := follows_of_accepted accepted
  refine ⟨follows.values, fun m mark => ?_, fun i j makes => ?_⟩
  · obtain ⟨e, c, ends, closes⟩ := follows.exists_partners mark
    exact ⟨e, c, ends, closes, fun n below => below.lt, fun i j => follows.held_iff mark closes,
      follows.region_iff mark ends closes⟩
  · obtain ⟨row, ms, found, around, marks⟩ := follows.exists_around makes
    refine ⟨row, ms, found, around, marks, ?_, follows.around_iff makes around⟩
    rw [Position.origins_eq, marks]

/-- A list that begins in the region of a mark and ends after it: the name `b` stands after the end of
the mark, and yet the list of the mark holds it and the mark reports it. -/
theorem marks_hold_crossed :
    let source := ";;* lms 10 h.te\n(a\n;;* lme\nb)\n"
    let ps := pieces (Token.tokenize source)
    let t : ParseTree := {}
    (t.add "p.cil" source).2 = none ∧ IsMark ps 0 ∧ Partner Piece.marks ps 0 4 ∧ ps[5]? = some (.name "b") ∧
      (t.add "p.cil" source).1.Below (t.nodeOf ps 5 0) (t.nodeOf ps 0 0) ∧
      ∃ row, (t.add "p.cil" source).1.rows[t.nodeOf ps 5 0]? = some row ∧
        row.position.location.origins.map Prod.fst = ["h.te"] := by
  intro source ps t
  have accepted : (t.add "p.cil" source).2 = none := by decide +kernel
  have same : ps = [.begins "lms" "10" "h.te", .opening, .name "a", .silent, .ends, .name "b", .closing, .silent,
    .silent] := by decide +kernel
  have mark : IsMark ps 0 := ⟨"lms", "10", "h.te", by rw [same]; rfl⟩
  have b : ps[5]? = some (.name "b") := by rw [same]; rfl
  have ends : Partner Piece.marks ps 0 4 := by
    rw [same]
    exact ⟨by decide, by decide, by decide⟩
  have closes : Partner Piece.lists ps 0 6 := by
    rw [same]
    exact ⟨by decide, by decide, by decide⟩
  have makes : Makes ps 5 0 := ⟨_, _, b, rfl⟩
  have reported : ((t.add "p.cil" source).1.rows[t.nodeOf ps 5 0]?.map fun row =>
      row.position.location.origins.map Prod.fst) = some ["h.te"] := by decide +kernel
  obtain ⟨_, lists, _⟩ := marks_hold t "p.cil" source accepted
  obtain ⟨e, c, _, closes', _, held, _⟩ := lists 0 mark
  cases closes.unique closes'
  exact ⟨accepted, mark, ends, b, (held 5 0 (by decide) makes).mpr (by decide),
    Option.map_eq_some_iff.mp reported⟩

end ParseTree

end CilPolicy
