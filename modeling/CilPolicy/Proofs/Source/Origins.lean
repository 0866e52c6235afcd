import CilPolicy.Proofs.Source.Lines
import Mathlib.Data.List.Sort
import Mathlib.Data.String.Basic

/-!
# High-level lines

A mark that tells lines apart reports the line that it is written with, plus the lines between its own
and that of the node, or of the next mark inside. The counter measures them as long as no region that
comes from one line has stood in between, and it never runs ahead of the lines of the text.
-/

namespace CilPolicy

open Piece

/-- The lines that a counter has passed; where lines are expanded, the line of the mark is one more. -/
def passed (offset : Nat) (expanding : Bool) : Nat :=
  if expanding then offset + 1 else offset

/-- The counter has passed no more lines than there are, nor has any that is suspended. -/
def Clock.Behind (c : Clock) (line : Nat) : Prop :=
  passed c.offset c.expanding ≤ line ∧ ∀ x ∈ c.suspended, passed x.offset x.expanding ≤ line

theorem offset_le_passed (offset : Nat) (expanding : Bool) : offset ≤ passed offset expanding := by
  cases expanding
  · exact Nat.le_refl _
  · exact Nat.le_succ _

theorem Clock.Behind.mono {c : Clock} {line line' : Nat} (behind : c.Behind line) (le : line ≤ line') :
    c.Behind line' :=
  ⟨Nat.le_trans behind.1 le, fun x hx => Nat.le_trans (behind.2 x hx) le⟩

theorem Clock.Behind.pass {c : Clock} {line : Nat} {p : Piece} {g : List Token} (behind : c.Behind line)
    (ends : p.marks ≠ 0 → lineEnds g = 1) : (c.pass g p).Behind (line + lineEnds g) := by
  obtain ⟨offset, expanding, suspended⟩ := c
  obtain ⟨now, outside⟩ := id behind
  have le := offset_le_passed offset expanding
  dsimp only at now outside
  cases p with
  | opening | closing | name | silent =>
    refine ⟨?_, (behind.mono (Nat.le_add_right _ _)).2⟩
    cases expanding <;> simp only [Clock.pass, passed, reduceIte, Bool.false_eq_true] at now ⊢ <;> omega
  | begins word number source =>
    rw [ends (by simp [Piece.marks])]
    refine ⟨?_, List.forall_mem_cons.mpr (behind.mono (Nat.le_succ _))⟩
    cases expands : word == "lmx" <;> simp only [Clock.pass, expands, passed, reduceIte, Bool.false_eq_true] <;>
      omega
  | ends =>
    rw [ends (by simp [Piece.marks])]
    cases suspended with
    | nil => exact behind.mono (Nat.le_succ _)
    | cons left rest =>
      obtain ⟨left_le, rest_le⟩ := List.forall_mem_cons.mp outside
      refine ⟨?_, fun x hx => Nat.le_succ_of_le (rest_le x hx)⟩
      obtain ⟨left, expandsOutside⟩ := left
      cases expandsOutside <;> cases expanding <;>
        simp only [Clock.pass, passed, reduceIte, Bool.false_eq_true] at now left_le ⊢ <;> omega

/-! ### Accepted texts -/

/-- No region ends that has not begun, and every line mark ends its line. -/
structure Regular (ts : List Token) : Prop where
  active : ∀ k, k ≤ (pieces ts).length → 0 ≤ level Piece.marks (pieces ts) k
  ends : ∀ (n : Nat) (p : Piece) (g : List Token), (pieces ts)[n]? = some p → (groups ts)[n]? = some g →
    p.marks ≠ 0 → lineEnds g = 1

theorem length_pieces_le (ts : List Token) : (pieces ts).length ≤ (groups ts).length := by
  fun_induction pieces ts <;> simp_all [groups, groups_plain]

theorem exists_group {ts : List Token} {n : Nat} {p : Piece} (found : (pieces ts)[n]? = some p) :
    ∃ g, (groups ts)[n]? = some g := by
  have inside := (List.getElem?_eq_some_iff.mp found).1
  exact ⟨_, List.getElem?_eq_getElem (Nat.lt_of_lt_of_le inside (length_pieces_le ts))⟩

namespace Regular

variable {ts : List Token} {m n e : Nat} (regular : Regular ts)
include regular

/-- The counter is never ahead of the lines of the text. -/
theorem behind (n : Nat) : (clockAt ts n).Behind (lineOf ts n) := by
  induction n with
  | zero => exact ⟨Nat.le_refl 1, by simp [clockAt]⟩
  | succ n ih =>
    cases found : (pieces ts)[n]? with
    | none =>
      rw [clockAt, found]
      exact ih.mono (lineOf_mono (Nat.le_succ n))
    | some p =>
      obtain ⟨g, found'⟩ := exists_group found
      rw [clockAt_succ found found', lineOf_succ found']
      exact ih.pass (regular.ends n p g found found')

theorem offset_le (n : Nat) : (clockAt ts n).offset ≤ lineOf ts n :=
  Nat.le_trans (offset_le_passed _ _) (regular.behind n).1

/-- What is suspended are the counters outside the regions that are open. -/
theorem length_suspended (le : n ≤ (pieces ts).length) :
    ((clockAt ts n).suspended.length : Int) = level Piece.marks (pieces ts) n := by
  induction n with
  | zero => rfl
  | succ n ih =>
    have ih := ih (by omega)
    obtain ⟨p, found⟩ : ∃ p, (pieces ts)[n]? = some p := ⟨_, List.getElem?_eq_getElem (by omega)⟩
    obtain ⟨g, found'⟩ := exists_group found
    have active := regular.active (n + 1) le
    rw [level_succ found] at active ⊢
    rw [clockAt_succ found found']
    cases p with
    | opening | closing | name | silent => simpa [Clock.pass, Piece.marks] using ih
    | begins => simp [Clock.pass, Piece.marks, ih]
    | ends =>
      rw [Clock.pass]
      split
      · rename_i none
        rw [none, List.length_nil] at ih
        simp only [Piece.marks] at active
        omega
      · rename_i outside rest suspended
        rw [suspended, List.length_cons] at ih
        simp only [Piece.marks]
        omega

end Regular

/-! ### Regions in which lines are told apart -/

/-- The piece begins a region that comes from one line. -/
def Expands (ps : List Piece) (n : Nat) : Prop :=
  ∃ source line, toldAt ps n = some (true, source, line)

theorem exists_begins {ps : List Piece} {m line : Nat} {expands : Bool} {source : String}
    (told : toldAt ps m = some (expands, source, line)) :
    ∃ word number, ps[m]? = some (.begins word number source) ∧ (word == "lmx") = expands := by
  rw [toldAt] at told
  obtain ⟨p, found, told⟩ := Option.bind_eq_some_iff.mp told
  cases p with
  | begins word number source' =>
    cases told
    exact ⟨word, number, found, rfl⟩
  | opening | closing | name | ends | silent => cases told

/-- Since the mark the counter has gone with the lines, and every region that is open inside is one in
which lines are told apart. -/
structure InStep (ts : List Token) (m n : Nat) : Prop where
  expanding : (clockAt ts n).expanding = false
  counted : (clockAt ts n).offset + lineOf ts m = (clockAt ts m).offset + lineOf ts n
  suspended : ∃ inner : List Source.Suspended, (clockAt ts n).suspended =
      inner ++ ⟨(clockAt ts m).offset, (clockAt ts m).expanding⟩ :: (clockAt ts m).suspended ∧
    ∀ x ∈ inner, x.expanding = false

namespace Regular

variable {ts : List Token} {m n e line : Nat} {source : String} (regular : Regular ts)
include regular

theorem inStep_mark (told : toldAt (pieces ts) m = some (false, source, line)) : InStep ts m (m + 1) := by
  obtain ⟨word, number, found, expands⟩ := exists_begins told
  obtain ⟨g, found'⟩ := exists_group found
  have own := regular.ends m _ g found found' (by simp [Piece.marks])
  have clock := clockAt_succ found found'
  simp only [Clock.pass, expands, Bool.false_eq_true, reduceIte] at clock
  refine ⟨by rw [clock], ?_, [], by rw [clock]; rfl, by simp⟩
  rw [clock, lineOf_succ found', own]
  dsimp only
  omega

theorem inStep_succ (ends : Partner Piece.marks (pieces ts) m e) (later : m < n) (less : n < e)
    (plain : ¬ Expands (pieces ts) n) (inStep : InStep ts m n) : InStep ts m (n + 1) := by
  obtain ⟨expanding, counted, inner, suspended, others⟩ := inStep
  have inside := ends.lt_length
  obtain ⟨p, found⟩ : ∃ p, (pieces ts)[n]? = some p := ⟨_, List.getElem?_eq_getElem (by omega)⟩
  obtain ⟨g, found'⟩ := exists_group found
  have own := regular.ends n p g found found'
  have clock := clockAt_succ found found'
  cases p with
  | opening | closing | name | silent =>
    simp only [Clock.pass, expanding, Bool.false_eq_true, reduceIte] at clock
    refine ⟨by rw [clock], ?_, inner, by rw [clock, suspended], others⟩
    rw [clock, lineOf_succ found']
    dsimp only
    omega
  | begins word number source =>
    have expands : (word == "lmx") = false := by
      by_contra lmx
      rw [Bool.not_eq_false] at lmx
      exact plain ⟨source, _, by rw [toldAt, found, Option.bind_some, told?, lmx]⟩
    simp only [Clock.pass, expands, expanding, Bool.false_eq_true, reduceIte] at clock
    refine ⟨by rw [clock], ?_, ⟨(clockAt ts n).offset, false⟩ :: inner, ?_, ?_⟩
    · rw [clock, lineOf_succ found', own (by simp [Piece.marks])]
      dsimp only
      omega
    · rw [clock, suspended, List.cons_append]
    · exact List.forall_mem_cons.mpr ⟨rfl, others⟩
  | ends =>
    -- The region that ends is one inside, as that of the mark goes on.
    have depth := regular.length_suspended (n := n) (by omega)
    have depth' := regular.length_suspended (n := m) (by omega)
    have deeper := ends.2.2 (n + 1) less (by omega)
    rw [level_succ found, ← depth, ← depth'] at deeper
    simp only [Piece.marks] at deeper
    cases inner with
    | nil =>
      rw [suspended, List.nil_append, List.length_cons] at deeper
      omega
    | cons outside inner =>
      obtain ⟨still, others⟩ := List.forall_mem_cons.mp others
      rw [Clock.pass, suspended, List.cons_append] at clock
      simp only [still, expanding, Bool.false_eq_true, reduceIte] at clock
      refine ⟨by rw [clock], ?_, inner, by rw [clock], others⟩
      rw [clock, lineOf_succ found', own (by simp [Piece.marks])]
      dsimp only
      omega

theorem inStep (told : toldAt (pieces ts) m = some (false, source, line))
    (ends : Partner Piece.marks (pieces ts) m e) (later : m < n) (le : n ≤ e)
    (plain : ∀ k, m < k → k < n → ¬ Expands (pieces ts) k) : InStep ts m n := by
  induction n, later using Nat.le_induction with
  | base => exact regular.inStep_mark told
  | succ n later ih =>
    exact regular.inStep_succ ends later le (plain n later (Nat.lt_succ_self n))
      (ih (by omega) fun k after before => plain k after (by omega))

/-- What stands inside a region stands on a later line than its mark, and the region ends on a line. -/
theorem lineOf_lt (told : toldAt (pieces ts) m = some (false, source, line)) (later : m < n) :
    lineOf ts m < lineOf ts n := by
  obtain ⟨word, number, found, _⟩ := exists_begins told
  obtain ⟨g, found'⟩ := exists_group found
  have next := lineOf_succ found'
  rw [regular.ends m _ g found found' (by simp [Piece.marks])] at next
  have le : lineOf ts (m + 1) ≤ lineOf ts n := lineOf_mono later
  omega

/-- The lines of the mark and of the end of its region are two. -/
theorem lineOf_lt_lineEnds (told : toldAt (pieces ts) m = some (false, source, line))
    (ends : Partner Piece.marks (pieces ts) m e) : lineOf ts m < lineEnds ts := by
  have between := regular.lineOf_lt told ends.1
  obtain ⟨p, found⟩ : ∃ p, (pieces ts)[e]? = some p := ⟨_, List.getElem?_eq_getElem ends.lt_length⟩
  obtain ⟨g, found'⟩ := exists_group found
  have closes := ends.weight_neg found
  have next := lineOf_succ found'
  rw [regular.ends e p g found found' (by omega)] at next
  have last := lineOf_le ts (e + 1)
  omega

end Regular

/-! ### Origins -/

/-- What is to be reported of the mark `m` for a node of the piece `inner`, or for the next mark
inside: a mark that comes from one line reports that line. One that tells lines apart reports the line
that it is written with and the lines between, if no region that comes from one line was begun in
between and the numbers are small enough. -/
def Reports (ts : List Token) (inner m : Nat) (origin : String × Nat) : Prop :=
  ∃ expands line, toldAt (pieces ts) m = some (expands, origin.1, line) ∧
    (expands = true → origin.2 = line) ∧
    (expands = false → lineOf ts m < lineOf ts inner ∧
      ((∀ k, m < k → k < inner → ¬ Expands (pieces ts) k) →
        line + (lineOf ts inner - lineOf ts m - 1) + lineEnds ts < Position.lineModulus →
        origin.2 = line + (lineOf ts inner - lineOf ts m - 1)))

namespace Regular

variable {ts : List Token} {m inner e : Nat} (regular : Regular ts)
include regular

theorem reports {mark : LineMark} (found : markAt ts m = some mark) (ends : Partner Piece.marks (pieces ts) m e)
    (later : m < inner) (less : inner < e) :
    Reports ts inner m (mark.path, if mark.expands then mark.line
      else (mark.line + (clockAt ts inner).offset) % Position.lineModulus - (mark.offset + 1)) := by
  obtain ⟨⟨expands, source, line⟩, told, rfl⟩ := Option.map_eq_some_iff.mp found
  refine ⟨expands, line, told, ?_, ?_⟩
  · rintro rfl
    rfl
  · rintro rfl
    have between := regular.lineOf_lt told later
    refine ⟨between, fun plain small => ?_⟩
    have counted := (regular.inStep told ends later (Nat.le_of_lt less) plain).counted
    have behind := regular.offset_le m
    have last := regular.lineOf_lt_lineEnds told ends
    have sum : line + (clockAt ts inner).offset < Position.lineModulus := by omega
    dsimp only
    rw [if_neg Bool.false_ne_true, Nat.mod_eq_of_lt sum]
    omega

/-- A mark is told by the lines between it and what stands next inside. -/
theorem forall₂_reports {ms : List Nat} (sorted : (inner :: ms).Pairwise (· > ·))
    (around : ∀ m ∈ ms, IsMark (pieces ts) m ∧ ∃ e, Partner Piece.marks (pieces ts) m e ∧ inner < e) :
    List.Forall₂ (fun pair origin => Reports ts pair.1 pair.2 origin) ((inner :: ms).zip ms)
      (Position.originsOf (clockAt ts inner).offset (ms.filterMap (markAt ts))) := by
  induction ms generalizing inner with
  | nil => exact .nil
  | cons m ms ih =>
    obtain ⟨⟨isMark, e, ends, less⟩, others⟩ := List.forall_mem_cons.mp around
    obtain ⟨first, sorted⟩ := List.pairwise_cons.mp sorted
    have later : m < inner := first m List.mem_cons_self
    obtain ⟨told, htold⟩ := Option.isSome_iff_exists.mp (ParseTree.isMark_iff.mp isMark)
    have found : markAt ts m = some ⟨told.1, told.2.1, told.2.2, (clockAt ts m).offset⟩ := by
      rw [markAt, htold]
      rfl
    rw [List.filterMap_cons_some found, Position.originsOf, List.zip_cons_cons]
    refine .cons (regular.reports found ends later less) (ih sorted fun m' hm' => ?_)
    obtain ⟨isMark', e', ends', less'⟩ := others m' hm'
    exact ⟨isMark', e', ends', Nat.lt_trans later less'⟩

end Regular

namespace ParseTree

variable {t : ParseTree} {path source : String} {i j k : Nat}

/-- An accepted text is regular, and its nodes have the positions that it says. -/
theorem positions_of_accepted (accepted : (t.add path source).2 = none) :
    Regular (Token.tokenize source) ∧
      ((t.add path source).1.rows.drop t.nodeCount).map (·.position) =
        positionsBefore path (Token.tokenize source) (pieces (Token.tokenize source)).length := by
  rw [add] at accepted ⊢
  cases run : Source.parseTokens path (Token.tokenize source) with
  | error r =>
    rw [run] at accepted
    cases accepted
  | ok s =>
    obtain ⟨plain, parens, suspended⟩ := Source.finished_of_run (Token.ended_scan true 1 source.toList) run
    have timed : Source.Timed path t.nodeCount (Token.tokenize source) _ s :=
      Source.timed_of_run (counted_scan true 1 source.toList) run plain
    have closed : s.enclosing = [] := by
      have length := timed.layout.opened.length_eq
      rw [timed.layout.depth_eq, parens, suspended] at length
      exact List.length_eq_zero_iff.mp length
    refine ⟨⟨timed.layout.active, fun n p g found found' => ?_⟩, ?_⟩
    · exact timed.ends n p g (List.getElem?_eq_some_iff.mp found).1 found found'
    · have positions := timed.positions
      rw [closed] at positions
      dsimp only
      rw [rows_concat, List.drop_left' (t.length_before _), ← positions, Source.State.close, closed, Source.laid,
        Node.places, List.map_map]
      rfl

/-- A new node stands in the header of the file, or a piece makes it. -/
theorem position_cases (accepted : (t.add path source).2 = none) {row : Node.Row}
    (found : (t.add path source).1.rows[k]? = some row) (new : t.nodeCount ≤ k) :
    (k < t.nodeCount + (Node.sourceHeader + 1) ∧ row.position = {}) ∨
      ∃ i j, Makes (pieces (Token.tokenize source)) i j ∧
        k = t.nodeOf (pieces (Token.tokenize source)) i j := by
  obtain ⟨_, positions⟩ := positions_of_accepted accepted
  obtain ⟨k, rfl⟩ := Nat.exists_eq_add_of_le new
  have there := congrArg (·[k]?) positions
  simp only [List.getElem?_map, List.getElem?_drop, found, Option.map_some] at there
  have inside := (List.getElem?_eq_some_iff.mp there.symm).1
  rw [length_positionsBefore] at inside
  obtain header | ⟨i, p, found', j, makes, rfl⟩ := exists_piece_of_lt inside
  · rw [getElem?_positionsBefore_header header] at there
    exact .inl ⟨Nat.add_lt_add_left header _, Option.some.inj there⟩
  · have value := List.getElem?_eq_getElem makes
    exact .inr ⟨i, j, ⟨p, _, found', value⟩, (Nat.add_assoc _ _ _).symm⟩

/-- The nodes of a piece stand where the text says. -/
theorem exists_position (accepted : (t.add path source).2 = none)
    (makes : Makes (pieces (Token.tokenize source)) i j) :
    ∃ row, (t.add path source).1.rows[t.nodeOf (pieces (Token.tokenize source)) i j]? = some row ∧
      row.position = positionAt path (Token.tokenize source) i := by
  obtain ⟨_, positions⟩ := positions_of_accepted accepted
  obtain ⟨p, v, found, value⟩ := makes
  have inside := (List.getElem?_eq_some_iff.mp found).1
  have makes := (List.getElem?_eq_some_iff.mp value).1
  have there : (positionsBefore path _ _)[_]? = _ := getElem?_positionsBefore inside found makes
  rw [← positions, List.getElem?_map, List.getElem?_drop, ← Nat.add_assoc] at there
  exact Option.map_eq_some_iff.mp there

theorem markAt_openMarks (ts : List Token) (i : Nat) :
    (openBefore (pieces ts) i).filterMap (markAt ts) = (openMarks (pieces ts) i).filterMap (markAt ts) := by
  rw [openMarks, List.filterMap_filter]
  refine List.filterMap_congr fun m _ => ?_
  rw [markAt]
  cases toldAt (pieces ts) m <;> rfl

/-- In a file in which the parentheses of every region are balanced, each node is reported on its line,
with one origin for each mark in whose region it stands, the innermost first. -/
theorem lines_exact (t : ParseTree) (path source : String) (accepted : (t.add path source).2 = none)
    (balanced : ∀ m e, IsMark (pieces (Token.tokenize source)) m →
      Partner Piece.marks (pieces (Token.tokenize source)) m e →
      (∀ n, n ≤ e → m < n → level Piece.parens (pieces (Token.tokenize source)) m ≤
        level Piece.parens (pieces (Token.tokenize source)) n) ∧
      level Piece.parens (pieces (Token.tokenize source)) (e + 1) =
        level Piece.parens (pieces (Token.tokenize source)) m) :
    let ts := Token.tokenize source
    let after := (t.add path source).1
    (∀ k row, after.rows[k]? = some row → t.nodeCount ≤ k →
      (k < t.nodeCount + (Node.sourceHeader + 1) ∧ row.position = {}) ∨
        ∃ i j, Makes (pieces ts) i j ∧ k = t.nodeOf (pieces ts) i j) ∧
    ∀ i j, Makes (pieces ts) i j → ∃ row ms, after.rows[t.nodeOf (pieces ts) i j]? = some row ∧
      Around Piece.marks (pieces ts) i ms ∧ row.position.location.file = path ∧
      row.position.location.line = lineOf ts i ∧
      List.Forall₂ (fun pair origin => Reports ts pair.1 pair.2 origin) ((i :: ms).zip ms)
        row.position.location.origins := by
  intro ts after
  have follows : Follows path t after (pieces ts) := follows_of_accepted accepted
  obtain ⟨regular, _⟩ := positions_of_accepted accepted
  refine ⟨fun k row found new => position_cases accepted found new, fun i j makes => ?_⟩
  obtain ⟨row, found, position⟩ := exists_position accepted makes
  have clear : ∀ m, IsMark (pieces ts) m → ¬ Astray (pieces ts) m i := by
    intro m mark
    obtain ⟨e, _, ends, _⟩ := follows.exists_partners mark
    obtain ⟨within, same⟩ := balanced m e mark ends
    exact not_astray_of_balanced ends within same
  have around := (follows.around_iff makes (follows.around_openMarks makes)).mpr clear
  refine ⟨row, openMarks (pieces ts) i, found, around, ?_, ?_, ?_⟩
  · rw [position]
    rfl
  · rw [position]
    rfl
  · have origins : row.position.location.origins =
        Position.originsOf (clockAt ts i).offset ((openMarks (pieces ts) i).filterMap (markAt ts)) := by
      rw [position, ← markAt_openMarks]
      rfl
    rw [origins]
    have inside : ∀ m ∈ openMarks (pieces ts) i,
        m < i ∧ IsMark (pieces ts) m ∧ ∃ e, Partner Piece.marks (pieces ts) m e ∧ i < e := by
      intro m hm
      obtain ⟨mark, e, ends, later, less⟩ := (around.2 m).mp hm
      exact ⟨later, mark, e, ends, less⟩
    exact regular.forall₂_reports (.cons (fun m hm => (inside m hm).1) around.1) fun m hm => (inside m hm).2

/-- In a region that comes from one line, inside one in which lines are told apart. -/
theorem lines_exact_nested :
    let source := ";;* lms 10 a.te\n(x\n;;* lmx 42 m.te\n(y)\n;;* lme\nz)\n;;* lme\n"
    let ts := Token.tokenize source
    let t : ParseTree := {}
    (t.add "p.cil" source).2 = none ∧
      (∀ m e, IsMark (pieces ts) m → Partner Piece.marks (pieces ts) m e →
        (∀ n, n ≤ e → m < n → level Piece.parens (pieces ts) m ≤ level Piece.parens (pieces ts) n) ∧
        level Piece.parens (pieces ts) (e + 1) = level Piece.parens (pieces ts) m) ∧
      (pieces ts)[6]? = some (.name "y") ∧
      ∃ row ms, (t.add "p.cil" source).1.rows[t.nodeOf (pieces ts) 6 0]? = some row ∧
        Around Piece.marks (pieces ts) 6 ms ∧
        List.Forall₂ (fun pair origin => Reports ts pair.1 pair.2 origin) ((6 :: ms).zip ms)
          row.position.location.origins ∧
        row.position.location = ⟨"p.cil", 4, [("m.te", 42), ("a.te", 11)]⟩ := by
  intro source ts t
  have accepted : (t.add "p.cil" source).2 = none := by decide +kernel
  have same : pieces ts = [.begins "lms" "10" "a.te", .opening, .name "x", .silent, .begins "lmx" "42" "m.te",
      .opening, .name "y", .closing, .silent, .ends, .name "z", .closing, .silent, .ends, .silent] := by
    decide +kernel
  have outer : Partner Piece.marks (pieces ts) 0 13 := by
    rw [same]
    exact ⟨by decide, by decide, by decide⟩
  have inner : Partner Piece.marks (pieces ts) 4 9 := by
    rw [same]
    exact ⟨by decide, by decide, by decide⟩
  have balanced : ∀ m e, IsMark (pieces ts) m → Partner Piece.marks (pieces ts) m e →
      (∀ n, n ≤ e → m < n → level Piece.parens (pieces ts) m ≤ level Piece.parens (pieces ts) n) ∧
      level Piece.parens (pieces ts) (e + 1) = level Piece.parens (pieces ts) m := by
    intro m e mark ends
    have marks : ∀ m < 15, (toldAt (pieces ts) m).isSome → m = 0 ∨ m = 4 := by
      rw [same]
      decide
    have inside : m < 15 := by
      have length := Nat.lt_trans ends.1 ends.lt_length
      rwa [same] at length
    rcases marks m inside (isMark_iff.mp mark) with rfl | rfl
    · cases outer.unique ends
      rw [same]
      exact ⟨by decide, by decide⟩
    · cases inner.unique ends
      rw [same]
      exact ⟨by decide, by decide⟩
  have y : (pieces ts)[6]? = some (.name "y") := by
    rw [same]
    rfl
  have reported : ((t.add "p.cil" source).1.rows[t.nodeOf (pieces ts) 6 0]?.map fun row => row.position.location) =
      some ⟨"p.cil", 4, [("m.te", 42), ("a.te", 11)]⟩ := by
    decide +kernel
  obtain ⟨_, lines⟩ := lines_exact t "p.cil" source accepted balanced
  obtain ⟨row, ms, found, around, _, _, origins⟩ := lines 6 0 ⟨_, _, y, rfl⟩
  refine ⟨accepted, balanced, y, row, ms, found, around, origins, ?_⟩
  rw [found] at reported
  exact Option.some.inj reported

end ParseTree

/-! ### Sums that a location takes -/

theorem length_le_utf8ByteSize (s : String) : s.toList.length ≤ s.utf8ByteSize := by
  rw [← String.utf8Len_toList]
  induction s.toList with
  | nil => exact Nat.le_refl 0
  | cons c cs ih =>
    have positive := c.utf8Size_pos
    rw [List.length_cons, String.utf8Len_cons]
    omega

/-- A line end takes a character of the text. -/
theorem lineEnds_scan (fresh : Bool) (line : Nat) (text : List Char) :
    lineEnds (Token.scan fresh line text) ≤ text.length := by
  fun_induction Token.scan fresh line text with
  | case1 => exact Nat.zero_le _
  | case2 fresh line text c rest split start token isNewline line' ih =>
    have shorter : token.rest.length ≤ rest.length := Token.lexeme_rest_le start c rest
    have blank := (List.dropWhile_suffix (l := text) Token.isBlank).length_le
    have one : ∀ t : Token, lineEnds [t] ≤ 1 := fun t => List.countP_le_length
    have first := one ⟨token.kind, String.ofList token.chars, line'⟩
    rw [split, List.length_cons] at blank
    rw [← List.singleton_append, lineEnds_append]
    omega

namespace Position

/-- The sums that a location takes before they are cut to 32 bits: for each mark that tells lines
apart its line with the counter of what stands inside, and its own counter with one. The difference
of the two is cut at zero. -/
def sumsOf (offset : Nat) : List LineMark → List Nat
  | [] => []
  | mark :: outer => (if mark.expands then [] else [mark.line + offset, mark.offset + 1]) ++ sumsOf mark.offset outer

def sums (p : Position) : List Nat :=
  sumsOf p.offset p.scope.marks

end Position

/-- Only the line that a mark is written with can make a sum too great. -/
theorem sumsOf_fit_iff {ts : List Token} (small : ∀ n, (clockAt ts n).offset + 1 < Position.lineModulus) (inner : Nat)
    {ms : List Nat} (marks : ∀ m ∈ ms, IsMark (pieces ts) m) :
    (∀ n ∈ Position.sumsOf (clockAt ts inner).offset (ms.filterMap (markAt ts)), n < Position.lineModulus) ↔
      ∀ pair ∈ (inner :: ms).zip ms, ∀ source line, toldAt (pieces ts) pair.2 = some (false, source, line) →
        line + (clockAt ts pair.1).offset < Position.lineModulus := by
  induction ms generalizing inner with
  | nil => simp [Position.sumsOf]
  | cons m ms ih =>
    obtain ⟨first, others⟩ := List.forall_mem_cons.mp marks
    obtain ⟨⟨expands, source, line⟩, told⟩ := Option.isSome_iff_exists.mp (ParseTree.isMark_iff.mp first)
    have found : markAt ts m = some ⟨expands, source, line, (clockAt ts m).offset⟩ := by
      rw [markAt, told]
      rfl
    rw [List.filterMap_cons_some found, Position.sumsOf, List.forall_mem_append, ih m others, List.zip_cons_cons,
      List.forall_mem_cons, told]
    refine and_congr_left fun _ => ?_
    cases expands with
    | true => simp
    | false =>
      have own := small m
      simp only [Bool.false_eq_true, reduceIte, List.forall_mem_cons, Option.some.injEq, Prod.mk.injEq, true_and]
      constructor
      · rintro ⟨sum, _⟩ _ _ ⟨rfl, rfl⟩
        exact sum
      · exact fun sum => ⟨sum source line ⟨rfl, rfl⟩, own, by simp⟩

namespace ParseTree

theorem Around.unique {weight : Piece → Int} {ps : List Piece} {i : Nat} {ms ms' : List Nat}
    (around : Around weight ps i ms) (around' : Around weight ps i ms') : ms = ms' :=
  around.1.eq_of_mem_iff around'.1 fun m => (around.2 m).trans (around'.2 m).symm

/-- In a file of fewer than 2^31 bytes no counter is greater than the line on which it stands, and
every line is a number of 31 bits. So the sums that the location of a node takes are numbers of 32
bits exactly when no mark around it is written with a line that leaves no room for the counter. -/
theorem sums_fit_iff (t : ParseTree) (path source : String) (accepted : (t.add path source).2 = none)
    (short : source.utf8ByteSize < 2 ^ 31) :
    let ts := Token.tokenize source
    (∀ n, (clockAt ts n).offset ≤ lineOf ts n ∧ lineOf ts n ≤ 2 ^ 31) ∧
    ∀ k row, (t.add path source).1.rows[k]? = some row → t.nodeCount ≤ k →
      ((∀ n ∈ row.position.sums, n < Position.lineModulus) ↔
        ∀ i j ms, Makes (pieces ts) i j → k = t.nodeOf (pieces ts) i j → Around Piece.lists (pieces ts) i ms →
          ∀ pair ∈ (i :: ms).zip ms, ∀ source line, toldAt (pieces ts) pair.2 = some (false, source, line) →
            line + (clockAt ts pair.1).offset < Position.lineModulus) := by
  intro ts
  have follows : Follows path t (t.add path source).1 (pieces ts) := follows_of_accepted accepted
  obtain ⟨regular, _⟩ := positions_of_accepted accepted
  have lines : ∀ n, (clockAt ts n).offset ≤ lineOf ts n ∧ lineOf ts n ≤ 2 ^ 31 := by
    intro n
    have last := lineOf_le ts n
    have ends : lineEnds ts ≤ source.toList.length := lineEnds_scan true 1 source.toList
    have bytes := length_le_utf8ByteSize source
    exact ⟨regular.offset_le n, by omega⟩
  have small : ∀ n, (clockAt ts n).offset + 1 < Position.lineModulus := by
    intro n
    obtain ⟨behind, line⟩ := lines n
    have words : Position.lineModulus = 2 ^ 32 := rfl
    omega
  refine ⟨lines, fun k row found new => ?_⟩
  have fit : ∀ {i j}, Makes (pieces ts) i j → k = t.nodeOf (pieces ts) i j →
      ((∀ n ∈ row.position.sums, n < Position.lineModulus) ↔
        ∀ pair ∈ (i :: openMarks (pieces ts) i).zip (openMarks (pieces ts) i), ∀ source line,
          toldAt (pieces ts) pair.2 = some (false, source, line) →
            line + (clockAt ts pair.1).offset < Position.lineModulus) := by
    rintro i j makes rfl
    obtain ⟨row', found', position⟩ := exists_position accepted makes
    cases found.symm.trans found'
    have around := follows.around_openMarks makes
    have marks : row.position.scope.marks = (openMarks (pieces ts) i).filterMap (markAt ts) := by
      rw [position, ← markAt_openMarks]
      rfl
    rw [Position.sums, marks, position]
    exact sumsOf_fit_iff small i fun m hm => ((around.2 m).mp hm).1
  constructor
  · intro sums i j ms makes number around
    rw [around.unique (follows.around_openMarks makes)]
    exact (fit makes number).mp sums
  · intro room
    obtain ⟨_, header⟩ | ⟨i, j, makes, number⟩ := position_cases accepted found new
    · rw [header]
      simp [Position.sums, Position.sumsOf]
    · exact (fit makes number).mpr (room i j _ makes number (follows.around_openMarks makes))

/-- A mark that is written with the last line that there is: the sum for the name in its region takes
33 bits, and what is left of it is reported as line zero. -/
theorem sums_fit_last :
    let source := ";;* lms 4294967295 h.te\n(a)\n;;* lme\n"
    let ts := Token.tokenize source
    let t : ParseTree := {}
    (t.add "p.cil" source).2 = none ∧ source.utf8ByteSize < 2 ^ 31 ∧
      ∃ row, (t.add "p.cil" source).1.rows[t.nodeOf (pieces ts) 2 0]? = some row ∧
        row.value = some "a" ∧ row.position.sums = [2 ^ 32 + 1, 2] ∧ row.position.location.origins = [("h.te", 0)] ∧
        ¬ ∀ i j ms, Makes (pieces ts) i j → t.nodeOf (pieces ts) 2 0 = t.nodeOf (pieces ts) i j →
          Around Piece.lists (pieces ts) i ms →
          ∀ pair ∈ (i :: ms).zip ms, ∀ source line, toldAt (pieces ts) pair.2 = some (false, source, line) →
            line + (clockAt ts pair.1).offset < Position.lineModulus := by
  intro source ts t
  have accepted : (t.add "p.cil" source).2 = none := by decide +kernel
  have short : source.utf8ByteSize < 2 ^ 31 := by decide
  have reported : ((t.add "p.cil" source).1.rows[t.nodeOf (pieces ts) 2 0]?.map fun row =>
      (row.value, row.position.sums, row.position.location.origins)) =
        some (some "a", [2 ^ 32 + 1, 2], [("h.te", 0)]) := by
    decide +kernel
  obtain ⟨row, found, told⟩ := Option.map_eq_some_iff.mp reported
  simp only [Prod.mk.injEq] at told
  obtain ⟨value, sums, origins⟩ := told
  obtain ⟨_, fit⟩ := sums_fit_iff t "p.cil" source accepted short
  refine ⟨accepted, short, row, found, value, sums, origins, fun room => ?_⟩
  have all := (fit _ row found (Nat.le_add_right_of_le (Nat.le_add_right _ _))).mpr room
  have great := all (2 ^ 32 + 1) (by rw [sums]; exact List.mem_cons_self)
  exact absurd great (by decide)

end ParseTree

end CilPolicy
