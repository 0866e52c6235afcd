import CilPolicy.Proofs.Source.Passing
import CilPolicy.Proofs.Source.Places

/-!
# Reading piece by piece

Before each piece of a text the lists that the parser has open are those that the pieces opened, and
the nodes so far are those of the pieces before, each in the list and in the scope that was open when
it was made. Every piece keeps this, so the tree of an accepted text is known from its pieces.
-/

namespace CilPolicy

open Piece

/-- What a line mark tells, without the line counter. -/
def LineMark.told (mark : LineMark) : Bool × String × Nat :=
  (mark.expands, mark.path, mark.line)

namespace Piece

/-- Number of the nodes of a file before those of the piece, its list and header included. -/
def countBefore (ps : List Piece) : Nat → Nat
  | 0 => Node.sourceHeader + 1
  | i + 1 =>
    match ps[i]? with
    | some p => countBefore ps i + p.values.length
    | none => countBefore ps i

/-- What the line mark tells that the piece begins. -/
def toldAt (ps : List Piece) (m : Nat) : Option (Bool × String × Nat) :=
  ps[m]?.bind told?

variable {ps : List Piece} {i k : Nat} {p : Piece}

theorem countBefore_succ (found : ps[i]? = some p) :
    countBefore ps (i + 1) = countBefore ps i + p.values.length := by
  rw [countBefore, found]

theorem countBefore_mono (le : i ≤ k) : countBefore ps i ≤ countBefore ps k := by
  induction le with
  | refl => exact Nat.le_refl _
  | step _ ih =>
    rw [countBefore]
    split
    · exact Nat.le_add_right_of_le ih
    · exact ih

theorem countBefore_eq (ps : List Piece) (i : Nat) :
    countBefore ps i = Node.sourceHeader + 1 + ((ps.take i).flatMap values).length := by
  induction i with
  | zero => rfl
  | succ i ih =>
    rw [countBefore, List.take_add_one]
    split
    · rename_i p found
      rw [ih, found, List.flatMap_append, List.length_append]
      simp [Nat.add_assoc]
    · rename_i found
      rw [ih, found]
      simp

/-- Pieces that make nodes make different ones. -/
theorem countBefore_lt (found : ps[i]? = some p) (makes : p.values ≠ []) (less : i < k) :
    countBefore ps i < countBefore ps k := by
  have later : countBefore ps (i + 1) ≤ countBefore ps k := countBefore_mono less
  have some := List.length_pos_iff.mpr makes
  have next := countBefore_succ found
  omega

end Piece

namespace Source

open Node

/-! ### Open lists -/

/-- The scope is that of the file and of the marks among the open pieces. -/
structure Within (path : String) (ps : List Piece) (opened : List Nat) (scope : Scope) : Prop where
  file : scope.file = some path
  marks : scope.marks.map LineMark.told = opened.filterMap (toldAt ps)

/-- The number of the list in which nodes stand, counted from the list of the file. -/
def holder (ps : List Piece) : List Nat → Nat
  | [] => 0
  | k :: _ => countBefore ps k

/-- The open lists are those of the pieces, around them the list of the file. -/
inductive Opened (path : String) (base : Nat) (ps : List Piece) :
    List Nat → OpenList → List OpenList → Prop
  | file {current : OpenList} (inside : Within path ps [] current.inside) : Opened path base ps [] current []
  | nested {k : Nat} {opened : List Nat} {current outer : OpenList} {rest : List OpenList}
      (around : Opened path base ps opened outer rest)
      (count : (laid base outer rest).2.length = countBefore ps k)
      (inside : Within path ps (k :: opened) current.inside) :
      Opened path base ps (k :: opened) current (outer :: rest)

namespace Opened

variable {path : String} {base : Nat} {ps : List Piece} {opened : List Nat} {current outer : OpenList}
  {enclosing rest : List OpenList}

theorem inside (h : Opened path base ps opened current enclosing) : Within path ps opened current.inside := by
  cases h with
  | file inside => exact inside
  | nested _ _ inside => exact inside

theorem length_eq (h : Opened path base ps opened current enclosing) : enclosing.length = opened.length := by
  induction h with
  | file _ => rfl
  | nested _ _ _ ih => rw [List.length_cons, List.length_cons, ih]

theorem number_eq (h : Opened path base ps opened current enclosing) :
    (laid base current enclosing).1 = base + holder ps opened := by
  cases h with
  | file _ => rfl
  | nested _ count _ => rw [laid, holder, ← count]

theorem add (h : Opened path base ps opened current enclosing) (n : Node) :
    Opened path base ps opened (current.add n) enclosing := by
  cases h with
  | file inside => exact .file inside
  | nested around count inside => exact .nested around count inside

end Opened

/-! ### Nodes -/

/-- The `j`-th node of the piece stands in the list that is open before the piece, or in the first
node of the piece. -/
structure Stands (path : String) (base : Nat) (ps : List Piece) (i j : Nat) (place : Standing) : Prop where
  parent : place.parent = some (base + if j = 0 then holder ps (openBefore ps i) else countBefore ps i)
  within : Within path ps (openBefore ps i) place.position.scope

/-- The nodes are those of the file's header and of the pieces, and stand where they ought to. -/
structure Written (path : String) (base : Nat) (ps : List Piece) (n : Nat) (places : List Standing) : Prop where
  values : places.map (·.value) =
    [none, some Node.sourceTag, some "cil", some "1", some path] ++ (ps.take n).flatMap Piece.values
  first : ∃ position, places[0]? = some ⟨some 0, none, position⟩
  stands : ∀ i p j v, i < n → ps[i]? = some p → p.values[j]? = some v →
    ∃ place, places[countBefore ps i + j]? = some place ∧ Stands path base ps i j place

variable {path : String} {base n : Nat} {ps : List Piece} {p : Piece}

theorem Written.length_eq {places : List Standing} (written : Written path base ps n places) :
    places.length = countBefore ps n := by
  have same := congrArg List.length written.values
  rw [List.length_map, List.length_append] at same
  rw [same, countBefore_eq]
  rfl

/-- The nodes of the next piece come after those there are. -/
theorem Written.extend {places new : List Standing} (written : Written path base ps n places) (found : ps[n]? = some p)
    (values : new.map (·.value) = p.values)
    (stands : ∀ j place, new[j]? = some place → Stands path base ps n j place) :
    Written path base ps (n + 1) (places ++ new) where
  values := by
    rw [List.map_append, written.values, values, List.take_add_one, found, List.append_assoc]
    simp
  first := by
    obtain ⟨position, first⟩ := written.first
    exact ⟨position, List.getElem?_append_left (List.getElem?_eq_some_iff.mp first).1 ▸ first⟩
  stands i q j v less found' value := by
    by_cases last : i = n
    · subst last
      cases found.symm.trans found'
      rw [← values, List.getElem?_map] at value
      obtain ⟨place, there, _⟩ := Option.map_eq_some_iff.mp value
      refine ⟨place, ?_, stands j place there⟩
      rw [← written.length_eq, List.getElem?_append_right (Nat.le_add_right _ _), Nat.add_sub_cancel_left]
      exact there
    · obtain ⟨place, there, stands⟩ := written.stands i q j v (by omega) found' value
      exact ⟨place, List.getElem?_append_left (List.getElem?_eq_some_iff.mp there).1 ▸ there, stands⟩

/-! ### Steps -/

/-- The state before the piece. -/
structure Laid (path : String) (base : Nat) (ps : List Piece) (n : Nat) (s : State) : Prop where
  opened : Opened path base ps (openBefore ps n) s.current s.enclosing
  parens : (s.parens : Int) = level Piece.parens ps n
  marks : (s.suspended.length : Int) = level Piece.marks ps n
  sound : ∀ k, k ≤ n → ((openBefore ps k).length : Int) = level Piece.lists ps k
  active : ∀ k, k ≤ n → 0 ≤ level Piece.marks ps k
  written : Written path base ps n (laid base s.current s.enclosing).2

theorem laid_start (path : String) (base : Nat) (ps : List Piece) : Laid path base ps 0 (.start path) where
  opened := .file ⟨rfl, rfl⟩
  parens := rfl
  marks := rfl
  sound k le := by
    obtain rfl := Nat.le_zero.mp le
    rfl
  active k le := by
    obtain rfl := Nat.le_zero.mp le
    exact Int.le_refl 0
  written := {
    values := rfl
    first := ⟨_, rfl⟩
    stands := fun i _ _ _ less => absurd less (Nat.not_lt_zero i) }

namespace Laid

variable {s s' : State}

theorem depth_eq (h : Laid path base ps n s) : (openBefore ps n).length = s.parens + s.suspended.length := by
  have depth := h.sound n (Nat.le_refl n)
  rw [level_lists, ← h.parens, ← h.marks] at depth
  omega

/-- A piece is read when the lists, the counts and the nodes are as it leaves them. -/
theorem step (h : Laid path base ps n s) (found : ps[n]? = some p)
    (opened : Opened path base ps (openBefore ps (n + 1)) s'.current s'.enclosing)
    (parens : (s'.parens : Int) = s.parens + p.parens)
    (marks : (s'.suspended.length : Int) = s.suspended.length + p.marks) {new : List Standing}
    (places : (laid base s'.current s'.enclosing).2 = (laid base s.current s.enclosing).2 ++ new)
    (values : new.map (·.value) = p.values)
    (stands : ∀ j place, new[j]? = some place → Stands path base ps n j place) :
    Laid path base ps (n + 1) s' where
  opened := opened
  parens := by rw [parens, h.parens, level_succ found]
  marks := by rw [marks, h.marks, level_succ found]
  sound k le := by
    by_cases last : k = n + 1
    · subst last
      have before := h.sound n (Nat.le_refl n)
      have step : level Piece.lists ps (n + 1) = level Piece.lists ps n + p.lists := level_succ found
      have depth := h.depth_eq
      rcases p.lists_cases with change | change | change
      · rw [openBefore_opens found change, List.length_cons]
        omega
      · rw [openBefore_keeps found change]
        omega
      · have some : p.lists = p.parens + p.marks := rfl
        rw [openBefore_closes found change, List.length_tail]
        omega
    · exact h.sound k (by omega)
  active k le := by
    by_cases last : k = n + 1
    · subst last
      have now := h.marks
      have step : level Piece.marks ps (n + 1) = level Piece.marks ps n + p.marks := level_succ found
      omega
    · exact h.active k (by omega)
  written := places ▸ h.written.extend found values stands

/-- A piece that neither opens nor closes a list and makes no node. -/
theorem silent (h : Laid path base ps n s) (found : ps[n]? = some .silent) : Laid path base ps (n + 1) s := by
  refine h.step found ?_ ?_ ?_ (List.append_nil _).symm rfl (by simp)
  · rw [openBefore_keeps found rfl]
    exact h.opened
  · simp [Piece.parens]
  · simp [Piece.marks]

/-- A node that is made now stands in the current list and the current scope. -/
theorem stands_current (h : Laid path base ps n s) (line : Nat) (value : Option String) (j : Nat) (place : Standing)
    (there : [(⟨some (laid base s.current s.enclosing).1, value, s.position line⟩ : Standing)][j]? = some place) :
    Stands path base ps n j place := by
  rcases j with _ | j <;> cases there
  exact ⟨congrArg some h.opened.number_eq, h.opened.inside⟩

theorem name (h : Laid path base ps n s) {text : String} (found : ps[n]? = some (.name text)) (line : Nat) :
    Laid path base ps (n + 1) (s.addLeaf line text) := by
  have places := congrArg Prod.snd (laid_leaf base s.current s.enclosing (s.position line) text)
  refine h.step found ?_ ?_ ?_ places rfl (h.stands_current line (some text))
  · rw [openBefore_keeps found rfl]
    exact h.opened.add _
  · simp [State.addLeaf, Piece.parens]
  · simp [State.addLeaf, Piece.marks]

theorem opening (h : Laid path base ps n s) (found : ps[n]? = some .opening) (line : Nat) :
    Laid path base ps (n + 1) { s.openList line with parens := s.parens + 1 } := by
  have places := congrArg Prod.snd (laid_open base s.current s.enclosing (s.position line) s.current.inside)
  have inside := h.opened.inside
  refine h.step found ?_ ?_ ?_ places rfl (h.stands_current line none)
  · rw [openBefore_opens found rfl]
    refine .nested h.opened h.written.length_eq ⟨inside.file, ?_⟩
    rw [List.filterMap_cons_none (by rw [toldAt, found]; rfl)]
    exact inside.marks
  · simp [Piece.parens]
  · simp [State.openList, Piece.marks]

/-- Whatever closes a list closes the innermost one. -/
theorem ascend (h : Laid path base ps n s) (some : openBefore ps n ≠ []) :
    Opened path base ps (openBefore ps n).tail s.ascend.current s.ascend.enclosing ∧
      (laid base s.ascend.current s.ascend.enclosing).2 = (laid base s.current s.enclosing).2 := by
  have opened := h.opened
  rw [State.ascend]
  generalize openBefore ps n = open' at opened some
  cases henclosing : s.enclosing with
  | nil =>
    rw [henclosing] at opened
    cases opened
    exact absurd rfl some
  | cons outer rest =>
    rw [henclosing] at opened
    cases opened with
    | nested around _ _ =>
      refine ⟨around.add _, ?_⟩
      dsimp only
      rw [laid_close]

theorem openBefore_ne_nil (h : Laid path base ps n s) (some : 0 < s.parens + s.suspended.length) :
    openBefore ps n ≠ [] := by
  rw [← h.depth_eq] at some
  exact List.length_pos_iff.mp some

theorem closing (h : Laid path base ps n s) (found : ps[n]? = some .closing) (some : s.parens ≠ 0) :
    Laid path base ps (n + 1) { s.ascend with parens := s.parens - 1 } := by
  obtain ⟨opened, places⟩ := h.ascend (h.openBefore_ne_nil (by omega))
  refine h.step found ?_ ?_ ?_ (places.trans (List.append_nil _).symm) rfl (by simp)
  · rw [openBefore_closes found rfl]
    exact opened
  · simp only [Piece.parens]
    omega
  · have same : s.ascend.suspended = s.suspended := by
      rw [State.ascend]
      split <;> rfl
    simp [same, Piece.marks]

theorem ends (h : Laid path base ps n s) (found : ps[n]? = some .ends) {outside : Suspended}
    {rest : List Suspended} (suspended : s.suspended = outside :: rest) :
    Laid path base ps (n + 1) (s.endMark outside rest) := by
  obtain ⟨opened, places⟩ := h.ascend (h.openBefore_ne_nil (by rw [suspended, List.length_cons]; omega))
  refine h.step found ?_ ?_ ?_ (places.trans (List.append_nil _).symm) rfl (by simp)
  · rw [openBefore_closes found rfl]
    exact opened
  · have same : s.ascend.parens = s.parens := by
      rw [State.ascend]
      split <;> rfl
    simp [State.endMark, same, Piece.parens]
  · simp only [State.endMark, suspended, List.length_cons, Piece.marks]
    omega

/-- A line mark opens a list with a header of its own, and its scope is that of the items to come. -/
theorem begins (h : Laid path base ps n s) {word line source : String} {number : Nat}
    (found : ps[n]? = some (.begins word line source)) (decimal : Text.decimal? wordBound line = some number)
    (a b c : Nat) : Laid path base ps (n + 1)
      ((((s.beginMark a word (word == "lmx")).addLeaf b line).addLeaf c source).enterMark (word == "lmx") number
        source) := by
  have inside := h.opened.inside
  have places : (laid base s.current s.enclosing).2.length = countBefore ps n := h.written.length_eq
  refine h.step found ?_ ?_ ?_ rfl rfl ?_
  · rw [openBefore_opens found rfl]
    have told : toldAt ps n = some (word == "lmx", source, number) := by
      rw [toldAt, found, Option.bind_some, told?, decimal]
      rfl
    refine .nested h.opened places ⟨inside.file, ?_⟩
    rw [List.filterMap_cons_some told, ← inside.marks]
    rfl
  · simp [State.beginMark, State.openList, State.addLeaf, State.enterMark, Piece.parens]
  · simp [State.beginMark, State.openList, State.addLeaf, State.enterMark, Piece.marks]
  · -- The list stands in the current list, and the leaves of the header stand in the list.
    intro j place there
    have own : some (base + (laid base s.current s.enclosing).2.length) = some (base + countBefore ps n) := by
      rw [places]
    rcases j with _ | _ | _ | _ | _ | j <;> cases there
    · exact ⟨congrArg some h.opened.number_eq, inside⟩
    all_goals exact ⟨own, inside⟩

/-- The line counter and what is due of a line mark are of no account. -/
theorem same (h : Laid path base ps n s) (current : s'.current = s.current) (enclosing : s'.enclosing = s.enclosing)
    (parens : s'.parens = s.parens) (suspended : s'.suspended = s.suspended) : Laid path base ps n s' where
  opened := by rw [current, enclosing]; exact h.opened
  parens := by rw [parens]; exact h.parens
  marks := by rw [suspended]; exact h.marks
  sound := h.sound
  active := h.active
  written := by rw [current, enclosing]; exact h.written

theorem countLine (h : Laid path base ps n s) : Laid path base ps n s.countLine := by
  rw [State.countLine]
  split
  · exact h
  · exact h.same rfl rfl rfl rfl

/-- Every piece is read. -/
theorem passes (h : Laid path base ps n s) (found : ps[n]? = some p) {g : List Token} (passes : Passes s p g s') :
    Laid path base ps (n + 1) s' := by
  cases passes with
  | opening _ => exact h.opening found _
  | closing _ some => exact h.closing found some
  | name _ => exact h.name found _
  | newline _ => exact (h.silent found).countLine
  | quiet _ => exact h.silent found
  | begins decimal _ _ => exact (h.begins found decimal _ _ _).same rfl rfl rfl rfl
  | ends suspended _ _ => exact (h.ends found suspended).same rfl rfl rfl rfl

end Laid

/-! ### Runs -/

variable {s s' : State} {t : Token}

/-- What a text is read to is laid out piece by piece. -/
theorem laid_of_run {tokens : List Token} (run : tokens.foldlM State.step (.start path) = .ok s)
    (done : s.mark = none) : Laid path base (pieces tokens) (pieces tokens).length s :=
  invariant_of_run (fun found _ passes h => h.passes found passes) (List.drop_zero) (List.drop_zero)
    (Nat.zero_le _) (laid_start path base _) rfl run done

/-- At the end of a text nothing is left open. -/
theorem finished_of_run {tokens : List Token} (ended : Ended tokens) (run : parseTokens path tokens = .ok s) :
    s.mark = none ∧ s.parens = 0 ∧ s.suspended = [] := by
  obtain ⟨body, last, rfl, kind, _⟩ := ended
  obtain ⟨mid, _, step⟩ := run_concat.mp run
  cases due : mid.mark with
  | none =>
    rw [State.step, due, State.stepPlain] at step
    dsimp only at step
    rw [kind] at step
    dsimp only at step
    split at step
    · cases step
    · rename_i parens
      split at step
      · cases step
      · rename_i suspended
        cases step
        exact ⟨due, by omega, by simpa using suspended⟩
  | some part =>
    rw [State.step, due] at step
    dsimp only [State.stepMark] at step
    cases part <;> simp [kind] at step

end Source

end CilPolicy
