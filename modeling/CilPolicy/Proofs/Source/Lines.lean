import CilPolicy.Proofs.Source.Regions

/-!
# Lines and the line counter

The position of a node is known from the text: its line is counted by the line ends before its piece,
its line counter by what the pieces before make of the counter, and its marks are those whose lists
are open before the piece, each with the counter at its own piece.
-/

namespace CilPolicy

open Piece

/-- Number of the lines that end in the tokens. -/
def lineEnds (tokens : List Token) : Nat :=
  tokens.countP fun t => t.kind = .newline

theorem lineEnds_append (front rest : List Token) : lineEnds (front ++ rest) = lineEnds front + lineEnds rest :=
  List.countP_append

theorem lineEnds_eq_zero {tokens : List Token} (inline : ∀ t ∈ tokens, t.kind ≠ .newline) :
    lineEnds tokens = 0 := by
  simpa [lineEnds, List.countP_eq_zero] using inline

theorem lineEnds_singleton {t : Token} (kind : t.kind = .newline) : lineEnds [t] = 1 := by
  simp [lineEnds, kind]

/-- The line of the text on which the piece begins. -/
def lineOf (ts : List Token) (n : Nat) : Nat :=
  1 + lineEnds ((groups ts).take n).flatten

section Line

variable {ts g : List Token} {m n : Nat}

theorem lineOf_succ (found : (groups ts)[n]? = some g) : lineOf ts (n + 1) = lineOf ts n + lineEnds g := by
  rw [lineOf, List.take_add_one, found, Option.toList_some, List.flatten_append, lineEnds_append, lineOf,
    List.flatten_singleton, Nat.add_assoc]

theorem lineOf_mono (le : m ≤ n) : lineOf ts m ≤ lineOf ts n := by
  induction le with
  | refl => exact Nat.le_refl _
  | @step n _ ih =>
    cases found : (groups ts)[n]? with
    | none =>
      have past := List.getElem?_eq_none_iff.mp found
      rw [lineOf, lineOf, List.take_of_length_le (Nat.le_succ_of_le past)]
      rwa [lineOf, lineOf, List.take_of_length_le past] at ih
    | some g =>
      rw [lineOf_succ found]
      exact Nat.le_add_right_of_le ih

/-- The tokens before the piece and those from it on are the text. -/
theorem lineEnds_split (ts : List Token) (n : Nat) :
    lineEnds ts = lineEnds ((groups ts).take n).flatten + lineEnds ((groups ts).drop n).flatten := by
  rw [← lineEnds_append, ← List.flatten_append, List.take_append_drop, flatten_groups]

theorem lineOf_le (ts : List Token) (n : Nat) : lineOf ts n ≤ 1 + lineEnds ts := by
  rw [lineOf, lineEnds_split ts n]
  omega

end Line

/-! ### Lines of tokens -/

/-- Each token has the line on which the text after it goes on, where lines are counted from `line`. -/
def Counted (line : Nat) (ts : List Token) : Prop :=
  ∀ front t rest, ts = front ++ t :: rest → t.line = line + lineEnds (front ++ [t])

theorem counted_scan (fresh : Bool) (line : Nat) (text : List Char) : Counted line (Token.scan fresh line text) := by
  fun_induction Token.scan fresh line text with
  | case1 =>
    intro front t rest same
    cases front with
    | nil =>
      obtain ⟨rfl, _⟩ := List.cons.inj same
      rfl
    | cons first front => simp at same
  | case2 fresh line _ c rest _ start token isNewline line' ih =>
    have counted : line' = line + lineEnds [⟨token.kind, String.ofList token.chars, line'⟩] := by
      cases kind : token.kind <;> simp [line', isNewline, lineEnds, kind]
    intro front t rest same
    cases front with
    | nil =>
      obtain ⟨rfl, _⟩ := List.cons.inj same
      exact counted
    | cons first front =>
      obtain ⟨rfl, tail⟩ := List.cons.inj same
      have later := ih front t rest tail
      rw [List.cons_append, ← List.singleton_append, lineEnds_append, later]
      omega

/-- A token of a piece that no line end of the piece precedes stands on the line of the piece. -/
theorem line_of_group {ts a b : List Token} {x : Token} {n : Nat} (counted : Counted 1 ts)
    (found : (groups ts)[n]? = some (a ++ x :: b)) (inline : ∀ t ∈ a ++ [x], t.kind ≠ .newline) :
    x.line = lineOf ts n := by
  have whole : ts = (((groups ts).take n).flatten ++ a) ++ x :: (b ++ ((groups ts).drop (n + 1)).flatten) := by
    have parts := congrArg List.flatten (List.take_append_drop n (groups ts))
    rw [flatten_groups, List.flatten_append, List.drop_eq_getElem?_toList_append, found] at parts
    simpa using parts.symm
  have line := counted _ x _ whole
  rw [List.append_assoc, lineEnds_append, lineEnds_eq_zero inline] at line
  exact line

/-! ### The line counter -/

/-- The line counter and whether lines are expanded, now and outside each open region. -/
structure Clock where
  offset : Nat := 1
  expanding : Bool := false
  suspended : List Source.Suspended := []

/-- What the piece makes of the counter. -/
def Clock.pass (c : Clock) (g : List Token) : Piece → Clock
  | .begins word _ _ =>
    { offset := if word == "lmx" then c.offset else c.offset + 1
      expanding := word == "lmx"
      suspended := ⟨c.offset, c.expanding⟩ :: c.suspended }
  | .ends =>
    match c.suspended with
    | [] => c
    | outside :: rest =>
      { offset := if outside.expanding then outside.offset else if c.expanding then c.offset + 2 else c.offset + 1
        expanding := outside.expanding
        suspended := rest }
  | .opening | .closing | .name _ | .silent =>
    { c with offset := if c.expanding then c.offset else c.offset + lineEnds g }

/-- The counter before the piece. -/
def clockAt (ts : List Token) : Nat → Clock
  | 0 => {}
  | n + 1 =>
    match (pieces ts)[n]?, (groups ts)[n]? with
    | some p, some g => (clockAt ts n).pass g p
    | _, _ => clockAt ts n

/-- The line mark that the piece begins, with the counter where it stands. -/
def markAt (ts : List Token) (m : Nat) : Option LineMark :=
  (toldAt (pieces ts) m).map fun told => ⟨told.1, told.2.1, told.2.2, (clockAt ts m).offset⟩

/-- The scope inside lists of a file. -/
def scopeOf (path : String) (ts : List Token) (opened : List Nat) : Scope :=
  ⟨some path, opened.filterMap (markAt ts)⟩

/-- The position of the nodes that the piece makes. -/
def positionAt (path : String) (ts : List Token) (n : Nat) : Position :=
  ⟨scopeOf path ts (openBefore (pieces ts) n), lineOf ts n, (clockAt ts n).offset⟩

/-- The positions of the nodes of a file before those of the piece. -/
def positionsBefore (path : String) (ts : List Token) : Nat → List Position
  | 0 => List.replicate (Node.sourceHeader + 1) {}
  | n + 1 =>
    match (pieces ts)[n]? with
    | some p => positionsBefore path ts n ++ List.replicate p.values.length (positionAt path ts n)
    | none => positionsBefore path ts n

section Clock

variable {path : String} {ts g : List Token} {n : Nat} {p : Piece}

theorem clockAt_succ (found : (pieces ts)[n]? = some p) (found' : (groups ts)[n]? = some g) :
    clockAt ts (n + 1) = (clockAt ts n).pass g p := by
  rw [clockAt, found, found']

theorem positionsBefore_succ (found : (pieces ts)[n]? = some p) :
    positionsBefore path ts (n + 1) =
      positionsBefore path ts n ++ List.replicate p.values.length (positionAt path ts n) := by
  rw [positionsBefore, found]

theorem markAt_begins {word line source : String} {number : Nat}
    (found : (pieces ts)[n]? = some (.begins word line source)) (decimal : Text.decimal? wordBound line = some number) :
    markAt ts n = some ⟨word == "lmx", source, number, (clockAt ts n).offset⟩ := by
  rw [markAt, toldAt, found, Option.bind_some, told?, decimal]
  rfl

theorem markAt_none (found : (pieces ts)[n]? = some p) (quiet : p.told? = none) : markAt ts n = none := by
  rw [markAt, toldAt, found, Option.bind_some, quiet]
  rfl

end Clock

namespace Source

open Node

/-- The counter of the parser. -/
def State.clock (s : State) : Clock :=
  ⟨s.offset, s.expanding, s.suspended⟩

variable {path : String} {base n : Nat} {ts g : List Token} {p : Piece} {s s' : State}

/-- A token that ends no line leaves the counter as it is. -/
theorem clock_still (c : Clock) {t : Token} (other : t.kind ≠ .newline) :
    { c with offset := if c.expanding then c.offset else c.offset + lineEnds [t] } = c := by
  rw [lineEnds_eq_zero (by simpa using other), Nat.add_zero, ite_self]

theorem clock_ascend (s : State) : s.ascend.clock = s.clock := by
  rw [State.ascend]
  split <;> rfl

theorem Passes.clock (passes : Passes s p g s') : s'.clock = s.clock.pass g p := by
  cases passes with
  | opening kind => exact (clock_still s.clock (by simp [kind])).symm
  | closing kind some => exact (clock_ascend s).trans (clock_still s.clock (by simp [kind])).symm
  | name kind => exact (clock_still s.clock (by rcases kind with kind | kind <;> simp [kind])).symm
  | newline kind =>
    rw [countLine_eq, Clock.pass, lineEnds_singleton kind]
    rfl
  | quiet kind => exact (clock_still s.clock (by rcases kind with kind | kind <;> simp [kind])).symm
  | begins _ _ _ => rfl
  | ends suspended _ _ =>
    have outside : s.clock.suspended = _ :: _ := suspended
    rw [Clock.pass, outside]
    rfl

/-- A line mark ends its own line. -/
theorem Passes.lineEnds_of_mark (passes : Passes s p g s') (mark : p.marks ≠ 0) : lineEnds g = 1 := by
  have last : ∀ {front : List Token} {newline : Token}, (∀ x ∈ front, x.kind ≠ .newline) →
      newline.kind = .newline → lineEnds (front ++ [newline]) = 1 := by
    intro front newline inline kind
    rw [lineEnds_append, lineEnds_eq_zero inline, lineEnds_singleton kind]
  cases passes with
  | opening | closing | name | newline | quiet => exact absurd rfl mark
  | begins _ inline ends => exact last inline ends
  | ends _ inline ends => exact last inline ends

/-- The positions and the scopes are as the text says, and every line mark ends its line. -/
structure Timed (path : String) (base : Nat) (ts : List Token) (n : Nat) (s : State) : Prop where
  layout : Laid path base (pieces ts) n s
  clock : s.clock = clockAt ts n
  scopes : (s.current :: s.enclosing).map OpenList.inside = (openBefore (pieces ts) n).tails.map (scopeOf path ts)
  positions : (laid base s.current s.enclosing).2.map Standing.position = positionsBefore path ts n
  ends : ∀ k q g, k < n → (pieces ts)[k]? = some q → (groups ts)[k]? = some g → q.marks ≠ 0 → lineEnds g = 1

theorem timed_start (path : String) (base : Nat) (ts : List Token) : Timed path base ts 0 (.start path) :=
  ⟨laid_start path base _, rfl, rfl, rfl, fun k _ _ less => absurd less (Nat.not_lt_zero k)⟩

namespace Timed

theorem inside (h : Timed path base ts n s) : s.current.inside = scopeOf path ts (openBefore (pieces ts) n) := by
  have scopes := congrArg List.head? h.scopes
  cases opened : openBefore (pieces ts) n with
  | nil | cons _ _ => simpa [opened] using scopes

theorem position (h : Timed path base ts n s) {line : Nat} (counted : line = lineOf ts n) :
    s.position line = positionAt path ts n := by
  rw [State.position, h.inside, positionAt, ← h.clock, counted]
  rfl

/-- The scopes that are left when the innermost list is closed. -/
theorem scopes_ascend (h : Timed path base ts n s) (some : openBefore (pieces ts) n ≠ []) :
    (s.ascend.current :: s.ascend.enclosing).map OpenList.inside =
      (openBefore (pieces ts) n).tail.tails.map (scopeOf path ts) := by
  have scopes := h.scopes
  cases opened : openBefore (pieces ts) n with
  | nil => exact absurd opened some
  | cons k rest =>
    rw [opened, List.tails, List.map_cons, List.map_cons] at scopes
    cases around : s.enclosing with
    | nil =>
      have length := h.layout.opened.length_eq
      rw [opened, around] at length
      cases length
    | cons outer lists =>
      have below := (List.cons.inj scopes).2
      rw [around] at below
      rw [State.ascend, around]
      exact below

/-- A list that is opened has a scope of its own, inside those of the lists around it. -/
theorem scopes_open (h : Timed path base ts n s) (found : (pieces ts)[n]? = some p) (opens : p.lists = 1)
    {current : OpenList} (inside : current.inside = scopeOf path ts (n :: openBefore (pieces ts) n)) :
    (current :: s.current :: s.enclosing).map OpenList.inside =
      (openBefore (pieces ts) (n + 1)).tails.map (scopeOf path ts) := by
  rw [openBefore_opens found opens]
  exact congrArg₂ List.cons inside h.scopes

theorem scopes_passes (h : Timed path base ts n s) (found : (pieces ts)[n]? = some p) (passes : Passes s p g s') :
    (s'.current :: s'.enclosing).map OpenList.inside =
      (openBefore (pieces ts) (n + 1)).tails.map (scopeOf path ts) := by
  cases passes with
  | opening kind =>
    refine h.scopes_open found rfl (h.inside.trans ?_)
    rw [scopeOf, scopeOf, List.filterMap_cons_none (markAt_none found rfl)]
  | closing kind some =>
    rw [openBefore_closes found rfl]
    exact h.scopes_ascend (h.layout.openBefore_ne_nil (by omega))
  | name kind =>
    rw [openBefore_keeps found rfl]
    exact h.scopes
  | newline kind =>
    rw [openBefore_keeps found rfl, countLine_eq]
    exact h.scopes
  | quiet kind =>
    rw [openBefore_keeps found rfl]
    exact h.scopes
  | @begins _ word line source _ number decimal inline ends =>
    have own : (s.passMark word line source number).current.inside =
        ⟨s.current.inside.file, ⟨word.text == "lmx", nameText source, number, s.offset⟩ :: s.current.inside.marks⟩ :=
      rfl
    refine h.scopes_open found rfl ?_
    rw [own, h.inside, scopeOf, scopeOf, List.filterMap_cons_some (markAt_begins found decimal), ← h.clock]
    rfl
  | ends suspended inline ends =>
    rw [openBefore_closes found rfl]
    exact h.scopes_ascend (h.layout.openBefore_ne_nil (by rw [suspended, List.length_cons]; omega))

/-- The new nodes stand at the position of the piece. -/
theorem positions_passes (h : Timed path base ts n s) (counted : Counted 1 ts) (found' : (groups ts)[n]? = some g)
    (passes : Passes s p g s') :
    (laid base s'.current s'.enclosing).2.map Standing.position =
      (laid base s.current s.enclosing).2.map Standing.position ++
        List.replicate p.values.length (positionAt path ts n) := by
  -- Only the last token of a piece ends a line, so the nodes stand where the piece begins.
  have line : ∀ (a : List Token) (x : Token) (b : List Token), g = a ++ x :: b →
      (∀ t ∈ a ++ [x], t.kind ≠ .newline) → s.position x.line = positionAt path ts n := by
    rintro a x b rfl inline
    exact h.position (line_of_group counted found' inline)
  cases passes with
  | @opening t kind =>
    have places := congrArg Prod.snd (laid_open base s.current s.enclosing (s.position t.line) s.current.inside)
    rw [State.openList, places, List.map_append, line [] t [] rfl (by simp [kind])]
    rfl
  | closing kind some =>
    obtain ⟨_, places⟩ := h.layout.ascend (h.layout.openBefore_ne_nil (by omega))
    rw [places]
    exact (List.append_nil _).symm
  | @name t kind =>
    have places := congrArg Prod.snd (laid_leaf base s.current s.enclosing (s.position t.line) (nameText t))
    have inline : ∀ x ∈ [] ++ [t], x.kind ≠ .newline := by rcases kind with kind | kind <;> simp [kind]
    rw [State.addLeaf, places, List.map_append, line [] t [] rfl inline]
    rfl
  | newline kind =>
    rw [countLine_eq]
    exact (List.append_nil _).symm
  | quiet kind => exact (List.append_nil _).symm
  | @begins t word number source newline _ decimal inline ends =>
    have first := line [t] word [number, source, newline] rfl (by simp_all)
    have second := line [t, word] number [source, newline] rfl (by simp_all)
    have third := line [t, word, number] source [newline] rfl (by simp_all)
    have own : [s.position word.line, s.position word.line, s.position word.line, s.position number.line,
        s.position source.line] = List.replicate 5 (positionAt path ts n) := by
      rw [first, second, third]
      rfl
    change _ = _ ++ List.replicate 5 _
    rw [← own]
    exact List.map_append
  | ends suspended inline ends =>
    obtain ⟨_, places⟩ := h.layout.ascend
      (h.layout.openBefore_ne_nil (by rw [suspended, List.length_cons]; omega))
    exact (congrArg (List.map Standing.position) places).trans (List.append_nil _).symm

theorem passes (h : Timed path base ts n s) (counted : Counted 1 ts) (found : (pieces ts)[n]? = some p)
    (found' : (groups ts)[n]? = some g) (passes : Passes s p g s') : Timed path base ts (n + 1) s' where
  layout := h.layout.passes found passes
  clock := by rw [passes.clock, h.clock, clockAt_succ found found']
  scopes := h.scopes_passes found passes
  positions := by rw [h.positions_passes counted found' passes, h.positions, positionsBefore_succ found]
  ends k q g' less there there' mark := by
    by_cases last : k = n
    · subst last
      cases found.symm.trans there
      cases found'.symm.trans there'
      exact passes.lineEnds_of_mark mark
    · exact h.ends k q g' (by omega) there there' mark

end Timed

theorem timed_of_run (counted : Counted 1 ts) (run : ts.foldlM State.step (.start path) = .ok s)
    (done : s.mark = none) : Timed path base ts (pieces ts).length s :=
  invariant_of_run (fun found found' passes h => h.passes counted found found' passes) List.drop_zero
    List.drop_zero (Nat.zero_le _) (timed_start path base ts) rfl run done

end Source

/-! ### Positions of nodes -/

section Positions

variable {path : String} {ts : List Token} {i j n : Nat} {p : Piece}

theorem length_positionsBefore (path : String) (ts : List Token) (n : Nat) :
    (positionsBefore path ts n).length = countBefore (pieces ts) n := by
  induction n with
  | zero => rfl
  | succ n ih =>
    cases found : (pieces ts)[n]? with
    | none =>
      rw [positionsBefore, countBefore, found]
      exact ih
    | some p => rw [positionsBefore_succ found, countBefore_succ found, List.length_append, List.length_replicate, ih]

theorem getElem?_positionsBefore_header (header : j < countBefore (pieces ts) 0) :
    (positionsBefore path ts n)[j]? = some {} := by
  induction n with
  | zero => exact (List.getElem?_replicate).trans (if_pos header)
  | succ n ih =>
    rw [positionsBefore]
    split
    · exact List.getElem?_append_left (List.getElem?_eq_some_iff.mp ih).1 ▸ ih
    · exact ih

theorem getElem?_positionsBefore (less : i < n) (found : (pieces ts)[i]? = some p) (makes : j < p.values.length) :
    (positionsBefore path ts n)[countBefore (pieces ts) i + j]? = some (positionAt path ts i) := by
  induction n with
  | zero => exact absurd less (Nat.not_lt_zero i)
  | succ n ih =>
    by_cases last : i = n
    · subst last
      rw [positionsBefore_succ found, ← length_positionsBefore path, List.getElem?_append_right (Nat.le_add_right _ _),
        Nat.add_sub_cancel_left, List.getElem?_replicate, if_pos makes]
    · have before := ih (by omega)
      rw [positionsBefore]
      split
      · exact List.getElem?_append_left (List.getElem?_eq_some_iff.mp before).1 ▸ before
      · exact before

/-- A node of a file stands in its header, or a piece makes it. -/
theorem exists_piece_of_lt {ps : List Piece} {k n : Nat} (less : k < countBefore ps n) :
    k < countBefore ps 0 ∨ ∃ i p, ps[i]? = some p ∧ ∃ j, j < p.values.length ∧ k = countBefore ps i + j := by
  induction n with
  | zero => exact .inl less
  | succ n ih =>
    by_cases before : k < countBefore ps n
    · exact ih before
    · cases found : ps[n]? with
      | none =>
        rw [countBefore, found] at less
        exact absurd less before
      | some p =>
        rw [countBefore_succ found] at less
        exact .inr ⟨n, p, found, k - countBefore ps n, by omega, by omega⟩

end Positions

end CilPolicy
