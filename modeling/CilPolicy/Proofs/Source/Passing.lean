import CilPolicy.Proofs.Source.Nesting
import CilPolicy.Proofs.Source.Parse

/-!
# Texts taken piece by piece

Between two pieces of an accepted text no line mark is unfinished. So the parser is known from what
each piece makes of its state, and what every piece keeps, the whole text keeps.
-/

namespace CilPolicy

/-- The tokens of each piece. A text that stops within a line mark has its last tokens together. -/
def groups : List Token → List (List Token)
  | [] => []
  | t :: rest =>
    if t.kind = .lineMark then
      match rest with
      | [] => [[t]]
      | word :: rest =>
        if word.text = "lme" then
          match rest with
          | [] => [[t, word]]
          | newline :: rest => [t, word, newline] :: groups rest
        else
          match rest with
          | line :: path :: newline :: rest => [t, word, line, path, newline] :: groups rest
          | rest => [t :: word :: rest]
    else [t] :: groups rest

theorem groups_plain {t : Token} {rest : List Token} (other : t.kind ≠ .lineMark) :
    groups (t :: rest) = [t] :: groups rest := by
  rw [groups.eq_def]
  exact if_neg other

/-- Every token is in one piece. -/
theorem flatten_groups : (tokens : List Token) → (groups tokens).flatten = tokens
  | [] => rfl
  | t :: rest => by
    by_cases mark : t.kind = .lineMark
    · match rest with
      | [] => rw [groups, if_pos mark, List.flatten_singleton]
      | word :: rest =>
        by_cases lme : word.text = "lme"
        · match rest with
          | [] => rw [groups, if_pos mark, if_pos lme, List.flatten_singleton]
          | newline :: rest =>
            rw [groups, if_pos mark, if_pos lme, List.flatten_cons, flatten_groups rest]
            rfl
        · match rest with
          | line :: path :: newline :: rest =>
            rw [groups, if_pos mark, if_neg lme, List.flatten_cons, flatten_groups rest]
            rfl
          | [] | [_] | [_, _] =>
            rw [groups.eq_def]
            simp only [if_pos mark, if_neg lme]
            exact List.flatten_singleton
    · rw [groups_plain mark, List.flatten_cons, flatten_groups rest, List.singleton_append]

namespace Source

variable {s s' : State} {t : Token}

/-! ### The parts of a line mark -/

/-- The state after a line mark that begins a region. -/
def State.passMark (s : State) (word line source : Token) (number : Nat) : State :=
  let begun := s.beginMark word.line word.text (word.text == "lmx")
  let told := (begun.addLeaf line.line line.text).addLeaf source.line (nameText source)
  { told.enterMark (word.text == "lmx") number (nameText source) with
    offset := if word.text == "lmx" then s.offset else s.offset + 1
    mark := none }

/-- The state after a line mark that ends a region. -/
def State.passEnd (s : State) (outside : Suspended) (rest : List Suspended) : State :=
  { s.ascend with
    offset := if outside.expanding then outside.offset
      else if s.expanding then s.offset + 2
      else s.offset + 1
    expanding := outside.expanding
    suspended := rest
    mark := none }

theorem step_lineMark (unmarked : s.mark = none) (kind : t.kind = .lineMark) (step : s.step t = .ok s') :
    s' = { s with mark := some .word } := by
  rw [State.step, unmarked, State.stepPlain] at step
  dsimp only at step
  rw [kind] at step
  cases step
  rfl

theorem step_word (due : s.mark = some .word) (step : s.step t = .ok s') : t.kind = .symbol ∧
    ((t.text = "lme" ∧ ∃ outside rest, s.suspended = outside :: rest ∧ s' = s.endMark outside rest) ∨
      (t.text ≠ "lme" ∧ s' = s.beginMark t.line t.text (t.text == "lmx"))) := by
  rw [State.step, due] at step
  dsimp only [State.stepMark] at step
  split at step
  · cases step
  · rename_i kind
    refine ⟨by simpa using kind, ?_⟩
    split at step
    · rename_i word
      split at step
      · cases step
      · rename_i outside rest suspended
        cases step
        exact .inl ⟨eq_of_beq word, outside, rest, suspended, rfl⟩
    · rename_i word
      split at step
      · split at step
        · cases step
        · cases step
          exact .inr ⟨fun same => word (beq_iff_eq.mpr same), rfl⟩
      · cases step

theorem step_line {expands : Bool} (due : s.mark = some (.line expands)) (step : s.step t = .ok s') :
    t.kind = .symbol ∧ ∃ line, Text.decimal? wordBound t.text = some line ∧
      s' = { s.addLeaf t.line t.text with mark := some (.path expands line) } := by
  rw [State.step, due] at step
  dsimp only [State.stepMark] at step
  split at step
  · rename_i line kind decimal
    cases step
    exact ⟨kind, line, decimal, rfl⟩
  · cases step

theorem step_path {expands : Bool} {line : Nat} (due : s.mark = some (.path expands line))
    (step : s.step t = .ok s') : (t.kind = .symbol ∨ t.kind = .quoted) ∧
      s' = (s.addLeaf t.line (nameText t)).enterMark expands line (nameText t) := by
  rw [State.step, due] at step
  dsimp only [State.stepMark] at step
  split at step
  · rename_i kind
    cases step
    exact ⟨by simpa using kind, rfl⟩
  · cases step

theorem step_lineEnd (due : s.mark = some .lineEnd) (step : s.step t = .ok s') :
    t.kind = .newline ∧ s' = { s.countLine with mark := none } := by
  rw [State.step, due] at step
  dsimp only [State.stepMark] at step
  split at step
  · rename_i kind
    cases step
    exact ⟨eq_of_beq kind, rfl⟩
  · cases step

theorem countLine_eq (s : State) :
    s.countLine = { s with offset := if s.expanding then s.offset else s.offset + 1 } := by
  rw [State.countLine]
  split <;> rfl

/-- What is left when a mark has ended and its own line has been counted. -/
theorem passEnd_eq (s : State) (outside : Suspended) (rest : List Suspended) :
    { ({ s with mark := some .word }.endMark outside rest).countLine with mark := none } =
      s.passEnd outside rest := by
  obtain ⟨current, enclosing, parens, offset, expanding, suspended, mark⟩ := s
  obtain ⟨outer, expandingOuter⟩ := outside
  cases enclosing <;> cases expanding <;> cases expandingOuter <;> rfl

theorem run_cons {rest : List Token} : (t :: rest).foldlM State.step s = .ok s' ↔
    ∃ mid, s.step t = .ok mid ∧ rest.foldlM State.step mid = .ok s' := by
  rw [List.foldlM_cons]
  exact bind_eq_ok

/-! ### Pieces -/

/-- The tokens of the piece lead from the first state to the second. Of the tokens of a line mark the
last one ends its line. -/
inductive Passes (s : State) : Piece → List Token → State → Prop
  | opening {t : Token} (kind : t.kind = .opening) :
      Passes s .opening [t] { s.openList t.line with parens := s.parens + 1 }
  | closing {t : Token} (kind : t.kind = .closing) (some : s.parens ≠ 0) :
      Passes s .closing [t] { s.ascend with parens := s.parens - 1 }
  | name {t : Token} (kind : t.kind = .symbol ∨ t.kind = .quoted) :
      Passes s (.name (nameText t)) [t] (s.addLeaf t.line (nameText t))
  | newline {t : Token} (kind : t.kind = .newline) : Passes s .silent [t] s.countLine
  | quiet {t : Token} (kind : t.kind = .comment ∨ t.kind = .finish) : Passes s .silent [t] s
  | begins {t word line source newline : Token} {number : Nat}
      (decimal : Text.decimal? wordBound line.text = some number)
      (inline : ∀ x ∈ [t, word, line, source], x.kind ≠ .newline) (ends : newline.kind = .newline) :
      Passes s (.begins word.text line.text (nameText source)) [t, word, line, source, newline]
        (s.passMark word line source number)
  | ends {t word newline : Token} {outside : Suspended} {rest : List Suspended}
      (suspended : s.suspended = outside :: rest) (inline : ∀ x ∈ [t, word], x.kind ≠ .newline)
      (ends : newline.kind = .newline) : Passes s .ends [t, word, newline] (s.passEnd outside rest)

/-- A token outside of line marks is taken as the piece that it is, and begins no line mark. -/
theorem passes_of_step (unmarked : s.mark = none) (other : t.kind ≠ .lineMark) (step : s.step t = .ok s') :
    Passes s (.ofToken t) [t] s' ∧ s'.mark = none := by
  rw [State.step, unmarked, State.stepPlain] at step
  dsimp only at step
  rw [Piece.ofToken]
  cases kind : t.kind <;> rw [kind] at step <;> dsimp only at step ⊢
  case lineMark => exact absurd kind other
  case unknown => cases step
  case opening =>
    split at step <;> cases step
    exact ⟨.opening kind, unmarked⟩
  case closing =>
    split at step
    · cases step
    · rename_i some
      cases step
      refine ⟨.closing kind some, ?_⟩
      dsimp only [State.ascend]
      split <;> exact unmarked
  case symbol =>
    split at step <;> cases step
    exact ⟨.name (.inl kind), unmarked⟩
  case quoted =>
    split at step <;> cases step
    exact ⟨.name (.inr kind), unmarked⟩
  case newline =>
    cases step
    refine ⟨.newline kind, ?_⟩
    rw [State.countLine]
    split <;> exact unmarked
  case comment =>
    cases step
    exact ⟨.quiet (.inl kind), unmarked⟩
  case finish =>
    split at step
    · cases step
    · split at step <;> cases step
      exact ⟨.quiet (.inr kind), unmarked⟩

theorem exists_passes_begins {word line source newline : Token} {rest : List Token} (unmarked : s.mark = none)
    (kind : t.kind = .lineMark) (other : word.text ≠ "lme")
    (run : (t :: word :: line :: source :: newline :: rest).foldlM State.step s = .ok s') :
    ∃ mid, Passes s (.begins word.text line.text (nameText source)) [t, word, line, source, newline] mid ∧
      mid.mark = none ∧ rest.foldlM State.step mid = .ok s' := by
  obtain ⟨s₀, start, run⟩ := run_cons.mp run
  obtain ⟨s₁, first, run⟩ := run_cons.mp run
  obtain ⟨s₂, second, run⟩ := run_cons.mp run
  obtain ⟨s₃, third, run⟩ := run_cons.mp run
  obtain ⟨s₄, fourth, run⟩ := run_cons.mp run
  cases step_lineMark unmarked kind start
  obtain ⟨wordKind, ⟨lme, _⟩ | ⟨_, rfl⟩⟩ := step_word rfl first
  · exact absurd lme other
  obtain ⟨lineKind, number, decimal, rfl⟩ := step_line rfl second
  obtain ⟨sourceKind, rfl⟩ := step_path rfl third
  obtain ⟨newlineKind, rfl⟩ := step_lineEnd rfl fourth
  refine ⟨s.passMark word line source number, .begins decimal ?_ newlineKind, rfl, ?_⟩
  · have inline : source.kind ≠ .newline := by rcases sourceKind with kind | kind <;> simp [kind]
    simp [kind, wordKind, lineKind, inline]
  · rw [countLine_eq] at run
    exact run

theorem exists_passes_ends {word newline : Token} {rest : List Token} (unmarked : s.mark = none)
    (kind : t.kind = .lineMark) (lme : word.text = "lme")
    (run : (t :: word :: newline :: rest).foldlM State.step s = .ok s') :
    ∃ mid, Passes s .ends [t, word, newline] mid ∧ mid.mark = none ∧ rest.foldlM State.step mid = .ok s' := by
  obtain ⟨s₀, start, run⟩ := run_cons.mp run
  obtain ⟨s₁, first, run⟩ := run_cons.mp run
  obtain ⟨s₂, second, run⟩ := run_cons.mp run
  cases step_lineMark unmarked kind start
  obtain ⟨wordKind, ⟨_, outside, rest, suspended, rfl⟩ | ⟨other, _⟩⟩ := step_word rfl first
  · obtain ⟨newlineKind, rfl⟩ := step_lineEnd rfl second
    refine ⟨s.passEnd outside rest, .ends suspended (by simp [kind, wordKind]) newlineKind, rfl, ?_⟩
    rw [passEnd_eq] at run
    exact run
  · exact absurd lme other

/-- A line mark that stops short leaves a part of it due. -/
theorem mark_of_short {tokens : List Token} {word : Token} (due : s.mark = some .word) (other : word.text ≠ "lme")
    (short : ∀ line source newline rest, tokens ≠ line :: source :: newline :: rest)
    (run : (word :: tokens).foldlM State.step s = .ok s') : s'.mark ≠ none := by
  obtain ⟨s₁, first, run⟩ := run_cons.mp run
  obtain ⟨_, ⟨lme, _⟩ | ⟨_, rfl⟩⟩ := step_word due first
  · exact absurd lme other
  match tokens with
  | [] =>
    cases run
    exact Option.some_ne_none _
  | [line] =>
    obtain ⟨s₂, second, run⟩ := run_cons.mp run
    obtain ⟨_, _, _, rfl⟩ := step_line rfl second
    cases run
    exact Option.some_ne_none _
  | [line, source] =>
    obtain ⟨s₂, second, run⟩ := run_cons.mp run
    obtain ⟨s₃, third, run⟩ := run_cons.mp run
    obtain ⟨_, _, _, rfl⟩ := step_line rfl second
    obtain ⟨_, rfl⟩ := step_path rfl third
    cases run
    exact Option.some_ne_none _
  | line :: source :: newline :: rest => exact absurd rfl (short line source newline rest)

/-! ### Texts -/

section Run

/-- The piece that comes next, when some are read. -/
theorem getElem?_of_drop {α : Type} {xs rest : List α} {x : α} {n : Nat} (split : xs.drop n = x :: rest) :
    xs[n]? = some x ∧ xs.drop (n + 1) = rest := by
  rw [← List.head?_drop, ← List.tail_drop, split]
  exact ⟨rfl, rfl⟩

variable {ps : List Piece} {gs : List (List Token)} {Inv : Nat → State → Prop}

/-- What holds before some piece, and what every piece keeps, holds at the end of the text. -/
theorem invariant_of_run
    (keeps : ∀ {n s p g s'}, ps[n]? = some p → gs[n]? = some g → Passes s p g s' → Inv n s → Inv (n + 1) s')
    {tokens : List Token} {n : Nat} (split : ps.drop n = pieces tokens) (split' : gs.drop n = groups tokens)
    (inside : n ≤ ps.length) (start : Inv n s) (plain : s.mark = none)
    (run : tokens.foldlM State.step s = .ok s') (done : s'.mark = none) : Inv ps.length s' := by
  -- The next piece is taken, and what is left of the text is taken after it.
  have next : ∀ {n s mid p g rest}, ps.drop n = p :: pieces rest → gs.drop n = g :: groups rest →
      Inv n s → Passes s p g mid → ps.drop (n + 1) = pieces rest ∧ gs.drop (n + 1) = groups rest ∧
        n + 1 ≤ ps.length ∧ Inv (n + 1) mid := by
    intro n s mid p g rest split split' start passes
    obtain ⟨found, split⟩ := getElem?_of_drop split
    obtain ⟨found', split'⟩ := getElem?_of_drop split'
    exact ⟨split, split', (List.getElem?_eq_some_iff.mp found).1, keeps found found' passes start⟩
  fun_induction pieces tokens generalizing s n with
  | case1 =>
    cases run
    have last : ps.length ≤ n := List.drop_eq_nil_iff.mp split
    exact Nat.le_antisymm inside last ▸ start
  -- Texts that stop within a line mark are not read to their end.
  | case2 t mark =>
    obtain ⟨s₁, first, run⟩ := run_cons.mp run
    cases run
    cases step_lineMark plain mark first
    cases done
  | case3 t mark word lme =>
    obtain ⟨s₁, first, run⟩ := run_cons.mp run
    obtain ⟨s₂, second, run⟩ := run_cons.mp run
    cases run
    cases step_lineMark plain mark first
    obtain ⟨_, ⟨_, outside, rest, suspended, rfl⟩ | ⟨other, _⟩⟩ := step_word rfl second
    · cases done
    · exact absurd lme other
  | case4 t mark word lme newline rest ih =>
    obtain ⟨mid, passes, plain, run⟩ := exists_passes_ends plain mark lme run
    rw [groups, if_pos mark, if_pos lme] at split'
    obtain ⟨split, split', inside, start⟩ := next split split' start passes
    exact ih split split' inside start plain run
  | case5 t mark word other line source newline rest ih =>
    obtain ⟨mid, passes, plain, run⟩ := exists_passes_begins plain mark other run
    rw [groups, if_pos mark, if_neg other] at split'
    obtain ⟨split, split', inside, start⟩ := next split split' start passes
    exact ih split split' inside start plain run
  | case6 t mark word rest other short =>
    obtain ⟨s₁, first, run⟩ := run_cons.mp run
    cases step_lineMark plain mark first
    exact absurd done (mark_of_short rfl other short run)
  | case7 t rest other ih =>
    obtain ⟨mid, first, run⟩ := run_cons.mp run
    rw [groups_plain other] at split'
    obtain ⟨passes, plain⟩ := passes_of_step plain other first
    obtain ⟨split, split', inside, start⟩ := next split split' start passes
    exact ih split split' inside start plain run

end Run

end Source

end CilPolicy
