import CilPolicy.Proofs.Source.Arena
import CilPolicy.Proofs.Source.Passing
import CilPolicy.Source.Reader
import Mathlib.Data.List.Forall2

/-!
# Reading into an arena

The lists that are open have numbers, from the current list outwards to the root, and each is the parent of
the one before it. A reader mirrors the parser when its tree holds what the open lists hold, it stands at the
current list, and every open list has the scope of its items for its frame. Each thing that both do to a node
or to the counters keeps it so, and the reader never follows a number that leads nowhere.

The reader that links nodes takes the tokens round by round, the parser one by one. After each round both are at
the same token, and the reader mirrors the parser; a text that the parser refuses is refused in the same round, with
the same fault, and the nodes that are linked by then are those that the parser leaves. As long as a list is open for
each parenthesis and each line mark, no round leaves the list of the file, and no number leads nowhere.
-/

namespace CilPolicy

open Node

namespace Source

/-! ### Numbers and places -/

/-- The places of the nodes that the open lists hold, the innermost list first, when the list of the file is
numbered `base`. -/
def standing (base : Nat) : List OpenList → List Standing
  | [] => []
  | l :: outer => (laid base l outer).2

/-- The numbers of the open lists, and of the root. -/
def spine (base : Nat) : List OpenList → List Nat
  | [] => [0]
  | l :: outer => (laid base l outer).1 :: spine base outer

/-- The scopes of the items to come, and of the files. -/
def scopes (lists : List OpenList) : List Scope :=
  lists.map OpenList.inside ++ [⟨none, []⟩]

/-- A list that is open comes after all nodes outside it. -/
theorem laid_eq (base : Nat) (l : OpenList) (outer : List OpenList) :
    laid base l outer = (base + (standing base outer).length, standing base outer ++
      l.close.places ((spine base outer).headD 0) (base + (standing base outer).length)) := by
  cases outer <;> rfl

/-- Numbers and places do not depend on what the items to come stand in. -/
theorem laid_inside (base : Nat) (l : OpenList) (outer : List OpenList) (scope : Scope) :
    laid base { l with inside := scope } outer = laid base l outer := by
  cases outer <;> rfl

theorem length_spine (base : Nat) (lists : List OpenList) : (spine base lists).length = lists.length + 1 := by
  induction lists with
  | nil => rfl
  | cons l outer ih => rw [spine, List.length_cons, ih, List.length_cons]

theorem head?_spine (base : Nat) (lists : List OpenList) :
    (spine base lists).head? = some ((spine base lists).headD 0) := by
  cases lists <;> rfl

theorem spine_add (base : Nat) (l : OpenList) (outer : List OpenList) (n : Node) :
    spine base (l.add n :: outer) = spine base (l :: outer) := by
  rw [spine, laid_add]
  rfl

/-- The way out of the open lists ends with the list of the file and the root. -/
theorem exists_spine_eq (base : Nat) (l : OpenList) (outer : List OpenList) :
    ∃ before, spine base (l :: outer) = before ++ [base, 0] := by
  induction outer generalizing l with
  | nil => exact ⟨[], rfl⟩
  | cons l' outer ih =>
    obtain ⟨before, same⟩ := ih l'
    exact ⟨_ :: before, by rw [spine, same, List.cons_append]⟩

/-- The list comes first of what it holds. -/
theorem standing_cons (base : Nat) (l : OpenList) (outer : List OpenList) :
    ∃ items, standing base (l :: outer) =
      standing base outer ++ ⟨(spine base outer).head?, none, l.position⟩ :: items := by
  rw [standing, laid_eq, OpenList.close, places_list, head?_spine]
  exact ⟨_, rfl⟩

theorem lt_of_mem_spine {base k : Nat} (pos : 0 < base) {lists : List OpenList} (mem : k ∈ spine base lists) :
    k < base + (standing base lists).length := by
  induction lists with
  | nil =>
    cases List.mem_singleton.mp mem
    exact Nat.lt_add_right _ pos
  | cons l outer ih =>
    obtain ⟨items, same⟩ := standing_cons base l outer
    rw [spine, laid_eq] at mem
    rw [same, List.length_append, List.length_cons]
    rcases List.mem_cons.mp mem with first | around
    · omega
    · have before := ih around
      omega

theorem forall₂_scopes_root {R : Nat → Scope → Prop} {base : Nat} {lists : List OpenList}
    (all : List.Forall₂ R (spine base lists) (scopes lists)) : R 0 ⟨none, []⟩ := by
  induction lists with
  | nil => exact (List.forall₂_cons.mp all).1
  | cons l outer ih => exact ih (List.forall₂_cons.mp all).2

/-- There are nodes enough for all numbers. -/
theorem length_spine_le {base : Nat} (pos : 0 < base) (lists : List OpenList) :
    (spine base lists).length ≤ base + (standing base lists).length := by
  induction lists with
  | nil => exact Nat.le_add_right_of_le pos
  | cons l outer ih =>
    obtain ⟨items, same⟩ := standing_cons base l outer
    rw [spine, List.length_cons, same, List.length_append, List.length_cons]
    omega

/-- Of the nodes in front of a file the first one is the root. -/
def Rooted (front : List Standing) : Prop :=
  ∃ place, front[0]? = some place ∧ place.parent = none

section Front

variable {front : List Standing}

theorem Rooted.pos (rooted : Rooted front) : 0 < front.length := by
  obtain ⟨_, found, _⟩ := rooted
  exact (List.getElem?_eq_some_iff.mp found).1

/-- Where an open list stands. -/
theorem getElem?_laid (l : OpenList) (outer : List OpenList) :
    (front ++ standing front.length (l :: outer))[(laid front.length l outer).1]? =
      some ⟨(spine front.length outer).head?, none, l.position⟩ := by
  obtain ⟨items, same⟩ := standing_cons front.length l outer
  rw [same, laid_eq, ← List.append_assoc, ← List.length_append, List.getElem?_append_right (Nat.le_refl _),
    Nat.sub_self, List.getElem?_cons_zero]

/-- The numbers of the open lists lead from each to the one around it. -/
theorem spine_chained (rooted : Rooted front) {lists : List OpenList} {before after : List Nat} {k : Nat}
    (split : spine front.length lists = before ++ k :: after) :
    ∃ place, (front ++ standing front.length lists)[k]? = some place ∧ place.parent = after.head? := by
  induction lists generalizing before with
  | nil =>
    obtain ⟨place, found, parent⟩ := rooted
    cases before with
    | nil =>
      cases split
      exact ⟨place, by rwa [standing, List.append_nil], parent⟩
    | cons j before =>
      have short := congrArg List.length split
      simp [spine] at short
  | cons l outer ih =>
    cases before with
    | nil =>
      cases split
      exact ⟨_, getElem?_laid l outer, rfl⟩
    | cons j before =>
      rw [spine, List.cons_append, List.cons.injEq] at split
      obtain ⟨place, found, parent⟩ := ih split.2
      obtain ⟨items, same⟩ := standing_cons front.length l outer
      refine ⟨place, ?_, parent⟩
      rw [same, ← List.append_assoc, List.getElem?_append_left (List.getElem?_eq_some_iff.mp found).1, found]

end Front

end Source

open Source

/-! ### What a reader has linked -/

/-- The reader is where the parser is, when the nodes in front of the file are those of the places. -/
structure Mirrors (front : List Standing) (r : Reader) (s : State) : Prop where
  shows : r.tree.Shows (front ++ standing front.length (s.current :: s.enclosing))
  current : r.current = (laid front.length s.current s.enclosing).1
  inside : List.Forall₂ r.tree.sources.Inside (spine front.length (s.current :: s.enclosing))
    (scopes (s.current :: s.enclosing))
  parens : r.parens = s.parens
  offset : r.offset = s.offset
  expanding : r.expanding = s.expanding
  suspended : r.suspended = s.suspended

namespace Mirrors

variable {front : List Standing} {r : Reader} {s : State}

theorem inside_current (m : Mirrors front r s) : r.tree.sources.Inside r.current s.current.inside := by
  rw [m.current]
  exact (List.forall₂_cons.mp m.inside).1

theorem place_current (m : Mirrors front r s) :
    r.tree.Has r.current ⟨(spine front.length s.enclosing).head?, none, s.current.position⟩ := by
  rw [m.current]
  exact m.shows.has _ _ (getElem?_laid s.current s.enclosing)

/-- The way from the current list to the root goes through the open lists. -/
theorem ancestors? (m : Mirrors front r s) (rooted : Rooted front) :
    r.tree.arena.ancestors? r.current = some (spine front.length (s.current :: s.enclosing)) := by
  have short : (spine front.length (s.current :: s.enclosing)).length ≤ r.tree.arena.size := by
    rw [m.shows.size, List.length_append]
    exact length_spine_le rooted.pos _
  rw [Arena.ancestors?, m.current]
  refine (Graph.Threads.of_head? fun before k after split => ?_).followLinks short
  obtain ⟨place, found, parent⟩ := spine_chained rooted split
  obtain ⟨c, there, same⟩ := (m.shows.has k place found).cell
  rw [there, Option.map_some, ← parent]
  exact congrArg (some ∘ Cell.parent) same

theorem addLeaf (m : Mirrors front r s) (line : Nat) (value : String) :
    ∃ r', r.addLeaf line value = .ok r' ∧ Mirrors front r' (s.addLeaf line value) := by
  obtain ⟨t, run, shows, _, keeps⟩ := m.shows.exists_addNode? m.inside_current (some value) line r.offset
  refine ⟨{ r with tree := t }, ?_, ?_, ?_, ?_, m.parens, m.offset, m.expanding, m.suspended⟩
  · rw [Reader.addLeaf, run]
    rfl
  · rw [m.current, m.offset, List.append_assoc] at shows
    rw [State.addLeaf, standing, laid_leaf]
    exact shows
  · rw [State.addLeaf, laid_leaf]
    exact m.current
  · rw [State.addLeaf, spine_add]
    exact m.inside.imp keeps

theorem openList (m : Mirrors front r s) (line : Nat) :
    ∃ r', r.openList line = .ok r' ∧ Mirrors front r' (s.openList line) := by
  obtain ⟨t, run, shows, inside, keeps⟩ := m.shows.exists_addNode? m.inside_current none line r.offset
  refine ⟨{ r with tree := t, current := (front ++ standing front.length (s.current :: s.enclosing)).length },
    ?_, ?_, ?_, ?_, m.parens, m.offset, m.expanding, m.suspended⟩
  · rw [Reader.openList, run]
    rfl
  · rw [m.current, m.offset, List.append_assoc] at shows
    exact shows
  · rw [List.length_append]
    rfl
  · rw [State.openList, spine, laid_open]
    rw [List.length_append] at inside
    exact .cons inside (m.inside.imp keeps)

/-- The list around the current one is there as long as a parenthesis or a mark is open. -/
theorem ascend (m : Mirrors front r s) (nested : s.enclosing ≠ []) :
    ∃ r', r.ascend = .ok r' ∧ Mirrors front r' s.ascend := by
  obtain ⟨c, found, same⟩ := m.place_current.cell
  obtain ⟨current, enclosing, parens, offset, expanding, suspended, mark⟩ := s
  cases enclosing with
  | nil => exact absurd rfl nested
  | cons outer rest =>
    have parent : c.parent = some (laid front.length outer rest).1 := congrArg Cell.parent same
    have inside := (List.forall₂_cons.mp m.inside).2
    refine ⟨{ r with current := (laid front.length outer rest).1 }, ?_, ?_, ?_, ?_, m.parens, m.offset,
      m.expanding, m.suspended⟩
    · rw [Reader.ascend, found, Halt.unlessAborted]
      change Except.ok { r with current := c.parent.getD r.current } = _
      rw [parent]
      rfl
    · rw [State.ascend, standing, laid_close]
      exact m.shows
    · rw [State.ascend, laid_close]
    · rw [State.ascend, spine_add]
      exact inside

/-- The frame of a line mark is around the items to come in its list. -/
theorem openFrame (m : Mirrors front r s) (rooted : Rooted front) (expands : Bool) (path : String) (line : Nat) :
    ∃ r', r.openFrame (if expands then .line else .lines) path line = .ok r' ∧
      Mirrors front { r' with expanding := expands } (s.enterMark expands line path) := by
  obtain ⟨t, run, shows, others, _, own⟩ := m.shows.exists_openFrame? (getElem?_laid s.current s.enclosing)
    (if expands then .line else .lines) path line
  have outside : ∀ j ∈ spine front.length s.enclosing, j ≠ (laid front.length s.current s.enclosing).1 := by
    intro j mem
    have less := lt_of_mem_spine rooted.pos mem
    rw [laid_eq]
    exact Nat.ne_of_lt less
  have around := (List.forall₂_cons.mp m.inside).2
  refine ⟨{ r with tree := t }, ?_, ?_, ?_, ?_, m.parens, m.offset, rfl, m.suspended⟩
  · rw [Reader.openFrame, m.current, run]
    rfl
  · rw [State.enterMark, standing, laid_inside]
    exact shows
  · rw [State.enterMark, laid_inside]
    exact m.current
  · rw [State.enterMark, spine, laid_inside]
    exact .cons (own expands rfl)
      (((List.forall₂_and_left _ _).mpr ⟨outside, around⟩).imp fun j scope h => others j scope h.1 h.2)

/-- The list of a line mark is closed in the mark's end, wherever its list is. -/
theorem endMark (m : Mirrors front r s) (nested : s.enclosing ≠ []) (outside : Suspended) (rest : List Suspended) :
    ∃ r', Reader.ascend { r with
        offset := if outside.expanding then outside.offset else if r.expanding then r.offset + 1 else r.offset
        expanding := outside.expanding
        suspended := rest } = .ok r' ∧ Mirrors front r' (s.endMark outside rest) := by
  have same : s.endMark outside rest = State.ascend { s with
      offset := if outside.expanding then outside.offset else if s.expanding then s.offset + 1 else s.offset
      expanding := outside.expanding
      suspended := rest
      mark := some .lineEnd } := by
    obtain ⟨current, enclosing⟩ := s
    cases enclosing <;> rfl
  rw [same, m.expanding, m.offset]
  exact ascend ⟨m.shows, m.current, m.inside, m.parens, rfl, rfl, rfl⟩ nested

theorem countLine (m : Mirrors front r s) : Mirrors front r.countLine s.countLine := by
  rw [Reader.countLine, State.countLine, m.expanding]
  split
  · exact m
  · exact { m with offset := congrArg (· + 1) m.offset, expanding := rfl }

end Mirrors

/-! ### Streams of tokens -/

/-- The last token, and no other, is the end of the text, and a comment goes up to the end of its line. -/
inductive Lexed : List Token → Prop
  | finish {t : Token} (kind : t.kind = .finish) : Lexed [t]
  | token {t next : Token} {rest : List Token} (more : t.kind ≠ .finish)
      (line : t.kind = .comment → next.kind = .newline ∨ next.kind = .finish) (after : Lexed (next :: rest)) :
      Lexed (t :: next :: rest)

namespace Lexed

variable {t : Token} {rest : List Token}

theorem exists_cons {tokens : List Token} (lexed : Lexed tokens) : ∃ t rest, tokens = t :: rest := by
  cases lexed <;> exact ⟨_, _, rfl⟩

theorem tail (lexed : Lexed (t :: rest)) (more : t.kind ≠ .finish) : Lexed rest := by
  cases lexed with
  | finish kind => exact absurd kind more
  | token _ _ after => exact after

theorem eq_nil (lexed : Lexed (t :: rest)) (kind : t.kind = .finish) : rest = [] := by
  cases lexed with
  | finish => rfl
  | token more => exact absurd kind more

end Lexed

namespace Token

theorem lexeme_isBreak (fresh : Bool) {c : Char} (isBreak : isBreak c = true) (rest : List Char) :
    (lexeme fresh c rest).kind = .newline := by
  have either : c = '\n' ∨ c = '\r' := by simpa [Token.isBreak] using isBreak
  rcases either with rfl | rfl
  · rfl
  · rw [lexeme.eq_def]
    split <;> first | rfl | contradiction

theorem rest_lexeme_comment {fresh : Bool} {c : Char} {rest : List Char}
    (kind : (lexeme fresh c rest).kind = .comment) :
    (lexeme fresh c rest).rest = rest.dropWhile (!isBreak ·) := by
  revert kind
  rw [lexeme.eq_def]
  repeat' split
  all_goals simp

/-- The text after a comment begins with a line break, or there is none. -/
theorem scan_dropWhile (fresh : Bool) (line : Nat) (text : List Char) :
    ∃ t rest, scan fresh line (text.dropWhile (!isBreak ·)) = t :: rest ∧
      (t.kind = .newline ∨ t.kind = .finish) := by
  have stops := List.head?_dropWhile_not (!isBreak ·) text
  rw [scan.eq_def]
  split
  · exact ⟨_, _, rfl, Or.inr rfl⟩
  · rename_i c more left
    refine ⟨_, _, rfl, Or.inl (lexeme_isBreak _ ?_ more)⟩
    cases same : text.dropWhile (!isBreak ·) with
    | nil =>
      rw [same] at left
      cases left
    | cons x xs =>
      have first : isBreak x = true := by simpa [same] using stops
      have dark : isBlank x = false := by
        rcases (by simpa [isBreak] using first : x = '\n' ∨ x = '\r') with rfl | rfl <;> rfl
      rw [same, List.dropWhile_cons_of_neg (by simp [dark])] at left
      cases left
      exact first

theorem lexed_scan (fresh : Bool) (line : Nat) (text : List Char) : Lexed (scan fresh line text) := by
  fun_induction scan fresh line text with
  | case1 => exact .finish rfl
  | case2 fresh line text c rest blank start token isNewline line' ih =>
    obtain ⟨next, others, same⟩ := ih.exists_cons
    rw [same] at ih ⊢
    refine .token (lexeme_spec start c rest).1 (fun kind => ?_) ih
    obtain ⟨t, others', same', kinds⟩ := scan_dropWhile isNewline line' rest
    rw [← rest_lexeme_comment kind] at same'
    cases same.symm.trans same'
    exact kinds

end Token

/-! ### One token, or what belongs to it -/

theorem Source.places_close (base : Nat) (s : State) :
    s.close.places 0 base = standing base (s.current :: s.enclosing) := by
  obtain ⟨current, enclosing⟩ := s
  dsimp only
  induction enclosing generalizing current with
  | nil => rfl
  | cons outer rest ih =>
    rw [standing, ← congrArg Prod.snd (laid_close base current outer rest)]
    exact ih (outer.add current.close)

/-- Nothing but the open lists changes when one is closed. -/
theorem Source.ascend_eq (s : State) :
    s.ascend = { s with current := s.ascend.current, enclosing := s.enclosing.tail } := by
  obtain ⟨current, enclosing⟩ := s
  cases enclosing <;> rfl

/-- The tree holds, after the nodes in front, those of the file that the parser has read. -/
structure Leaves (front : List Standing) (t : LinkedTree) (s : State) : Prop where
  shows : t.Shows (front ++ s.close.places 0 front.length)
  inside : t.sources.Inside 0 ⟨none, []⟩

theorem Mirrors.leaves {front : List Standing} {r : Reader} {s : State} (m : Mirrors front r s) :
    Leaves front r.tree s where
  shows := by
    rw [places_close]
    exact m.shows
  inside := forall₂_scopes_root m.inside

/-- A part of the reader comes to such a result, or it refuses what the parser refuses, and leaves what the
parser leaves. -/
def Meets {α : Type} (front : List Standing) (outcome : Except Refusal State) (Post : α → Prop) :
    Except Halt α → Prop
  | .ok a => Post a
  | .error .aborted => False
  | .error (.refused fault line left) => ∃ s, outcome = .error ⟨fault, line, s⟩ ∧ Leaves front left s

/-- The reader is in front of the tokens, in the state from which the parser comes to the outcome. -/
structure Follows (front : List Standing) (outcome : Except Refusal State) (r : Reader) (tokens : List Token)
    (s : State) : Prop where
  mirrors : Mirrors front r s
  /-- One list is open for each parenthesis and each line mark. -/
  deep : s.enclosing.length = s.parens + s.suspended.length
  run : tokens.foldlM State.step s = outcome
  lexed : Lexed tokens

/-- The reader with the tokens that it has not taken follows the parser up to this part of a line mark. -/
def Awaits (front : List Standing) (outcome : Except Refusal State) (mark : Option MarkPart)
    (left : Reader × List Token) : Prop :=
  ∃ s, Follows front outcome left.1 left.2 s ∧ s.mark = mark

/-- The parser accepts the text, and the reader is back at the list of the file. -/
structure Finished (front : List Standing) (outcome : Except Refusal State) (r : Reader) : Prop where
  leaves : ∃ s, outcome = .ok s ∧ Leaves front r.tree s
  current : r.current = front.length

/-- The reader follows the parser to the next round or to the end. -/
def Proceeds (front : List Standing) (outcome : Except Refusal State) : Round → Prop
  | .next r rest => Awaits front outcome none (r, rest)
  | .done r => Finished front outcome r

section Steps

variable {α β : Type} {front : List Standing} {outcome : Except Refusal State} {P : α → Prop} {Q : β → Prop}

theorem Meets.bind {x : Except Halt α} {f : α → Except Halt β} (first : Meets front outcome P x)
    (after : ∀ a, P a → Meets front outcome Q (f a)) : Meets front outcome Q (x >>= f) := by
  cases x with
  | ok a => exact after a first
  | error halt =>
    cases halt with
    | aborted => exact first
    | refused => exact first

theorem Meets.of_run {x : Except Halt α} {f : α → Except Halt β} {a : α} (run : x = .ok a)
    (after : Meets front outcome Q (f a)) : Meets front outcome Q (x >>= f) := by
  rw [run]
  exact after

variable {r r' : Reader} {s s' : State} {t : Token} {rest : List Token} {fault : ParseFault} {line : Nat}

theorem Source.step_of_plain (plain : s.mark = none) : s.step t = s.stepPlain t := by
  rw [State.step, plain]

theorem Source.step_of_due {part : MarkPart} (due : s.mark = some part) : s.step t = s.stepMark part t := by
  rw [State.step, due]

/-- The parser refuses the token, and so does the reader. -/
theorem Follows.refuse (f : Follows front outcome r (t :: rest) s)
    (step : s.step t = .error ⟨fault, line, s⟩) : Meets front outcome P (r.refuse fault line) := by
  refine ⟨s, ?_, f.mirrors.leaves⟩
  rw [← f.run, List.foldlM_cons, step]
  rfl

/-- The parser takes the token, and the reader follows it to the next one. -/
theorem Follows.take (f : Follows front outcome r (t :: rest) s) (step : s.step t = .ok s')
    (mirrors : Mirrors front r' s') (deep : s'.enclosing.length = s'.parens + s'.suspended.length)
    (more : t.kind ≠ .finish) : Follows front outcome r' rest s' where
  mirrors := mirrors
  deep := deep
  run := by
    rw [← f.run, List.foldlM_cons, step]
    rfl
  lexed := f.lexed.tail more

theorem Follows.markLineEnd (f : Follows front outcome r (t :: rest) s) (due : s.mark = some .lineEnd) :
    Meets front outcome (Awaits front outcome none) (r.markLineEnd (t :: rest)) := by
  have step : s.step t = s.stepMark .lineEnd t := step_of_due due
  rw [Reader.markLineEnd]
  by_cases kind : t.kind = .newline
  · have more : t.kind ≠ .finish := by simp [kind]
    rw [State.stepMark, if_pos (beq_iff_eq.mpr kind)] at step
    dsimp only [nextToken]
    rw [if_pos (beq_iff_eq.mpr kind)]
    have m := f.mirrors.countLine
    exact ⟨_, f.take step { m with } (by rw [countLine_eq]; exact f.deep) more, rfl⟩
  · rw [State.stepMark, if_neg (by simpa using kind)] at step
    dsimp only [nextToken]
    rw [if_neg (by simpa using kind)]
    exact f.refuse step

theorem Follows.markPath (f : Follows front outcome r (t :: rest) s) (rooted : Rooted front) {expands : Bool}
    {number : Nat} (due : s.mark = some (.path expands number)) :
    Meets front outcome (Awaits front outcome (some .lineEnd))
      (r.markPath (if expands then .line else .lines) number (t :: rest)) := by
  have step : s.step t = s.stepMark (.path expands number) t := step_of_due due
  rw [State.stepMark] at step
  rw [Reader.markPath]
  dsimp only [nextToken] at step ⊢
  split
  · rename_i kind
    rw [if_pos kind] at step
    have more : t.kind ≠ .finish := by
      intro finish
      simp [finish] at kind
    obtain ⟨r₁, leaf, m⟩ := f.mirrors.addLeaf t.line (nameText t)
    obtain ⟨r₂, frame, m⟩ := m.openFrame rooted expands (nameText t) number
    refine .of_run leaf (.of_run frame ⟨_, f.take step ?_ f.deep more, rfl⟩)
    cases expands <;> exact m
  · rename_i kind
    rw [if_neg kind] at step
    exact f.refuse step

theorem Follows.markSource (f : Follows front outcome r (t :: rest) s) (rooted : Rooted front) {expands : Bool}
    (due : s.mark = some (.line expands)) :
    Meets front outcome (Awaits front outcome (some .lineEnd))
      (r.markSource (if expands then .line else .lines) (t :: rest)) := by
  have step : s.step t = s.stepMark (.line expands) t := step_of_due due
  rw [State.stepMark] at step
  rw [Reader.markSource]
  dsimp only [nextToken] at step ⊢
  split
  · rename_i number kind decimal
    rw [kind, decimal] at step
    have more : t.kind ≠ .finish := by simp [kind]
    obtain ⟨r₁, leaf, m⟩ := f.mirrors.addLeaf t.line t.text
    have f := f.take step { m with } f.deep more
    obtain ⟨path, rest, rfl⟩ := f.lexed.exists_cons
    exact .of_run leaf (f.markPath rooted rfl)
  · rename_i other
    split at step
    · rename_i number kind decimal
      exact absurd decimal (other number kind)
    · exact f.refuse step

/-- A line mark that begins, from its word to its path. -/
theorem Follows.beginMark (f : Follows front outcome r (t :: rest) s) (rooted : Rooted front)
    (due : s.mark = some .word) (kind : t.kind = .symbol) (expands : Bool)
    (text : t.text = if expands then "lmx" else "lms") :
    Meets front outcome (Awaits front outcome (some .lineEnd))
      (r.beginMark (if expands then .line else .lines) t rest) := by
  have step : s.step t = if maxDepth ≤ s.suspended.length then .error ⟨.tooManyMarks, t.line, s⟩
      else .ok (s.beginMark t.line t.text expands) := by
    rw [step_of_due due]
    dsimp only [State.stepMark]
    cases expands <;> simp [kind, text]
  rw [Reader.beginMark]
  dsimp only
  rw [List.length_cons, f.mirrors.suspended]
  by_cases many : maxDepth ≤ s.suspended.length
  · rw [if_pos many] at step
    rw [if_pos (Nat.lt_succ_of_le many)]
    exact f.refuse step
  · rw [if_neg many] at step
    rw [if_neg (by simpa [Nat.lt_succ_iff] using many)]
    have begun : Mirrors front { r with suspended := ⟨r.offset, r.expanding⟩ :: s.suspended }
        { s with suspended := ⟨s.offset, s.expanding⟩ :: s.suspended } :=
      { f.mirrors with suspended := by rw [f.mirrors.offset, f.mirrors.expanding] }
    obtain ⟨r₁, list, m⟩ := begun.openList t.line
    obtain ⟨r₂, tag, m⟩ := m.addLeaf t.line Node.sourceTag
    obtain ⟨r₃, word, m⟩ := m.addLeaf t.line t.text
    have f := f.take step { m with } (congrArg (· + 1) f.deep) (by simp [kind])
    obtain ⟨line, rest, rfl⟩ := f.lexed.exists_cons
    exact .of_run list (.of_run tag (.of_run word (f.markSource rooted rfl)))

theorem Follows.endMark (f : Follows front outcome r (t :: rest) s) (due : s.mark = some .word)
    (kind : t.kind = .symbol) (text : t.text = "lme") :
    Meets front outcome (Awaits front outcome (some .lineEnd))
      (r.endMark t.line >>= fun r => pure (r, rest)) := by
  rw [Reader.endMark, f.mirrors.suspended]
  cases suspended : s.suspended with
  | nil =>
    have step : s.step t = .error ⟨.unmatchedMarkEnd, t.line, s⟩ := by
      rw [step_of_due due]
      simp [State.stepMark, kind, text, suspended]
    exact f.refuse step
  | cons outside others =>
    have step : s.step t = .ok (s.endMark outside others) := by
      rw [step_of_due due]
      simp [State.stepMark, kind, text, suspended]
    have deep := f.deep
    rw [suspended, List.length_cons] at deep
    have nested : s.enclosing ≠ [] := by
      intro none
      rw [none, List.length_nil] at deep
      omega
    have left : (s.endMark outside others).enclosing.length =
        (s.endMark outside others).parens + (s.endMark outside others).suspended.length := by
      rw [State.endMark, ascend_eq]
      dsimp only
      rw [List.length_tail]
      omega
    obtain ⟨r₁, up, m⟩ := f.mirrors.endMark nested outside others
    exact .of_run up ⟨_, f.take step m left (by simp [kind]), rfl⟩

/-- The word of a line mark, and all of the mark that is on its line. -/
theorem Follows.markWord (f : Follows front outcome r (t :: rest) s) (rooted : Rooted front)
    (due : s.mark = some .word) :
    Meets front outcome (Awaits front outcome (some .lineEnd)) (r.markWord (t :: rest)) := by
  rw [Reader.markWord]
  dsimp only [nextToken]
  have step : s.step t = s.stepMark .word t := step_of_due due
  rw [State.stepMark] at step
  split
  · rename_i kind
    rw [if_pos kind] at step
    exact f.refuse step
  rename_i kind
  rw [if_neg kind] at step
  have kind : t.kind = .symbol := by simpa using kind
  split
  · rename_i lme
    exact f.endMark due kind (eq_of_beq lme)
  rename_i other
  rw [if_neg other] at step
  split
  · rename_i lms
    exact f.beginMark rooted due kind false (eq_of_beq lms)
  split
  · rename_i lmx
    exact f.beginMark rooted due kind true (eq_of_beq lmx)
  · rename_i lms lmx
    rw [if_neg (by simp [lms, lmx])] at step
    exact f.refuse step

theorem Follows.lineMark (f : Follows front outcome r (t :: rest) s) (rooted : Rooted front)
    (due : s.mark = some .word) : Meets front outcome (Awaits front outcome none) (r.lineMark (t :: rest)) := by
  refine (f.markWord rooted due).bind fun (r', tokens) awaits => ?_
  obtain ⟨s', f', due'⟩ := awaits
  obtain ⟨newline, rest', rfl⟩ := f'.lexed.exists_cons
  exact f'.markLineEnd due'

/-- At the end of the text the line counter does not matter. -/
theorem Follows.finish (f : Follows front outcome r (t :: rest) s) (plain : s.mark = none)
    (kind : t.kind = .finish) (offset : Nat) :
    Meets front outcome (Proceeds front outcome) (Reader.finish { r with offset } t.line) := by
  have step : s.step t = s.stepPlain t := step_of_plain plain
  rw [State.stepPlain, kind] at step
  dsimp only at step
  rw [Reader.finish, f.mirrors.parens, f.mirrors.suspended]
  split
  · rename_i parens
    rw [if_pos parens] at step
    exact f.refuse step
  rename_i parens
  rw [if_neg parens] at step
  split
  · rename_i suspended
    rw [if_pos suspended] at step
    exact f.refuse step
  · rename_i suspended
    rw [if_neg suspended] at step
    have nil : rest = [] := f.lexed.eq_nil kind
    subst nil
    refine ⟨⟨s, ?_, f.mirrors.leaves⟩, ?_⟩
    · rw [← f.run, List.foldlM_cons, step]
      rfl
    · have none : s.enclosing = [] := by
        have deep := f.deep
        have away : s.suspended = [] := by simpa using suspended
        rw [away, List.length_nil] at deep
        exact List.length_eq_zero_iff.mp (by omega)
      rw [f.mirrors.current, none]
      rfl

theorem Follows.opening (f : Follows front outcome r (t :: rest) s) (plain : s.mark = none)
    (kind : t.kind = .opening) : Meets front outcome (Proceeds front outcome)
      (if maxDepth < r.parens + 1 then r.refuse .tooDeep t.line
      else Reader.openList { r with parens := r.parens + 1 } t.line >>= fun r => pure (.next r rest)) := by
  have step : s.step t = s.stepPlain t := step_of_plain plain
  rw [State.stepPlain, kind] at step
  dsimp only at step
  rw [f.mirrors.parens]
  by_cases deep : maxDepth ≤ s.parens
  · rw [if_pos deep] at step
    rw [if_pos (Nat.lt_succ_of_le deep)]
    exact f.refuse step
  · rw [if_neg deep] at step
    rw [if_neg (by omega)]
    have counted : Mirrors front { r with parens := s.parens + 1 } { s with parens := s.parens + 1 } :=
      { f.mirrors with parens := rfl }
    obtain ⟨r₁, list, m⟩ := counted.openList t.line
    have left : s.enclosing.length + 1 = s.parens + 1 + s.suspended.length := by
      have deep := f.deep
      omega
    exact .of_run list ⟨_, f.take step { m with } left (by simp [kind]), plain⟩

theorem Follows.closing (f : Follows front outcome r (t :: rest) s) (plain : s.mark = none)
    (kind : t.kind = .closing) : Meets front outcome (Proceeds front outcome)
      (if r.parens = 0 then r.refuse .unmatchedClose t.line
      else Reader.ascend { r with parens := r.parens - 1 } >>= fun r => pure (.next r rest)) := by
  have step : s.step t = s.stepPlain t := step_of_plain plain
  rw [State.stepPlain, kind] at step
  dsimp only at step
  rw [f.mirrors.parens]
  split
  · rename_i none
    rw [if_pos none] at step
    exact f.refuse step
  · rename_i parens
    rw [if_neg parens] at step
    have deep := f.deep
    have nested : s.enclosing ≠ [] := by
      intro none
      rw [none, List.length_nil] at deep
      omega
    have counted : Mirrors front { r with parens := s.parens - 1 } { s with parens := s.parens - 1 } :=
      { f.mirrors with parens := rfl }
    have same : State.ascend { s with parens := s.parens - 1 } = { s.ascend with parens := s.parens - 1 } := by
      obtain ⟨current, enclosing⟩ := s
      cases enclosing <;> rfl
    obtain ⟨r₁, up, m⟩ := counted.ascend nested
    rw [same] at m
    have left : s.ascend.enclosing.length = s.parens - 1 + s.ascend.suspended.length := by
      rw [ascend_eq]
      dsimp only
      rw [List.length_tail]
      omega
    have still : s.ascend.mark = none := by rw [ascend_eq, plain]
    exact .of_run up ⟨_, f.take step m left (by simp [kind]), still⟩

theorem Follows.name (f : Follows front outcome r (t :: rest) s) (plain : s.mark = none)
    (kind : t.kind = .symbol ∨ t.kind = .quoted) : Meets front outcome (Proceeds front outcome)
      (if r.parens = 0 then r.refuse .strayName t.line
      else r.addLeaf t.line (nameText t) >>= fun r => pure (.next r rest)) := by
  have step : s.step t = if s.parens = 0 then .error ⟨.strayName, t.line, s⟩
      else .ok (s.addLeaf t.line (nameText t)) := by
    rw [step_of_plain plain]
    dsimp only [State.stepPlain]
    rcases kind with kind | kind <;> rw [kind]
  rw [f.mirrors.parens]
  split
  · rename_i none
    rw [if_pos none] at step
    exact f.refuse step
  · rename_i parens
    rw [if_neg parens] at step
    have more : t.kind ≠ .finish := by rcases kind with kind | kind <;> simp [kind]
    obtain ⟨r₁, leaf, m⟩ := f.mirrors.addLeaf t.line (nameText t)
    exact .of_run leaf ⟨_, f.take step m f.deep more, plain⟩

theorem Follows.newline (f : Follows front outcome r (t :: rest) s) (plain : s.mark = none)
    (kind : t.kind = .newline) : Awaits front outcome none (r.countLine, rest) := by
  have step : s.step t = .ok s.countLine := by
    rw [step_of_plain plain]
    dsimp only [State.stepPlain]
    rw [kind]
  refine ⟨s.countLine, f.take step f.mirrors.countLine ?_ (by simp [kind]), ?_⟩ <;> rw [countLine_eq]
  · exact f.deep
  · exact plain

/-- A comment is taken with the break of its line, if there is one. -/
theorem Follows.comment (f : Follows front outcome r (t :: rest) s) (plain : s.mark = none)
    (kind : t.kind = .comment) : Meets front outcome (Proceeds front outcome)
      (let (last, rest) := nextToken (rest.dropWhile fun x => !(x.kind == .newline || x.kind == .finish))
      if last.kind == .finish then r.countLine.finish last.line else .ok (.next r.countLine rest)) := by
  have step : s.step t = .ok s := by
    rw [step_of_plain plain]
    dsimp only [State.stepPlain]
    rw [kind]
  have after := f.take step f.mirrors f.deep (by simp [kind])
  cases f.lexed with
  | finish finish => simp [kind] at finish
  | @token _ next rest _ line _ =>
    have stops : (next.kind == .newline || next.kind == .finish) = true := by
      rcases line kind with kind | kind <;> simp [kind]
    rw [List.dropWhile_cons_of_neg (by simp [stops])]
    dsimp only [nextToken]
    rcases line kind with kind | kind
    · rw [if_neg (by simp [kind])]
      exact after.newline plain kind
    · rw [if_pos (by simp [kind]), Reader.countLine]
      split
      · exact after.finish plain kind r.offset
      · exact after.finish plain kind (r.offset + 1)

/-- What a round takes, and what it leaves to the next one. -/
theorem Follows.round (f : Follows front outcome r (t :: rest) s) (rooted : Rooted front) (plain : s.mark = none) :
    Meets front outcome (Proceeds front outcome) (r.round (t :: rest)) := by
  rw [Reader.round]
  dsimp only [nextToken]
  cases kind : t.kind <;> dsimp only
  case lineMark =>
    have step : s.step t = .ok { s with mark := some .word } := by
      rw [step_of_plain plain]
      dsimp only [State.stepPlain]
      rw [kind]
    have f := f.take step { f.mirrors with } f.deep (by simp [kind])
    obtain ⟨word, rest, rfl⟩ := f.lexed.exists_cons
    exact (f.lineMark rooted rfl).bind fun _ awaits => awaits
  case opening => exact f.opening plain kind
  case closing => exact f.closing plain kind
  case symbol => exact f.name plain (Or.inl kind)
  case quoted => exact f.name plain (Or.inr kind)
  case newline => exact f.newline plain kind
  case comment => exact f.comment plain kind
  case finish => exact f.finish plain kind r.offset
  case unknown =>
    have step : s.step t = .error ⟨.invalidToken t.text, t.line, s⟩ := by
      rw [step_of_plain plain]
      dsimp only [State.stepPlain]
      rw [kind]
    exact f.refuse step

theorem Awaits.round {tokens : List Token} (awaits : Awaits front outcome none (r, tokens)) (rooted : Rooted front) :
    Meets front outcome (Proceeds front outcome) (r.round tokens) := by
  obtain ⟨s, f, plain⟩ := awaits
  obtain ⟨t, rest, rfl⟩ := f.lexed.exists_cons
  exact f.round rooted plain

/-- The loop comes to the end of the text, or the text is refused where the parser refuses it. -/
theorem Awaits.loop {tokens : List Token} (awaits : Awaits front outcome none (r, tokens)) (rooted : Rooted front) :
    Meets front outcome (Finished front outcome) (r.loop tokens) := by
  fun_induction Reader.loop r tokens with
  | case1 r tokens halt run =>
    have met := awaits.round rooted
    rw [run] at met
    cases halt with
    | aborted => exact met
    | refused => exact met
  | case2 r tokens r' run =>
    have met := awaits.round rooted
    rw [run] at met
    exact met
  | case3 r tokens r' rest run ih =>
    have met := awaits.round rooted
    rw [run] at met
    exact ih met

end Steps

/-! ### Files -/

section Start

variable {front : List Standing} {t : LinkedTree}

theorem exists_start (shows : t.Shows front) (root : t.sources.Inside 0 ⟨none, []⟩) (rooted : Rooted front)
    (path : String) : ∃ r, Reader.start t path = .ok r ∧ Mirrors front r (State.start path) := by
  obtain ⟨t₁, list, shows, inside, keeps⟩ := shows.exists_addNode? root none 0 0
  have m : Mirrors front { tree := t₁, current := front.length, offset := 0 }
      { current := ⟨{}, ⟨none, []⟩, []⟩, enclosing := [], offset := 0 } :=
    ⟨shows, rfl, .cons inside (.cons (keeps 0 _ root) .nil), rfl, rfl, rfl, rfl⟩
  obtain ⟨r₁, tag, m⟩ := m.addLeaf 0 Node.sourceTag
  obtain ⟨r₂, kind, m⟩ := m.addLeaf 0 "cil"
  obtain ⟨r₃, line, m⟩ := m.addLeaf 0 "1"
  obtain ⟨r₄, name, m⟩ := m.addLeaf 0 path
  have current : r₄.current = front.length := m.current
  obtain ⟨t₂, frame, shows, others, own, _⟩ :=
    m.shows.exists_openFrame? (k := front.length) (getElem?_laid _ []) .file path 1
  refine ⟨{ r₄ with tree := t₂, offset := 1 }, ?_, shows, m.current, ?_, m.parens, rfl, m.expanding, m.suspended⟩
  · have first : Reader.openList { tree := t, current := 0, offset := 0 } 0 =
        .ok { tree := t₁, current := front.length, offset := 0 } := by
      rw [Reader.openList, list]
      rfl
    have last : r₄.openFrame .file path 1 = .ok { r₄ with tree := t₂ } := by
      rw [Reader.openFrame, current, frame]
      rfl
    exact bind_eq_ok.mpr ⟨_, first, bind_eq_ok.mpr ⟨_, tag, bind_eq_ok.mpr ⟨_, kind, bind_eq_ok.mpr ⟨_, line,
      bind_eq_ok.mpr ⟨_, name, bind_eq_ok.mpr ⟨_, last, rfl⟩⟩⟩⟩⟩⟩
  · refine .cons (own rfl rfl) (.cons ?_ .nil)
    exact others 0 _ (Nat.ne_of_lt rooted.pos) (forall₂_scopes_root m.inside)

end Start

end CilPolicy
