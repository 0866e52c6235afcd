import CilPolicy.Proofs.Report
import CilPolicy.Proofs.Source.Grammar
import Mathlib.Data.List.Induction

/-!
# Parsing

Where no token begins a line mark, a text is accepted exactly when its tokens are well nested,
and the list of the file then has, after its header, the one reading of the tokens that the
grammar has. Between two tokens, the open lists hold what has been read since the parentheses
that opened them, and there are as many of them as parentheses that wait for their partners.
-/

namespace CilPolicy

open Token

/-! ### Streams of tokens -/

/-- The last token, and no other, is the end of the text. -/
def Ended (tokens : List Token) : Prop :=
  ∃ body last, tokens = body ++ [last] ∧ last.kind = .finish ∧ ∀ t ∈ body, t.kind ≠ .finish

/-- Quoted tokens stand in quotes. -/
def Quoted (tokens : List Token) : Prop :=
  ∀ t ∈ tokens, t.kind = .quoted → ∃ text, t.text = "\"" ++ text ++ "\""

namespace Token

theorem lexeme_spec (fresh : Bool) (c : Char) (rest : List Char) :
    (lexeme fresh c rest).kind ≠ .finish ∧
      ((lexeme fresh c rest).kind = .quoted →
        ∃ inner, (lexeme fresh c rest).chars = '"' :: (inner ++ ['"'])) := by
  rw [lexeme.eq_def]
  split
  · simp
  · simp
  · simp
  · simp
  · simp
  · split
    · simp
    · simp
  · split
    · exact ⟨by simp, fun _ => ⟨_, rfl⟩⟩
    · simp
  · split
    · simp
    · simp

theorem ended_scan (fresh : Bool) (line : Nat) (text : List Char) : Ended (scan fresh line text) := by
  fun_induction scan fresh line text with
  | case1 => exact ⟨[], _, rfl, rfl, by simp⟩
  | case2 _ _ _ c rest _ start _ _ _ ih =>
    obtain ⟨body, last, same, kind, others⟩ := ih
    have more := (lexeme_spec start c rest).1
    exact ⟨_ :: body, last, by rw [same]; rfl, kind, List.forall_mem_cons.mpr ⟨more, others⟩⟩

theorem quoted_scan (fresh : Bool) (line : Nat) (text : List Char) : Quoted (scan fresh line text) := by
  fun_induction scan fresh line text with
  | case1 => simp [Quoted]
  | case2 _ _ _ c rest _ start _ _ _ ih =>
    refine List.forall_mem_cons.mpr ⟨fun kind => ?_, ih⟩
    obtain ⟨inner, chars⟩ := (lexeme_spec start c rest).2 kind
    refine ⟨String.ofList inner, String.toList_inj.mp ?_⟩
    simpa using chars

end Token

namespace Source

theorem names_nameText {t : Token} (quoted : t.kind = .quoted → ∃ text, t.text = "\"" ++ text ++ "\"")
    (name : t.kind = .symbol ∨ t.kind = .quoted) : t.Names (nameText t) := by
  rcases name with kind | kind
  · exact Or.inl ⟨kind, by simp [nameText, kind]⟩
  · obtain ⟨text, h⟩ := quoted kind
    have inner : nameText t = text := by
      apply String.toList_inj.mp
      simp [nameText, kind, h]
    exact Or.inr ⟨kind, by rw [inner, h]⟩

/-! ### Open lists -/

/-- The leaves at the head of a file's list. -/
def header (path : String) : List Node :=
  [.leaf {} Node.sourceTag, .leaf {} "cil", .leaf {} "1", .leaf {} path]

/-- The tokens are held by the open lists: the items of each are the expressions since the
parenthesis that opened it, and those of the file's list follow its header. -/
inductive Pending (path : String) : List Token → OpenList → List OpenList → Prop where
  | file {ts : List Token} {current : OpenList} (nodes : List Node) (position : current.position = {})
      (items : current.reversed = nodes.reverse ++ (header path).reverse)
      (forest : Forest ts (nodes.map Node.expression)) : Pending path ts current []
  | nested {before ts : List Token} {o : Token} {outer current : OpenList} {rest : List OpenList}
      (around : Pending path before outer rest) (opens : o.kind = .opening)
      (line : current.position.line = o.line)
      (forest : Forest ts (current.reversed.reverse.map Node.expression)) :
      Pending path (before ++ o :: ts) current (outer :: rest)

namespace Pending

variable {path : String} {ts us : List Token} {current outer : OpenList} {enclosing : List OpenList}

/-- Expressions that are read go to the current list. -/
theorem extend (pending : Pending path ts current enclosing) (nodes : List Node)
    (read : Forest us (nodes.map Node.expression)) :
    Pending path (ts ++ us) { current with reversed := nodes.reverse ++ current.reversed } enclosing := by
  cases pending with
  | file old position items forest =>
    refine .file (old ++ nodes) position ?_ ?_
    · simp [items]
    · rw [List.map_append]
      exact forest.append read
  | nested around opens line forest =>
    rw [List.append_assoc, List.cons_append]
    refine .nested around opens line ?_
    simpa using forest.append read

theorem silent (pending : Pending path ts current enclosing) {t : Token} (quiet : t.Silent) :
    Pending path (ts ++ [t]) current enclosing :=
  pending.extend [] (.silent quiet .nil)

theorem name (pending : Pending path ts current enclosing) {t : Token} {position : Position}
    {text : String} (line : position.line = t.line) (names : t.Names text) :
    Pending path (ts ++ [t]) (current.add (.leaf position text)) enclosing := by
  refine pending.extend [.leaf position text] ?_
  rw [List.map_singleton, Node.expression, line]
  exact .name names .nil

theorem opening (pending : Pending path ts current enclosing) {t : Token} (opens : t.kind = .opening)
    {position : Position} (line : position.line = t.line) (inside : Scope) :
    Pending path (ts ++ [t]) ⟨position, inside, []⟩ (current :: enclosing) :=
  .nested pending opens line .nil

/-- A list that is closed goes to the list around it. -/
theorem closing (pending : Pending path ts current (outer :: enclosing)) {t : Token}
    (closes : t.kind = .closing) : Pending path (ts ++ [t]) (outer.add current.close) enclosing := by
  cases pending with
  | nested around opens line forest =>
    rw [List.append_assoc, List.cons_append]
    refine around.extend [current.close] ?_
    rw [List.map_singleton, OpenList.close, Node.expression, Node.expressions_eq_map, line]
    exact .list opens closes forest .nil

end Pending

/-! ### Steps -/

/-- The state after the tokens, when none of them began a line mark. -/
structure Reads (path : String) (front : List Token) (s : State) : Prop where
  plain : s.mark = none
  unmarked : s.suspended = []
  parens : s.enclosing.length = s.parens
  depth : opened front = closed front + s.parens
  limit : s.parens ≤ maxDepth
  pending : Pending path front s.current s.enclosing

theorem reads_start (path : String) : Reads path [] (.start path) where
  plain := rfl
  unmarked := rfl
  parens := rfl
  depth := rfl
  limit := Nat.zero_le _
  pending := .file [] rfl rfl .nil

/-- The token may come next when so many parentheses are open. -/
def Allowed (depth : Nat) (t : Token) : Prop :=
  match t.kind with
  | .opening => depth < maxDepth
  | .closing | .symbol | .quoted => 0 < depth
  | .finish => depth = 0
  | .newline | .comment => True
  | .lineMark | .unknown => False

variable {path : String} {front : List Token} {s s' : State} {t : Token}

theorem Reads.step_eq (reads : Reads path front s) : s.step t = s.stepPlain t := by
  rw [State.step, reads.plain]

/-- A token is taken exactly when it may come next. -/
theorem Reads.step_iff (reads : Reads path front s) (unmarked : t.kind ≠ .lineMark) :
    (∃ s', s.step t = .ok s') ↔ Allowed s.parens t := by
  rw [reads.step_eq]
  simp only [State.stepPlain, Allowed]
  cases kind : t.kind with
  | opening | closing | symbol | quoted =>
    dsimp only
    split <;> simp <;> omega
  | finish =>
    dsimp only
    split
    · simp; omega
    · simp [reads.unmarked]; omega
  | comment | newline => simp
  | lineMark => exact absurd kind unmarked
  | unknown => simp

theorem opened_concat (front : List Token) (t : Token) :
    opened (front ++ [t]) = opened front + if t.kind = .opening then 1 else 0 := by
  simp [opened, List.countP_singleton]

theorem closed_concat (front : List Token) (t : Token) :
    closed (front ++ [t]) = closed front + if t.kind = .closing then 1 else 0 := by
  simp [closed, List.countP_singleton]

/-- A token that leaves the lists open as they are is read, if its expressions are added. -/
theorem Reads.keep (reads : Reads path front s) (opens : t.kind ≠ .opening) (closes : t.kind ≠ .closing)
    {current : OpenList} (pending : Pending path (front ++ [t]) current s.enclosing) :
    Reads path (front ++ [t]) { s with current } where
  plain := reads.plain
  unmarked := reads.unmarked
  parens := reads.parens
  depth := by
    rw [opened_concat, closed_concat, if_neg opens, if_neg closes]
    exact reads.depth
  limit := reads.limit
  pending := pending

theorem Reads.countLine (reads : Reads path front s) : Reads path front s.countLine := by
  rw [State.countLine]
  split
  · exact reads
  · exact ⟨reads.plain, reads.unmarked, reads.parens, reads.depth, reads.limit, reads.pending⟩

theorem Reads.silent (reads : Reads path front s) (quiet : t.Silent) : Reads path (front ++ [t]) s :=
  reads.keep quiet.ne_opening quiet.ne_closing (reads.pending.silent quiet)

/-- A name that is taken is read. -/
theorem Reads.addLeaf (reads : Reads path front s) (name : t.kind = .symbol ∨ t.kind = .quoted)
    (quoted : t.kind = .quoted → ∃ text, t.text = "\"" ++ text ++ "\"") :
    Reads path (front ++ [t]) (s.addLeaf t.line (nameText t)) := by
  have names := names_nameText quoted name
  exact reads.keep names.ne_opening names.ne_closing (reads.pending.name rfl names)

theorem Reads.openList (reads : Reads path front s) (opens : t.kind = .opening)
    (room : s.parens < maxDepth) :
    Reads path (front ++ [t]) { s.openList t.line with parens := s.parens + 1 } where
  plain := reads.plain
  unmarked := reads.unmarked
  parens := congrArg (· + 1) reads.parens
  depth := by
    rw [opened_concat, closed_concat, if_pos opens, if_neg (by simp [opens]), reads.depth]
    rfl
  limit := room
  pending := reads.pending.opening opens rfl _

theorem Reads.ascend (reads : Reads path front s) (closes : t.kind = .closing) (some : 0 < s.parens) :
    Reads path (front ++ [t]) { s.ascend with parens := s.parens - 1 } := by
  obtain ⟨plain, unmarked, parens, depth, limit, pending⟩ := reads
  rw [State.ascend]
  cases henclosing : s.enclosing with
  | nil =>
    rw [henclosing, List.length_nil] at parens
    omega
  | cons outer rest =>
    rw [henclosing] at parens pending
    refine ⟨plain, unmarked, ?_, ?_, Nat.le_trans (Nat.sub_le _ _) limit, pending.closing closes⟩
    · rw [← parens]
      rfl
    · rw [opened_concat, closed_concat, if_neg (by simp [closes]), if_pos closes]
      dsimp only
      omega

/-- A token that is taken is read. -/
theorem Reads.step (reads : Reads path front s) (unmarked : t.kind ≠ .lineMark)
    (quoted : t.kind = .quoted → ∃ text, t.text = "\"" ++ text ++ "\"") (run : s.step t = .ok s') :
    Reads path (front ++ [t]) s' := by
  rw [reads.step_eq, State.stepPlain] at run
  dsimp only at run
  split at run
  · rename_i kind
    exact absurd kind unmarked
  · rename_i kind
    split at run
    · cases run
    · rename_i room
      cases run
      exact reads.openList kind (Nat.lt_of_not_le room)
  · rename_i kind
    split at run
    · cases run
    · rename_i some
      cases run
      exact reads.ascend kind (Nat.pos_of_ne_zero some)
  · rename_i kind
    split at run
    · cases run
    · cases run
      exact reads.addLeaf (Or.inl kind) quoted
  · rename_i kind
    split at run
    · cases run
    · cases run
      exact reads.addLeaf (Or.inr kind) quoted
  · rename_i kind
    cases run
    exact reads.countLine.silent (Or.inl kind)
  · rename_i kind
    cases run
    exact reads.silent (Or.inr (Or.inl kind))
  · rename_i kind
    split at run
    · cases run
    · split at run
      · cases run
      · cases run
        exact reads.silent (Or.inr (Or.inr kind))
  · cases run

/-! ### Runs -/

variable {tokens rest : List Token}

theorem run_append : parseTokens path (front ++ rest) = .ok s ↔
    ∃ mid, parseTokens path front = .ok mid ∧ rest.foldlM State.step mid = .ok s := by
  rw [parseTokens, List.foldlM_append]
  exact bind_eq_ok

theorem run_concat : parseTokens path (front ++ [t]) = .ok s ↔
    ∃ mid, parseTokens path front = .ok mid ∧ mid.step t = .ok s := by
  simp [run_append]

/-- No token begins a line mark, and quoted ones stand in quotes. -/
def Plain (tokens : List Token) : Prop :=
  ∀ t ∈ tokens, t.kind ≠ .lineMark ∧ (t.kind = .quoted → ∃ text, t.text = "\"" ++ text ++ "\"")

theorem Plain.mono (plain : Plain tokens) (ahead : front <+: tokens) : Plain front :=
  fun t ht => plain t (ahead.subset ht)

/-- What is taken is read. -/
theorem reads_of_run (plain : Plain tokens) (run : parseTokens path tokens = .ok s) :
    Reads path tokens s := by
  induction tokens using List.reverseRecOn generalizing s with
  | nil =>
    cases run
    exact reads_start path
  | append_singleton front t ih =>
    obtain ⟨mid, first, last⟩ := run_concat.mp run
    have reads := ih (plain.mono (List.prefix_append front [t])) first
    obtain ⟨unmarked, quoted⟩ := plain t (List.mem_append_right front (List.mem_singleton_self t))
    exact reads.step unmarked quoted last

/-- What stands before the end of a text that is taken is taken, too. -/
theorem exists_reads (plain : Plain tokens) (run : parseTokens path tokens = .ok s)
    (ahead : front <+: tokens) : ∃ mid, parseTokens path front = .ok mid ∧ Reads path front mid := by
  have before := plain.mono ahead
  obtain ⟨rest, rfl⟩ := ahead
  obtain ⟨mid, first, _⟩ := run_append.mp run
  exact ⟨mid, first, reads_of_run before first⟩

/-- Each token of a text that is taken may come next after those before it. -/
theorem exists_allowed (plain : Plain tokens) (run : parseTokens path tokens = .ok s)
    (ahead : front ++ [t] <+: tokens) : ∃ mid, Reads path front mid ∧ Allowed mid.parens t := by
  have before := plain.mono ahead
  obtain ⟨after, first, _⟩ := exists_reads plain run ahead
  obtain ⟨mid, first, last⟩ := run_concat.mp first
  have reads := reads_of_run (before.mono (List.prefix_append front [t])) first
  have unmarked := (before t (List.mem_append_right front (List.mem_singleton_self t))).1
  exact ⟨mid, reads, (reads.step_iff unmarked).mp ⟨after, last⟩⟩

theorem wellNested_of_run (plain : Plain tokens) (ended : Ended tokens)
    (run : parseTokens path tokens = .ok s) : WellNested tokens where
  known t ht kind := by
    obtain ⟨front, rest, rfl⟩ := List.append_of_mem ht
    have ahead : front ++ [t] <+: front ++ t :: rest := ⟨rest, by simp⟩
    obtain ⟨_, _, allowed⟩ := exists_allowed plain run ahead
    simp [Allowed, kind] at allowed
  within front ahead := by
    obtain ⟨mid, _, reads⟩ := exists_reads plain run ahead
    have depth := reads.depth
    have limit := reads.limit
    omega
  balanced := by
    obtain ⟨body, last, rfl, kind, _⟩ := ended
    obtain ⟨mid, reads, allowed⟩ := exists_allowed plain run List.prefix_rfl
    have depth := reads.depth
    have none : mid.parens = 0 := by simpa [Allowed, kind] using allowed
    rw [opened_concat, closed_concat, if_neg (by simp [kind]), if_neg (by simp [kind])]
    omega
  inside front t ahead name := by
    obtain ⟨mid, reads, allowed⟩ := exists_allowed plain run ahead
    have depth := reads.depth
    have some : 0 < mid.parens := by
      rcases name with kind | kind <;> simpa [Allowed, kind] using allowed
    omega

/-- The end of a stream is reached with its last token only. -/
theorem eq_of_finish (ended : Ended tokens) (ahead : front ++ [t] <+: tokens)
    (kind : t.kind = .finish) : front ++ [t] = tokens := by
  obtain ⟨body, last, rfl, _, others⟩ := ended
  obtain ⟨rest, same⟩ := ahead
  cases rest using List.reverseRecOn with
  | nil => simpa using same
  | append_singleton rest x =>
    rw [← List.append_assoc] at same
    obtain ⟨same, _⟩ := List.append_inj' same rfl
    have member : t ∈ body := same ▸ by simp
    exact absurd kind (others t member)

/-- In a well nested text, each token may come next after those before it. -/
theorem allowed_of_wellNested (nested : WellNested tokens) (plain : Plain tokens) (ended : Ended tokens)
    (ahead : front ++ [t] <+: tokens) (reads : Reads path front s) : Allowed s.parens t := by
  have depth := reads.depth
  have member : t ∈ tokens := ahead.subset (by simp)
  obtain ⟨lower, upper⟩ := nested.within _ ahead
  have balanced := nested.balanced
  have inside := nested.inside front t ahead
  rw [opened_concat, closed_concat] at lower upper
  cases kind : t.kind with
  | opening =>
    simp [Allowed, kind] at upper ⊢
    omega
  | closing =>
    simp [Allowed, kind] at lower ⊢
    omega
  | symbol | quoted =>
    simp [Allowed, kind] at inside ⊢
    omega
  | finish =>
    have same := eq_of_finish ended ahead kind
    rw [← same, opened_concat, closed_concat] at balanced
    simp [Allowed, kind] at balanced ⊢
    omega
  | newline | comment => simp [Allowed, kind]
  | lineMark => exact absurd kind (plain t member).1
  | unknown => exact absurd kind (nested.known t member)

theorem exists_run (nested : WellNested tokens) (plain : Plain tokens) (ended : Ended tokens) :
    ∃ s, parseTokens path tokens = .ok s := by
  -- Each prefix is taken, since its last token may come next after the others.
  suffices each : ∀ front, front <+: tokens → ∃ s, parseTokens path front = .ok s from
    each tokens List.prefix_rfl
  intro front
  induction front using List.reverseRecOn with
  | nil => exact fun _ => ⟨_, rfl⟩
  | append_singleton front t ih =>
    intro ahead
    have before := plain.mono ahead
    obtain ⟨mid, first⟩ := ih ((List.prefix_append front [t]).trans ahead)
    have reads := reads_of_run (before.mono (List.prefix_append front [t])) first
    have unmarked := (before t (List.mem_append_right front (List.mem_singleton_self t))).1
    obtain ⟨after, last⟩ := (reads.step_iff unmarked).mpr (allowed_of_wellNested nested plain ended ahead reads)
    exact ⟨after, run_concat.mpr ⟨mid, first, last⟩⟩

/-- The list of a file that is taken has its header, then the reading of the tokens. -/
theorem exists_nodes (plain : Plain tokens) (ended : Ended tokens) (run : parseTokens path tokens = .ok s) :
    ∃ nodes, s.close = .list {} (header path ++ nodes) ∧
      Forest tokens (nodes.map Node.expression) := by
  have balanced := (wellNested_of_run plain ended run).balanced
  obtain ⟨_, _, parens, depth, _, pending⟩ := reads_of_run plain run
  have none : s.enclosing = [] := by
    apply List.length_eq_zero_iff.mp
    omega
  rw [none] at pending
  cases pending with
  | file nodes position items forest =>
    refine ⟨nodes, ?_, forest⟩
    rw [State.close, none, List.foldl_nil, OpenList.close, position, items]
    simp

end Source

/-! ### Files -/

/-- A text without line marks is accepted exactly when its tokens are well nested. Then the list
of its file has, after the header, nodes whose expressions are the only reading of the tokens. -/
theorem ParseTree.accepts_wellNested (tree : ParseTree) (path source : String)
    (unmarked : ∀ t ∈ tokenize source, t.kind ≠ .lineMark) :
    ((tree.add path source).2 = none ↔ WellNested (tokenize source)) ∧
      ((tree.add path source).2 = none → ∃ nodes,
        (tree.add path source).1.files = tree.files ++ [.list {} (Source.header path ++ nodes)] ∧
        ∀ es, Forest (tokenize source) es ↔ es = nodes.map Node.expression) := by
  have ended : Ended (tokenize source) := ended_scan true 1 source.toList
  have quoted : Quoted (tokenize source) := quoted_scan true 1 source.toList
  have plain : Source.Plain (tokenize source) := fun t ht => ⟨unmarked t ht, quoted t ht⟩
  rw [add]
  cases run : Source.parseTokens path (tokenize source) with
  | error r =>
    refine ⟨iff_of_false (by simp) fun nested => ?_, by simp⟩
    obtain ⟨s, taken⟩ := Source.exists_run nested plain ended
    cases run.symm.trans taken
  | ok s =>
    refine ⟨iff_of_true rfl (Source.wellNested_of_run plain ended run), fun _ => ?_⟩
    obtain ⟨nodes, closed, forest⟩ := Source.exists_nodes plain ended run
    refine ⟨nodes, congrArg (tree.files ++ [·]) closed, fun es => ⟨fun other => other.unique forest, ?_⟩⟩
    rintro rfl
    exact forest

/-- A text with a comment at its end, and one in which a parenthesis is left open. -/
theorem wellNested_small :
    (∀ t ∈ tokenize "(a \"b\" (c)) ; d", t.kind ≠ .lineMark) ∧
      (∀ t ∈ tokenize "(a (b)", t.kind ≠ .lineMark) ∧
      WellNested (tokenize "(a \"b\" (c)) ; d") ∧ ¬ WellNested (tokenize "(a (b)") ∧
      ∃ nodes, (({} : ParseTree).add "small" "(a \"b\" (c)) ; d").1.files =
          [.list {} (Source.header "small" ++ nodes)] ∧
        ∀ es, Forest (tokenize "(a \"b\" (c)) ; d") es ↔ es = nodes.map Node.expression := by
  have unmarked : ∀ t ∈ tokenize "(a \"b\" (c)) ; d", t.kind ≠ .lineMark := by decide +kernel
  have unmarked' : ∀ t ∈ tokenize "(a (b)", t.kind ≠ .lineMark := by decide +kernel
  have taken : (({} : ParseTree).add "small" "(a \"b\" (c)) ; d").2 = none := by decide +kernel
  have refused : (({} : ParseTree).add "small" "(a (b)").2 ≠ none := by decide +kernel
  obtain ⟨accepts, reading⟩ := ParseTree.accepts_wellNested {} "small" _ unmarked
  obtain ⟨rejects, _⟩ := ParseTree.accepts_wellNested {} "small" _ unmarked'
  exact ⟨unmarked, unmarked', accepts.mp taken, fun nested => refused (rejects.mpr nested), reading taken⟩

end CilPolicy
