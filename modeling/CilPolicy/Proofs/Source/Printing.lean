import CilPolicy.Proofs.Source.Tokens

/-!
# Parsing what has been printed

A forest of lists can be printed in many ways: its leaves bare or in quotes, with blanks, line breaks
and comments between the tokens. The parser gives the forest back from each of them. What a scan
takes of a printed part depends on the text behind the part only in that no symbol goes on there,
so the parts of a text are scanned one by one.
-/

namespace CilPolicy

/-- A tree of names without positions. -/
inductive Sexp where
  | leaf (value : String)
  | list (items : List Sexp)

mutual

/-- Greatest number of lists around a place in the tree. -/
def Sexp.depth : Sexp → Nat
  | .leaf _ => 0
  | .list items => depths items + 1

def Sexp.depths : List Sexp → Nat
  | [] => 0
  | s :: ss => max s.depth (depths ss)

end

mutual

/-- The expression without its lines. -/
def Expression.sexp : Expression → Sexp
  | .name _ text => .leaf text
  | .list _ items => .list (sexps items)

def Expression.sexps : List Expression → List Sexp
  | [] => []
  | e :: es => e.sexp :: sexps es

end

/-! ### Printed text -/

/-- What stands between two tokens: blanks, line breaks and comments. -/
inductive Gap : List Char → Prop where
  | nil : Gap []
  | blank {c : Char} {rest : List Char} (blank : c = ' ' ∨ c = '\t' ∨ c = '\n') (more : Gap rest) : Gap (c :: rest)
  | comment {text rest : List Char} (inline : ∀ c ∈ text, c ≠ '\n' ∧ c ≠ '\r') (more : Gap rest) :
      Gap (' ' :: ';' :: text ++ '\n' :: rest)

/-- The leaf is printed as it is or in quotes. -/
inductive PrintedLeaf (value : String) : List Char → Prop where
  | bare (some : value ≠ "") (symbol : ∀ c ∈ value.toList, Token.isSymbolChar c) : PrintedLeaf value value.toList
  | quoted (plain : ∀ c ∈ value.toList, c ≠ '"' ∧ c ≠ '\n' ∧ c ≠ '\x00') :
      PrintedLeaf value ('"' :: value.toList ++ ['"'])

/-- The text is the forest, with gaps around its parts. A gap may be empty, unless the parts on both
of its sides are leaves; `apart` says that a leaf stands before the text. -/
inductive Printed : (apart : Bool) → List Sexp → List Char → Prop where
  | nil {apart : Bool} {gap : List Char} (between : Gap gap) : Printed apart [] gap
  | leaf {apart : Bool} {gap text rest : List Char} {value : String} {ss : List Sexp} (between : Gap gap)
      (wide : apart → gap ≠ []) (printed : PrintedLeaf value text) (more : Printed true ss rest) :
      Printed apart (.leaf value :: ss) (gap ++ text ++ rest)
  | list {apart : Bool} {gap inner rest : List Char} {items ss : List Sexp} (between : Gap gap)
      (inside : Printed false items inner) (more : Printed false ss rest) :
      Printed apart (.list items :: ss) (gap ++ '(' :: inner ++ ')' :: rest)

namespace Token

/-! ### Scans of parts -/

section Scan

variable {fresh : Bool} {line : Nat} {c : Char} {rest : List Char}

theorem scan_blank (blank : isBlank c) : scan fresh line (c :: rest) = scan false line rest := by
  rw [scan.eq_def, scan.eq_def false line rest, List.dropWhile_cons_of_pos blank, List.takeWhile_cons_of_pos blank,
    List.isEmpty_cons, Bool.and_false, Bool.false_and]

theorem scan_cons (start : isBlank c = false) {l : Lexeme} (read : lexeme fresh c rest = l) :
    scan fresh line (c :: rest) =
      ⟨l.kind, String.ofList l.chars, if l.kind == .newline then line + 1 else line⟩ ::
        scan (l.kind == .newline) (if l.kind == .newline then line + 1 else line) l.rest := by
  subst read
  have neg : ¬ isBlank c = true := by simp [start]
  rw [scan.eq_def]
  split
  · rename_i done
    rw [List.dropWhile_cons_of_neg neg] at done
    cases done
  · rename_i first more found
    rw [List.dropWhile_cons_of_neg neg] at found
    cases found
    rw [List.takeWhile_cons_of_neg neg, List.isEmpty_nil, Bool.and_true]

end Scan

theorem takeWhile_append_eq {p : Char → Bool} {a b : List Char} (all : ∀ c ∈ a, p c)
    (stops : ∀ c ∈ b.head?, p c = false) : (a ++ b).takeWhile p = a ∧ (a ++ b).dropWhile p = b := by
  rw [List.takeWhile_append_of_pos all, List.dropWhile_append_of_pos all]
  cases b with
  | nil => simp
  | cons c b => simp [stops c rfl]

/-- Whatever stands before it, the text is scanned into tokens that are read as the forest, when the
rest follows. -/
def Takes (text rest : List Char) (forest : List Sexp) : Prop :=
  ∀ fresh line, ∃ ts es fresh' line', scan fresh line (text ++ rest) = ts ++ scan fresh' line' rest ∧
    Forest ts es ∧ Expression.sexps es = forest ∧ ∀ t ∈ ts, t.kind ≠ .lineMark ∧ t.kind ≠ .finish

theorem sexps_append (es fs : List Expression) :
    Expression.sexps (es ++ fs) = Expression.sexps es ++ Expression.sexps fs := by
  induction es with
  | nil => rfl
  | cons e es ih => exact congrArg (e.sexp :: ·) ih

namespace Takes

variable {a b rest : List Char} {ss us : List Sexp}

theorem nil (rest : List Char) : Takes [] rest [] :=
  fun fresh line => ⟨[], [], fresh, line, rfl, .nil, rfl, by simp⟩

theorem append (first : Takes a (b ++ rest) ss) (second : Takes b rest us) : Takes (a ++ b) rest (ss ++ us) := by
  intro fresh line
  obtain ⟨ts, es, fresh, line, scanned, forest, shape, kinds⟩ := first fresh line
  obtain ⟨ts', es', fresh', line', scanned', forest', shape', kinds'⟩ := second fresh line
  refine ⟨ts ++ ts', es ++ es', fresh', line', ?_, forest.append forest', ?_,
    List.forall_mem_append.mpr ⟨kinds, kinds'⟩⟩
  · rw [List.append_assoc, scanned, scanned', List.append_assoc]
  · rw [sexps_append, shape, shape']

theorem blank {c : Char} (blank : isBlank c) : Takes [c] rest [] :=
  fun _ line => ⟨[], [], false, line, scan_blank blank, .nil, rfl, by simp⟩

theorem newline (rest : List Char) : Takes ['\n'] rest [] :=
  fun _ line => ⟨[⟨.newline, "\n", line + 1⟩], [], true, line + 1, scan_cons rfl rfl,
    .silent (Or.inl rfl) .nil, rfl, by simp⟩

/-- A comment after a blank is never a line mark. -/
theorem comment {text : List Char} (inline : ∀ c ∈ text, c ≠ '\n' ∧ c ≠ '\r') :
    Takes (' ' :: ';' :: text) ('\n' :: rest) [] := by
  intro fresh line
  have goes : ∀ c ∈ text, !isBreak c := fun c hc => by simpa [isBreak] using inline c hc
  obtain ⟨taken, left⟩ := takeWhile_append_eq goes (b := '\n' :: rest) (by simp [isBreak])
  have read : lexeme false ';' (text ++ '\n' :: rest) = ⟨.comment, ';' :: (text ++ '\n' :: rest).takeWhile (!isBreak ·),
      (text ++ '\n' :: rest).dropWhile (!isBreak ·)⟩ := rfl
  rw [taken, left] at read
  refine ⟨[⟨.comment, String.ofList (';' :: text), line⟩], [], false, line, ?_, .silent (Or.inr (Or.inl rfl)) .nil,
    rfl, by simp⟩
  rw [List.cons_append, List.cons_append, scan_blank rfl, scan_cons rfl read]
  rfl

theorem bare {value : String} (some : value ≠ "") (symbol : ∀ c ∈ value.toList, isSymbolChar c)
    (stops : ∀ c ∈ rest.head?, isSymbolChar c = false) : Takes value.toList rest [.leaf value] := by
  intro fresh line
  obtain ⟨c, more, chars⟩ := List.exists_cons_of_ne_nil (by simpa using some : value.toList ≠ [])
  obtain ⟨first, others⟩ := List.forall_mem_cons.mp (chars ▸ symbol)
  obtain ⟨taken, left⟩ := takeWhile_append_eq others stops
  have other : c ∉ ['\r', '\n', '(', ')', ';', '"'] := by
    intro mem
    have special : ∀ x ∈ ['\r', '\n', '(', ')', ';', '"'], !isSymbolChar x := List.all_eq_true.mp (by decide)
    simpa [first] using special c mem
  have start : isBlank c = false := by
    refine Bool.eq_false_iff.mpr fun blank => ?_
    rcases isBlank_iff.mp blank with rfl | rfl <;> exact absurd first (by decide)
  have read : lexeme fresh c (more ++ rest) = ⟨.symbol, c :: more, rest⟩ := by
    rw [lexeme_other fresh _ other, if_pos first, taken, left]
  refine ⟨[⟨.symbol, value, line⟩], [.name line value], false, line, ?_, .name (Or.inl ⟨rfl, rfl⟩) .nil, rfl, by simp⟩
  rw [chars, List.cons_append, scan_cons start read, ← chars, String.ofList_toList]
  rfl

theorem quoted {value : String} (plain : ∀ c ∈ value.toList, c ≠ '"' ∧ c ≠ '\n' ∧ c ≠ '\x00') :
    Takes ('"' :: value.toList ++ ['"']) rest [.leaf value] := by
  intro fresh line
  have quotable : ∀ c ∈ value.toList, isQuotable c := fun c hc => by simpa [isQuotable, and_assoc] using plain c hc
  obtain ⟨taken, left⟩ := takeWhile_append_eq quotable (b := '"' :: rest) (by simp [isQuotable])
  have read := lexeme_quoted fresh left
  rw [taken] at read
  refine ⟨[⟨.quoted, "\"" ++ value ++ "\"", line⟩], [.name line value], false, line, ?_,
    .name (Or.inr ⟨rfl, rfl⟩) .nil, rfl, by simp⟩
  have text : String.ofList ('"' :: value.toList ++ ['"']) = "\"" ++ value ++ "\"" := by
    apply String.toList_inj.mp
    simp
  rw [List.append_assoc, List.cons_append, List.singleton_append, scan_cons rfl read, text]
  rfl

theorem list (inside : Takes a (')' :: rest) ss) : Takes ('(' :: a ++ [')']) rest [.list ss] := by
  intro fresh line
  obtain ⟨ts, es, fresh', line', scanned, forest, shape, kinds⟩ := inside false line
  have closing : scan fresh' line' (')' :: rest) = ⟨.closing, ")", line'⟩ :: scan false line' rest := scan_cons rfl rfl
  have opening : scan fresh line ('(' :: (a ++ ')' :: rest)) =
      ⟨.opening, "(", line⟩ :: scan false line (a ++ ')' :: rest) := scan_cons rfl rfl
  refine ⟨⟨.opening, "(", line⟩ :: (ts ++ [⟨.closing, ")", line'⟩]), [.list line es], false, line', ?_,
    .list rfl rfl forest .nil, congrArg (fun x => [Sexp.list x]) shape, ?_⟩
  · rw [List.append_assoc, List.cons_append, List.singleton_append, opening, scanned, closing]
    simp
  · simpa [or_imp, forall_and] using kinds

theorem gap {g : List Char} (gap : Gap g) (rest : List Char) : Takes g rest [] := by
  induction gap with
  | nil => exact nil rest
  | @blank c more kind _ ih =>
    have first : Takes [c] (more ++ rest) [] := by
      rcases kind with rfl | rfl | rfl
      · exact blank rfl
      · exact blank rfl
      · exact newline _
    exact first.append ih
  | @comment text more inline _ ih =>
    have note : Takes (' ' :: ';' :: text) ('\n' :: more ++ rest) [] := comment inline
    exact note.append (append (newline (more ++ rest)) ih)

end Takes

/-- No symbol goes on at a gap that is not empty. -/
theorem stops_of_gap {g : List Char} (gap : Gap g) (some : g ≠ []) (rest : List Char) :
    ∀ c ∈ (g ++ rest).head?, isSymbolChar c = false := by
  intro c hc
  cases gap with
  | nil => exact absurd rfl some
  | blank kind _ =>
    cases hc
    rcases kind with rfl | rfl | rfl <;> rfl
  | comment =>
    cases hc
    rfl

/-- Behind a leaf, printed text begins with no character of a symbol. -/
theorem stops_of_printed {ss : List Sexp} {text rest : List Char} (printed : Printed true ss text)
    (stops : ∀ c ∈ rest.head?, isSymbolChar c = false) :
    ∀ c ∈ (text ++ rest).head?, isSymbolChar c = false := by
  cases printed with
  | nil between =>
    by_cases some : text = []
    · rwa [some]
    · exact stops_of_gap between some rest
  | @leaf _ gap _ _ _ _ between wide _ _ =>
    rw [List.append_assoc, List.append_assoc]
    exact stops_of_gap between (wide rfl) _
  | @list _ gap _ _ _ _ between _ _ =>
    rw [List.append_assoc, List.append_assoc]
    by_cases some : gap = []
    · subst some
      intro c hc
      cases hc
      rfl
    · exact stops_of_gap between some _

theorem Takes.leaf {value : String} {text rest : List Char} (leaf : PrintedLeaf value text)
    (stops : ∀ c ∈ rest.head?, isSymbolChar c = false) : Takes text rest [.leaf value] := by
  cases leaf with
  | bare some symbol => exact .bare some symbol stops
  | quoted plain => exact .quoted plain

theorem takes_printed {apart : Bool} {ss : List Sexp} {text : List Char} (printed : Printed apart ss text) :
    ∀ rest : List Char, (∀ c ∈ rest.head?, isSymbolChar c = false) → Takes text rest ss := by
  induction printed with
  | nil between => exact fun rest _ => .gap between rest
  | leaf between _ leaf more ih =>
    intro rest stops
    have itself := Takes.leaf leaf (stops_of_printed more stops)
    have parts := (Takes.gap between _).append (itself.append (ih rest stops))
    rwa [List.append_assoc]
  | @list _ _ inner more _ _ between _ _ ihInside ihMore =>
    intro rest stops
    have inside := ihInside (')' :: (more ++ rest)) (by rintro c ⟨⟩; rfl)
    have parts := (Takes.gap between _).append ((Takes.list inside).append (ihMore rest stops))
    simpa using parts

end Token

namespace Source

variable {path : String} {front ts : List Token} {es : List Expression} {s : State}

/-! ### Runs over a reading -/

/-- A token that may come next is taken, and the parentheses that are open are as it leaves them. -/
theorem Reads.exists_step (reads : Reads path front s) {t : Token} (allowed : Allowed s.parens t)
    (unmarked : t.kind ≠ .lineMark) (quoted : t.kind = .quoted → ∃ text, t.text = "\"" ++ text ++ "\"") :
    ∃ s', s.step t = .ok s' ∧ Reads path (front ++ [t]) s' ∧
      s'.parens + (if t.kind = .closing then 1 else 0) = s.parens + if t.kind = .opening then 1 else 0 := by
  obtain ⟨s', step⟩ := (reads.step_iff unmarked).mpr allowed
  have after := reads.step unmarked quoted step
  have depth := after.depth
  rw [opened_concat, closed_concat, reads.depth] at depth
  exact ⟨s', step, after, by omega⟩

/-- Tokens that are read as expressions are taken, where enough parentheses may still be opened and
names stand within one. -/
theorem Reads.exists_run (forest : Forest ts es) : ∀ {front : List Token} {s : State}, Reads path front s →
    Plain ts → (∀ t ∈ ts, t.kind ≠ .finish) → s.parens + Sexp.depths (Expression.sexps es) ≤ maxDepth →
    (0 < s.parens ∨ ∀ e ∈ Expression.sexps es, ∃ items, e = .list items) →
    ∃ s', ts.foldlM State.step s = .ok s' ∧ Reads path (front ++ ts) s' ∧ s'.parens = s.parens := by
  induction forest with
  | nil => exact fun {_ s} reads _ _ _ _ => ⟨s, rfl, by simpa using reads, rfl⟩
  | @silent t rest es quiet more ih =>
    intro front s reads plain going room inside
    obtain ⟨⟨unmarked, quoted⟩, plain⟩ := List.forall_mem_cons.mp plain
    obtain ⟨unfinished, going⟩ := List.forall_mem_cons.mp going
    have allowed : Allowed s.parens t := by
      rcases quiet with kind | kind | kind
      · simp [Allowed, kind]
      · simp [Allowed, kind]
      · exact absurd kind unfinished
    obtain ⟨mid, step, reads, parens⟩ := reads.exists_step allowed unmarked quoted
    rw [if_neg quiet.ne_closing, if_neg quiet.ne_opening] at parens
    simp only [Nat.add_zero] at parens
    obtain ⟨s', run, reads, same⟩ := ih reads plain going (parens ▸ room) (parens ▸ inside)
    refine ⟨s', ?_, by simpa using reads, same.trans parens⟩
    rw [List.foldlM_cons, step]
    exact run
  | @name t text rest es names more ih =>
    intro front s reads plain going room inside
    obtain ⟨⟨unmarked, quoted⟩, plain⟩ := List.forall_mem_cons.mp plain
    have some : 0 < s.parens := by
      rcases inside with some | lists
      · exact some
      · obtain ⟨items, leaf⟩ := lists (.leaf text) List.mem_cons_self
        cases leaf
    have allowed : Allowed s.parens t := by
      rcases names with ⟨kind, _⟩ | ⟨kind, _⟩ <;> simpa [Allowed, kind] using some
    obtain ⟨mid, step, reads, parens⟩ := reads.exists_step allowed unmarked quoted
    rw [if_neg names.ne_closing, if_neg names.ne_opening] at parens
    simp only [Nat.add_zero] at parens
    have room : mid.parens + Sexp.depths (Expression.sexps es) ≤ maxDepth := by
      rw [Expression.sexps, Sexp.depths] at room
      omega
    obtain ⟨s', run, reads, same⟩ := ih reads plain (List.forall_mem_cons.mp going).2 room (Or.inl (by omega))
    refine ⟨s', ?_, by simpa using reads, same.trans parens⟩
    rw [List.foldlM_cons, step]
    exact run
  | @list o c inner rest items es opens closes inside more ihInside ihMore =>
    intro front s reads plain going room within
    obtain ⟨⟨unmarked, quoted⟩, plain⟩ := List.forall_mem_cons.mp plain
    obtain ⟨plainInside, plain⟩ := List.forall_mem_append.mp plain
    obtain ⟨⟨unmarked', quoted'⟩, plain⟩ := List.forall_mem_cons.mp plain
    obtain ⟨goingInside, going⟩ := List.forall_mem_append.mp (List.forall_mem_cons.mp going).2
    rw [Expression.sexps, Sexp.depths, Expression.sexp, Sexp.depth] at room
    have allowed : Allowed s.parens o := by
      simp only [Allowed, opens]
      omega
    obtain ⟨first, step, reads, parens⟩ := reads.exists_step allowed unmarked quoted
    simp only [opens, reduceCtorEq, if_false, if_true, Nat.add_zero] at parens
    obtain ⟨second, run, reads, same⟩ := ihInside reads plainInside goingInside (by omega) (Or.inl (by omega))
    have allowed' : Allowed second.parens c := by
      simp only [Allowed, closes]
      omega
    obtain ⟨third, step', reads, parens'⟩ := reads.exists_step allowed' unmarked' quoted'
    simp only [closes, reduceCtorEq, if_false, if_true, Nat.add_zero] at parens'
    have back : third.parens = s.parens := by omega
    have within : 0 < third.parens ∨ ∀ e ∈ Expression.sexps es, ∃ items, e = .list items :=
      back ▸ within.imp_right fun lists e he => lists e (List.mem_cons_of_mem _ he)
    obtain ⟨s', run', reads, same'⟩ := ihMore reads plain (List.forall_mem_cons.mp going).2 (by omega) within
    refine ⟨s', ?_, by simpa using reads, same'.trans back⟩
    rw [List.foldlM_cons, step, bind_eq_ok]
    refine ⟨first, rfl, ?_⟩
    rw [List.foldlM_append, run, bind_eq_ok]
    refine ⟨second, rfl, ?_⟩
    rw [List.foldlM_cons, step']
    exact run'

end Source

/-- A forest of lists that is printed in whatever way is read back from the text: the file is accepted,
and behind its header stand nodes of the same shape. -/
theorem ParseTree.add_printed (tree : ParseTree) (path source : String) {forest : List Sexp}
    (lists : ∀ e ∈ forest, ∃ items, e = .list items) (depth : Sexp.depths forest ≤ maxDepth)
    (printed : Printed false forest source.toList) :
    (tree.add path source).2 = none ∧ ∃ nodes,
      (tree.add path source).1.files = tree.files ++ [.list {} (Source.header path ++ nodes)] ∧
      Expression.sexps (nodes.map Node.expression) = forest := by
  obtain ⟨ts, es, fresh, line, scanned, read, rfl, kinds⟩ := Token.takes_printed printed [] (by simp) true 1
  have tokens : Token.tokenize source = ts ++ [⟨.finish, "", line⟩] := by
    rw [List.append_nil] at scanned
    rw [Token.tokenize, scanned, Token.scan.eq_def]
    rfl
  have quoted : Quoted (Token.tokenize source) := Token.quoted_scan true 1 source.toList
  have plain : Source.Plain (Token.tokenize source) := by
    refine fun t ht => ⟨?_, quoted t ht⟩
    rw [tokens] at ht
    rcases List.mem_append.mp ht with ht | ht
    · exact (kinds t ht).1
    · simp [List.mem_singleton.mp ht]
  obtain ⟨plainText, plainEnd⟩ := List.forall_mem_append.mp (tokens ▸ plain)
  obtain ⟨unmarked, unquoted⟩ := plainEnd _ (List.mem_singleton_self _)
  obtain ⟨mid, run, reads, parens⟩ := Source.Reads.exists_run read (Source.reads_start path) plainText
    (fun t ht => (kinds t ht).2) (by simpa [Source.State.start] using depth) (Or.inr lists)
  obtain ⟨s, step, _, _⟩ := reads.exists_step (t := ⟨.finish, "", line⟩) parens unmarked unquoted
  have taken : Source.parseTokens path (Token.tokenize source) = .ok s := by
    rw [tokens]
    exact Source.run_concat.mpr ⟨mid, run, step⟩
  obtain ⟨nodes, closed, forest⟩ := Source.exists_nodes plain (Token.ended_scan true 1 source.toList) taken
  have whole : Forest (Token.tokenize source) es := by
    rw [tokens, ← List.append_nil es]
    exact read.append (.silent (Or.inr (Or.inr rfl)) .nil)
  rw [add, taken]
  exact ⟨rfl, nodes, congrArg (tree.files ++ [·]) closed, congrArg Expression.sexps (forest.unique whole)⟩

/-- Bare, quoted and empty leaves, with a comment that holds a parenthesis and a quote. -/
theorem ParseTree.add_printed_small :
    (∀ e ∈ [Sexp.list [.leaf "a", .leaf "é;(", .list [], .leaf "", .leaf "x"]], ∃ items, e = .list items) ∧
      Sexp.depths [.list [.leaf "a", .leaf "é;(", .list [], .leaf "", .leaf "x"]] ≤ maxDepth ∧
      Printed false [.list [.leaf "a", .leaf "é;(", .list [], .leaf "", .leaf "x"]]
        "(a \"é;(\"() ;)\"\n\"\" x)".toList ∧
      (({} : ParseTree).add "small" "(a \"é;(\"() ;)\"\n\"\" x)").2 = none ∧ ∃ nodes,
        (({} : ParseTree).add "small" "(a \"é;(\"() ;)\"\n\"\" x)").1.files =
          [.list {} (Source.header "small" ++ nodes)] ∧
        Expression.sexps (nodes.map Node.expression) =
          [.list [.leaf "a", .leaf "é;(", .list [], .leaf "", .leaf "x"]] := by
  have lists : ∀ e ∈ [Sexp.list [.leaf "a", .leaf "é;(", .list [], .leaf "", .leaf "x"]], ∃ items, e = .list items :=
    List.forall_mem_singleton.mpr ⟨_, rfl⟩
  have depth : Sexp.depths [.list [.leaf "a", .leaf "é;(", .list [], .leaf "", .leaf "x"]] ≤ maxDepth := by decide
  have blank : Gap [' '] := .blank (Or.inl rfl) .nil
  have note : Gap [' ', ';', ')', '"', '\n'] := .comment (by simp : ∀ c ∈ [')', '"'], c ≠ '\n' ∧ c ≠ '\r') .nil
  have tail : Printed false [.leaf "", .leaf "x"] [' ', ';', ')', '"', '\n', '"', '"', ' ', 'x'] :=
    .leaf note (by simp) (.quoted (by simp))
      (.leaf blank (by simp) (.bare (by decide) (List.all_eq_true.mp (by decide))) (.nil .nil))
  have head : Printed false [.leaf "a", .leaf "é;(", .list [], .leaf "", .leaf "x"]
      ['a', ' ', '"', 'é', ';', '(', '"', '(', ')', ' ', ';', ')', '"', '\n', '"', '"', ' ', 'x'] :=
    .leaf .nil (by simp) (.bare (by decide) (List.all_eq_true.mp (by decide)))
      (.leaf blank (by simp) (.quoted (by simp)) (.list .nil (.nil .nil) tail))
  have printed : Printed false [.list [.leaf "a", .leaf "é;(", .list [], .leaf "", .leaf "x"]]
      "(a \"é;(\"() ;)\"\n\"\" x)".toList := by
    rw [String.toList_ofList]
    exact .list .nil head (.nil .nil)
  obtain ⟨taken, nodes, files, shape⟩ := ParseTree.add_printed {} "small" _ lists depth printed
  exact ⟨lists, depth, printed, taken, nodes, files, shape⟩

end CilPolicy
