import CilPolicy.Compiler
import CilPolicy.Proofs.Report

/-!
# Calls after a refused source

What could be read of a source that is refused stays in the parse tree and is built with the
sources around it. All later calls are answered as if the refused call had not been made exactly
when no statement is built from what stayed, or when the sources before it do not build
themselves.
-/

namespace CilPolicy

/-- A call to a compiler. -/
inductive Call where
  | addSource (path source : String)
  | check
  | compile

/-- The answer to a call, with the messages it leaves. -/
inductive Reply where
  | added (outcome : Except Diagnostic Unit × List Message)
  | checked (outcome : Except Diagnostic Settings × List Message)
  | compiled (outcome : Except Diagnostic CompiledPolicy × List Message)

/-- The tree of a text, as far as it can be read. -/
def Source.read (path source : String) : Node :=
  match parseTokens path (Token.tokenize source) with
  | .ok s => s.close
  | .error r => r.state.close

namespace ParseTree

variable {t t' : ParseTree} {path source : String} {q : Bool}

theorem add_files (t : ParseTree) (path source : String) :
    (t.add path source).1.files = t.files ++ [Source.read path source] := by
  rw [add, Source.read]
  cases Source.parseTokens path (Token.tokenize source) <;> rfl

/-- Whether a source is refused does not depend on the sources before it. -/
theorem add_fault (t t' : ParseTree) (path source : String) :
    (t.add path source).2 = (t'.add path source).2 := by
  rw [add, add]
  cases Source.parseTokens path (Token.tokenize source) <;> rfl

theorem parse_outcome (t t' : ParseTree) (path source : String) :
    (t.parse path source).1 = (t'.parse path source).1 := by
  simp only [parse, t.add_fault t']

/-- The sources are built one after the other, and the first that has a fault ends it. -/
theorem statements_append (before after : List Node) (q : Bool) :
    statements ⟨before ++ after⟩ q = (do
      let first ← statements ⟨before⟩ q
      let others ← statements ⟨after⟩ q
      return first ++ others) := by
  simp only [statements, List.mapM_append]
  cases before.mapM (Statement.ofSource q) with
  | error d => rfl
  | ok first =>
    cases after.mapM (Statement.ofSource q) with
    | error d => rfl
    | ok others => exact congrArg Except.ok List.flatten_append

theorem statements_cons (n : Node) (after : List Node) (q : Bool) :
    statements ⟨n :: after⟩ q = (do
      let first ← Statement.ofSource q n
      let others ← statements ⟨after⟩ q
      return first ++ others) := by
  simp only [statements, List.mapM_cons]
  cases Statement.ofSource q n with
  | error d => rfl
  | ok first =>
    cases after.mapM (Statement.ofSource q) with
    | error d => rfl
    | ok others => rfl

end ParseTree

/-- A statement that fits no database lets no list of statements through. -/
theorem Database.ofStatements_error {s : Statement} {statements : List Statement} (hs : s ∈ statements)
    (unfit : ∀ db db', Database.resolveStatement db s ≠ .ok db') (repeats : Bool) :
    ∃ d, Database.ofStatements repeats statements = .error d := by
  cases run : Database.ofStatements repeats statements with
  | error d => exact ⟨d, rfl⟩
  | ok db =>
    obtain ⟨declared, _, run⟩ := bind_eq_ok.mp run
    obtain ⟨bound, _, run⟩ := bind_eq_ok.mp run
    obtain ⟨ready, _, run⟩ := bind_eq_ok.mp run
    obtain ⟨front, rest, rfl⟩ := List.append_of_mem hs
    rw [List.foldlM_append] at run
    obtain ⟨mid, _, run⟩ := bind_eq_ok.mp run
    rw [List.foldlM_cons] at run
    obtain ⟨after, here, _⟩ := bind_eq_ok.mp run
    exact absurd here (unfit mid after)

namespace Compiler

def call (c : Compiler) : Call → Reply × Compiler
  | .addSource path source =>
    let (outcome, after) := c.addSource path source
    (.added outcome, after)
  | .check => (.checked c.check.outcome, c)
  | .compile => (.compiled c.compile.outcome, c)

/-- The answers to calls that are made one after the other. -/
def replies (c : Compiler) : List Call → List Reply
  | [] => []
  | call :: calls => (c.call call).1 :: (c.call call).2.replies calls

/-- The statements of all sources. -/
def statements (c : Compiler) : Except Diagnostic (List Statement) :=
  c.tree.statements c.options.qualifiedNames

variable {c c' : Compiler} {before : List Node} {left : Node} {path source : String} {d : Diagnostic}

/-! ### What a call keeps -/

theorem addSource_files (c : Compiler) (path source : String) :
    (c.addSource path source).2.tree.files = c.tree.files ++ [Source.read path source] :=
  c.tree.add_files path source

/-- A source is built behind those before it. -/
theorem addSource_statements (c : Compiler) (path source : String) :
    (c.addSource path source).2.statements = (do
      let before ← c.statements
      let others ← Statement.ofSource c.options.qualifiedNames (Source.read path source)
      return before ++ others) := by
  have files : (c.addSource path source).2.tree = ⟨c.tree.files ++ [Source.read path source]⟩ :=
    congrArg ParseTree.mk (c.addSource_files path source)
  rw [statements, files, ParseTree.statements_append, ParseTree.statements_cons]
  change (do
    let before ← c.statements
    let others ← (do
      let first ← Statement.ofSource c.options.qualifiedNames (Source.read path source)
      let others ← ParseTree.statements ⟨[]⟩ c.options.qualifiedNames
      return first ++ others)
    return before ++ others) = _
  cases c.statements with
  | error d => rfl
  | ok before =>
    cases Statement.ofSource c.options.qualifiedNames (Source.read path source) with
    | error d => rfl
    | ok others => exact congrArg Except.ok (congrArg (before ++ ·) (List.append_nil others))

theorem addSource_outcome (c c' : Compiler) (path source : String) :
    (c.addSource path source).1 = (c'.addSource path source).1 :=
  c.tree.parse_outcome c'.tree path source

/-- A source is counted when it is accepted. -/
def counted : Except Diagnostic Unit → Nat
  | .ok () => 1
  | .error _ => 0

theorem addSource_counted (c : Compiler) (path source : String) :
    (c.addSource path source).2.sources = c.sources + counted (c.addSource path source).1.1 :=
  rfl

/-- Whether a source counts does not depend on the sources before it. -/
theorem addSource_sources (c : Compiler) (path source : String) :
    (c.addSource path source).2.sources = c.sources + (({} : Compiler).addSource path source).2.sources := by
  rw [addSource_counted, addSource_counted {}, addSource_outcome c {}]
  exact congrArg (c.sources + ·) (Nat.zero_add _).symm

/-- The compilers differ in one tree only, which the second has behind those of `before`. -/
structure Trails (before : List Node) (left : Node) (c c' : Compiler) : Prop where
  options : c'.options = c.options
  sources : c'.sources = c.sources
  files : ∃ after, c.tree.files = before ++ after ∧ c'.tree.files = before ++ left :: after

/-- A source that is refused leaves its tree behind. -/
theorem trails_of_refused (refused : (c.addSource path source).1.1 = .error d) :
    Trails c.tree.files (Source.read path source) c (c.addSource path source).2 where
  options := rfl
  sources := by
    rw [addSource_counted, refused]
    rfl
  files := ⟨[], (List.append_nil _).symm, c.addSource_files path source⟩

theorem Trails.addSource (trails : Trails before left c c') (path source : String) :
    Trails before left (c.addSource path source).2 (c'.addSource path source).2 where
  options := trails.options
  sources := by
    rw [addSource_sources, trails.sources, ← addSource_sources]
  files := by
    obtain ⟨after, files, files'⟩ := trails.files
    refine ⟨after ++ [Source.read path source], ?_, ?_⟩
    · rw [addSource_files, files, List.append_assoc]
    · rw [addSource_files, files', List.append_assoc, List.cons_append]

/-- Every call keeps the difference as it is. -/
theorem Trails.call (trails : Trails before left c c') (call : Call) :
    Trails before left (c.call call).2 (c'.call call).2 := by
  cases call with
  | addSource path source => exact trails.addSource path source
  | check => exact trails
  | compile => exact trails

/-! ### A tree that is not seen -/

/-- The tree adds nothing behind the sources: it has no statements, or these have a fault. -/
def Unseen (q : Bool) (before : List Node) (left : Node) : Prop :=
  (∃ d, ParseTree.statements ⟨before⟩ q = .error d) ∨ Statement.ofSource q left = .ok []

theorem Trails.statements_eq (trails : Trails before left c c')
    (unseen : Unseen c.options.qualifiedNames before left) : c'.statements = c.statements := by
  obtain ⟨after, files, files'⟩ := trails.files
  have split : c.tree = ⟨before ++ after⟩ := congrArg ParseTree.mk files
  have split' : c'.tree = ⟨before ++ left :: after⟩ := congrArg ParseTree.mk files'
  rw [statements, statements, trails.options, split, split', ParseTree.statements_append,
    ParseTree.statements_append]
  rcases unseen with ⟨d, fault⟩ | silent
  · rw [fault]
    rfl
  · rw [ParseTree.statements_cons, silent]
    cases ParseTree.statements ⟨after⟩ c.options.qualifiedNames <;> rfl

theorem lower_congr (options : c'.options = c.options) (sources : c'.sources = c.sources)
    (same : c'.statements = c.statements) : c'.lower = c.lower := by
  rw [statements, statements, options] at same
  simp only [lower, ParseTree.build, options, sources, same]

theorem Trails.reply_eq (trails : Trails before left c c')
    (unseen : Unseen c.options.qualifiedNames before left) (call : Call) :
    (c'.call call).1 = (c.call call).1 := by
  have lowered := lower_congr trails.options trails.sources (trails.statements_eq unseen)
  cases call with
  | addSource path source => exact congrArg Reply.added (addSource_outcome c' c path source)
  | check => simp only [Compiler.call, check, lowered]
  | compile => simp only [Compiler.call, compile, lowered]

theorem call_options (c : Compiler) (call : Call) : (c.call call).2.options = c.options := by
  cases call <;> rfl

/-- Compilers that differ in a tree that is not seen give the same answers. -/
theorem Trails.replies_eq (trails : Trails before left c c')
    (unseen : Unseen c.options.qualifiedNames before left) (calls : List Call) :
    c'.replies calls = c.replies calls := by
  induction calls generalizing c c' with
  | nil => rfl
  | cons call calls ih =>
    rw [replies, replies, trails.reply_eq unseen call]
    rw [← c.call_options call] at unseen
    rw [ih (trails.call call) unseen]

/-! ### A tree that is seen -/

theorem check_messages_of_error (added : c.sources ≠ 0) (fault : c.statements = .error d) :
    c.check.outcome.2 = [⟨.info, "Building AST from Parse Tree"⟩] := by
  rw [statements] at fault
  simp only [check, lower, if_neg added, ParseTree.build, fault]
  rfl

/-- Where the statements of the sources do not resolve, the messages tell how many there are. -/
theorem check_messages_of_unresolved {ss : List Statement} (added : c.sources ≠ 0)
    (built : c.statements = .ok ss) (fault : Database.ofStatements c.options.multipleDecls ss = .error d) :
    c.check.outcome.2 = [⟨.info, "Building AST from Parse Tree"⟩,
      ⟨.info, s!"Built {ss.length} statements"⟩, ⟨.info, "Resolving AST"⟩] := by
  have build : c.tree.build c.options.qualifiedNames =
      (do Report.info s!"Built {ss.length} statements"; return ss) := by
    rw [statements] at built
    rw [ParseTree.build, built]
    rfl
  have resolve : Database.resolve c.options.multipleDecls ss = throw d := by
    rw [Database.resolve, fault]
    rfl
  simp only [check, lower, if_neg added, build, bind_assoc, pure_bind, resolve]
  rfl

theorem built_message_inj {m n : Nat} (same : s!"Built {m} statements" = s!"Built {n} statements") :
    m = n := by
  have texts := congrArg String.toList same
  simp only [String.toList_append, List.append_assoc, List.append_cancel_left_eq,
    List.append_cancel_right_eq] at texts
  have digits : Nat.toDigits 10 m = Nat.toDigits 10 n := by
    rw [← Nat.toList_repr, ← Nat.toList_repr]
    exact texts
  rw [← @Nat.ofDigitChars_ten_toDigits m, digits, Nat.ofDigitChars_ten_toDigits]

/-- A source whose only statement fits no database, since its prefix is no address. -/
def spoiler : String := "(ibpkeycon prefix 1 context)"

/-- The list is such a statement alone. -/
def isSpoiler : List Statement → Bool
  | [.plain _ (.partitionKey text _ _)] => (IpAddress.parseV6? text).isNone
  | _ => false

theorem unfit_of_isSpoiler {ss : List Statement} (spoils : isSpoiler ss = true) :
    ∃ s, ss = [s] ∧ ∀ db db', Database.resolveStatement db s ≠ .ok db' := by
  unfold isSpoiler at spoils
  split at spoils
  · rename_i location text keys context
    refine ⟨_, rfl, fun db db' run => ?_⟩
    have none := Option.isNone_iff_eq_none.mp spoils
    change Database.resolveLabel db (.partitionKey text keys context) _ = .ok db' at run
    unfold Database.resolveLabel at run
    simp only [none] at run
    cases run
  · cases spoils

theorem spoiler_built (q : Bool) : ∃ s, Statement.ofSource q (Source.read "" spoiler) = .ok [s] ∧
    ∀ db db', Database.resolveStatement db s ≠ .ok db' := by
  have built : (Statement.ofSource q (Source.read "" spoiler)).toOption.any isSpoiler = true := by
    cases q <;> decide +kernel
  cases run : Statement.ofSource q (Source.read "" spoiler) with
  | error d =>
    rw [run] at built
    cases built
  | ok ss =>
    rw [run] at built
    obtain ⟨s, rfl, unfit⟩ := unfit_of_isSpoiler built
    exact ⟨s, rfl, unfit⟩

theorem spoiler_counts (c : Compiler) : (c.addSource "" spoiler).2.sources ≠ 0 := by
  have counts : (({} : Compiler).addSource "" spoiler).2.sources = 1 := by decide +kernel
  rw [addSource_sources, counts]
  exact Nat.succ_ne_zero c.sources

/-- The messages of a check behind the spoiler tell how many statements stand before it. -/
theorem check_spoiled {ss : List Statement} (built : c.statements = .ok ss) :
    (c.addSource "" spoiler).2.check.outcome.2 = [⟨.info, "Building AST from Parse Tree"⟩,
      ⟨.info, s!"Built {ss.length + 1} statements"⟩, ⟨.info, "Resolving AST"⟩] := by
  obtain ⟨s, single, unfit⟩ := spoiler_built c.options.qualifiedNames
  have all : (c.addSource "" spoiler).2.statements = .ok (ss ++ [s]) := by
    rw [addSource_statements, built, single]
    rfl
  obtain ⟨d, fault⟩ := Database.ofStatements_error (List.mem_append_right ss List.mem_cons_self) unfit
    c.options.multipleDecls
  have messages := check_messages_of_unresolved c.spoiler_counts all fault
  rwa [List.length_append] at messages

theorem check_spoiled_of_error (fault : c.statements = .error d) :
    (c.addSource "" spoiler).2.check.outcome.2 = [⟨.info, "Building AST from Parse Tree"⟩] := by
  refine check_messages_of_error (d := d) c.spoiler_counts ?_
  rw [addSource_statements, fault]
  rfl

/-- A tree that is seen shows in the answers to a check behind the spoiler. -/
theorem unseen_of_replies_eq
    (same : (c.addSource path source).2.replies [.addSource "" spoiler, .check] =
      c.replies [.addSource "" spoiler, .check]) :
    Unseen c.options.qualifiedNames c.tree.files (Source.read path source) := by
  have checks : ((c.addSource path source).2.addSource "" spoiler).2.check.outcome.2 =
      (c.addSource "" spoiler).2.check.outcome.2 := by
    have checked := (List.cons.inj (List.cons.inj same).2).1
    exact congrArg Prod.snd (Reply.checked.inj checked)
  have more := c.addSource_statements path source
  cases built : c.statements with
  | error d => exact Or.inl ⟨d, built⟩
  | ok ss =>
    right
    rw [built] at more
    rw [check_spoiled built] at checks
    cases left : Statement.ofSource c.options.qualifiedNames (Source.read path source) with
    | error d =>
      rw [left] at more
      rw [check_spoiled_of_error more] at checks
      cases checks
    | ok ts =>
      rw [left] at more
      rw [check_spoiled more] at checks
      have texts := congrArg Message.text (List.cons.inj (List.cons.inj checks).2).1
      have lengths := built_message_inj texts
      have none : ts.length = 0 := by
        rw [List.length_append] at lengths
        omega
      rw [List.eq_nil_of_length_eq_zero none]

/-- After a refused source, every later sequence of calls is answered as if the refused call had
not been made, exactly when the tree that it left behind is not seen. -/
theorem replies_after_refused_iff (refused : (c.addSource path source).1.1 = .error d) :
    (∀ calls, (c.addSource path source).2.replies calls = c.replies calls) ↔
      Unseen c.options.qualifiedNames c.tree.files (Source.read path source) := by
  constructor
  · intro same
    exact unseen_of_replies_eq (same _)
  · intro unseen calls
    exact (trails_of_refused refused).replies_eq unseen calls

/-- A type that stands before a parenthesis which closes nothing stays in the tree. -/
theorem stray_close_seen : ∃ calls,
    (({} : Compiler).addSource "policy.cil" "(type a))").2.replies calls ≠ ({} : Compiler).replies calls := by
  have fails : (({} : Compiler).addSource "policy.cil" "(type a))").1.1.toBool = false := by
    decide +kernel
  have left : (Statement.ofSource false (Source.read "policy.cil" "(type a))")).toOption.any
      (fun statements => !statements.isEmpty) = true := by
    decide +kernel
  refine Classical.byContradiction fun none => ?_
  have same : ∀ calls, (({} : Compiler).addSource "policy.cil" "(type a))").2.replies calls =
      ({} : Compiler).replies calls :=
    fun calls => Classical.byContradiction fun differ => none ⟨calls, differ⟩
  cases refused : (({} : Compiler).addSource "policy.cil" "(type a))").1.1 with
  | ok _ =>
    rw [refused] at fails
    cases fails
  | error d =>
    rcases (replies_after_refused_iff refused).mp same with ⟨d, fault⟩ | silent
    · cases fault
    · have silent' : Statement.ofSource false (Source.read "policy.cil" "(type a))") = .ok [] := silent
      rw [silent'] at left
      cases left

end Compiler

end CilPolicy
