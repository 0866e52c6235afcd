import CilPolicy.Proofs.Source.Parse
import CilPolicy.Statement.Build
import Mathlib.Data.List.Forall2

/-!
# The lists that become statements

Every list of a text that stands outside all others becomes one statement, in the order of the
text, unless it begins with the name that marks the regions of line marks. Such a list is taken
for a region, whoever wrote it: its first four items are skipped, and statements are built of the
others in its place.
-/

namespace CilPolicy

open Token

namespace Node

mutual

/-- What statements are built of where the node stands: the node itself or, of a list that is
taken for a region, what stands in it behind the fourth item. -/
def spread : Node → List Node
  | leaf p value => [leaf p value]
  | list p items =>
    if (list p items).isSource then
      match items with
      | _ :: _ :: _ :: _ :: inside => spreadAll inside
      | _ => []
    else [list p items]

/-- What statements are built of where the nodes stand, in order. -/
def spreadAll : List Node → List Node
  | [] => []
  | n :: ns => n.spread ++ spreadAll ns

end

theorem spreadAll_append (ns ms : List Node) : spreadAll (ns ++ ms) = spreadAll ns ++ spreadAll ms := by
  induction ns with
  | nil => rfl
  | cons n ns ih => rw [List.cons_append, spreadAll, spreadAll, ih, List.append_assoc]

theorem spread_of_not_isSource {n : Node} (own : n.isSource = false) : n.spread = [n] := by
  cases n with
  | leaf p value => rw [spread]
  | list p items =>
    rw [spread.eq_def]
    exact if_neg (by simp [own])

theorem spreadAll_of_not_isSource {ns : List Node} (own : ∀ n ∈ ns, n.isSource = false) :
    spreadAll ns = ns := by
  induction ns with
  | nil => rw [spreadAll]
  | cons n ns ih =>
    obtain ⟨first, others⟩ := List.forall_mem_cons.mp own
    rw [spreadAll, spread_of_not_isSource first, ih others, List.singleton_append]

end Node

theorem mapM_eq_ok_iff {α β ε : Type} {f : α → Except ε β} {items : List α} {results : List β} :
    items.mapM f = .ok results ↔ List.Forall₂ (fun a b => f a = .ok b) items results := by
  induction items generalizing results with
  | nil =>
    rw [List.mapM_nil, List.forall₂_nil_left_iff]
    exact ⟨fun same => (Except.ok.inj same).symm, fun same => same ▸ rfl⟩
  | cons a rest ih =>
    simp only [List.mapM_cons, bind_eq_ok, ih, List.forall₂_cons_left_iff]
    constructor
    · rintro ⟨b, first, others, tail, done⟩
      exact ⟨b, others, first, tail, (Except.ok.inj done).symm⟩
    · rintro ⟨b, others, first, tail, rfl⟩
      exact ⟨b, first, others, tail, rfl⟩

namespace Statement

/-- The statement is built of the node, and stands where the node does. -/
structure BuiltOf (qualified : Bool) (n : Node) (s : Statement) : Prop where
  built : ofNode qualified n = .ok s
  location : s.location = n.location

variable {qualified : Bool} {n : Node} {s : Statement}

theorem location_of_ofNode (built : ofNode qualified n = .ok s) : s.location = n.location := by
  match n, built with
  | .leaf _ _, built => cases built
  | .list p [], built => cases built
  | .list p (.list _ _ :: _), built => cases built
  | .list p (.leaf _ keyword :: args), built =>
    rw [ofNode] at built
    dsimp only [Node.value?] at built
    split at built
    · split at built
      · split at built
        · obtain ⟨condition, _, built⟩ := bind_eq_ok.mp built
          obtain ⟨arms, _, done⟩ := bind_eq_ok.mp built
          cases done
          rfl
        · cases built
      · cases built
    · obtain ⟨clause, _, rfl⟩ := map_eq_ok.mp built
      rfl

theorem builtOf_iff : BuiltOf qualified n s ↔ ofNode qualified n = .ok s :=
  ⟨BuiltOf.built, fun built => ⟨built, location_of_ofNode built⟩⟩

/-- No statement has the name that marks regions for its keyword. -/
theorem BuiltOf.not_isSource (statement : BuiltOf qualified n s) : n.isSource = false := by
  by_contra source
  rw [Bool.not_eq_false] at source
  match n, statement.built with
  | .leaf _ _, _ => cases source
  | .list p [], _ => cases source
  | .list p (.list _ _ :: _), _ => cases source
  | .list p (.leaf _ keyword :: args), built =>
    have tag : keyword = Node.sourceTag := by
      simpa [Node.isSource, Node.items, Node.value?] using source
    subst tag
    cases built

mutual

theorem ofSource_eq (qualified : Bool) : ∀ n : Node, n.isSource = true →
    ofSource qualified n = n.spread.mapM (ofNode qualified)
  | .leaf _ _, source => by cases source
  | .list p items, source => by
    rw [Node.spread.eq_def]
    dsimp only
    rw [if_pos source]
    match items with
    | _ :: _ :: _ :: _ :: inside => exact ofRegion_eq qualified inside
    | [] | [_] | [_, _] | [_, _, _] => rfl

theorem ofRegion_eq (qualified : Bool) : ∀ ns : List Node,
    ofRegion qualified ns = (Node.spreadAll ns).mapM (ofNode qualified)
  | [] => by rw [ofRegion, Node.spreadAll, List.mapM_nil]; rfl
  | n :: ns => by
    rw [ofRegion, Node.spreadAll, List.mapM_append, ofRegion_eq qualified ns]
    cases source : n.isSource with
    | true => rw [if_pos rfl, ofSource_eq qualified n source]
    | false =>
      rw [if_neg Bool.false_ne_true, Node.spread_of_not_isSource source, List.mapM_cons,
        List.mapM_nil]
      simp

end

end Statement

/-! ### Files -/

namespace ParseTree

/-- The lists of a text are the one reading of its tokens. -/
def Reads (source : String) (lists : List Node) : Prop :=
  ∀ es, Forest (tokenize source) es ↔ es = lists.map Node.expression

/-- The tree of a file that holds the lists. -/
def fileNode (path : String) (lists : List Node) : Node :=
  .list {} (Source.header path ++ lists)

variable {files : List (String × String)} {t tree : ParseTree} {path source : String}

theorem add_of_parse (parsed : (t.parse path source).1.1 = .ok ()) : (t.add path source).2 = none := by
  rw [parse] at parsed
  cases taken : t.add path source with
  | mk tree fault =>
    rw [taken] at parsed
    cases fault with
    | none => rfl
    | some fault => cases parsed

/-- A step that adds to the tree the lists of one file, taken for each of the files. -/
theorem exists_lists_of_foldlM {step : ParseTree → String × String → Report ParseTree}
    (adds : ∀ t file tree, file ∈ files → (step t file).Yields tree → ∃ lists,
      tree.files = t.files ++ [fileNode file.1 lists] ∧ Reads file.2 lists)
    (run : (files.foldlM step t).Yields tree) : ∃ lists : List (List Node),
      tree.files = t.files ++ List.zipWith (fun file => fileNode file.1) files lists ∧
      List.Forall₂ (fun file => Reads file.2) files lists := by
  induction files generalizing t with
  | nil =>
    cases Report.yields_pure run
    exact ⟨[], (List.append_nil _).symm, .nil⟩
  | cons file rest ih =>
    rw [List.foldlM_cons] at run
    obtain ⟨mid, first, run⟩ := Report.yields_bind run
    obtain ⟨lists, added, reads⟩ := adds t file mid List.mem_cons_self first
    obtain ⟨others, grown, readings⟩ := ih (fun t file tree member =>
      adds t file tree (List.mem_cons_of_mem _ member)) run
    exact ⟨lists :: others, by simp [grown, added], .cons reads readings⟩

/-- Where no text has a line mark, each file that is accepted adds its lists. -/
theorem exists_lists (unmarked : ∀ file ∈ files, ∀ token ∈ tokenize file.2, token.kind ≠ .lineMark)
    (parsed : (parseAll files).Yields tree) : ∃ lists : List (List Node),
      tree.files = List.zipWith (fun file => fileNode file.1) files lists ∧
      List.Forall₂ (fun file => Reads file.2) files lists := by
  refine exists_lists_of_foldlM (t := {}) (fun t file tree member step => ?_) parsed
  obtain ⟨path, source⟩ := file
  obtain ⟨_, _, step⟩ := Report.yields_bind step
  split at step
  · rename_i done
    cases Report.yields_pure step
    exact (t.accepts_wellNested path source (unmarked _ member)).2 (add_of_parse done)
  · exact absurd step Report.not_yields_throw

/-- The statements of the files are those of what their lists spread to. -/
theorem statements_zipWith {lists : List (List Node)} (same : files.length = lists.length)
    (qualified : Bool) :
    (ParseTree.mk (List.zipWith (fun file => fileNode file.1) files lists)).statements qualified =
      (Node.spreadAll lists.flatten).mapM (Statement.ofNode qualified) := by
  induction files generalizing lists with
  | nil =>
    cases lists with
    | nil => rfl
    | cons _ _ => cases same
  | cons file rest ih =>
    cases lists with
    | nil => cases same
    | cons nodes others =>
      have more := ih (Nat.succ.inj same)
      rw [statements] at more ⊢
      have first : Statement.ofSource qualified (fileNode file.1 nodes) =
        Statement.ofRegion qualified nodes := rfl
      rw [List.zipWith_cons_cons, List.mapM_cons, first, List.flatten_cons, Node.spreadAll_append,
        List.mapM_append, ← more, Statement.ofRegion_eq]
      simp

/-- Texts without line marks that are accepted have their lists, and the statements that are built
are those of what the lists spread to. Each list has its own statement, in order, exactly when no
list begins with the name that marks regions. -/
theorem statements_of_lists (qualified : Bool) {statements : List Statement}
    (unmarked : ∀ file ∈ files, ∀ token ∈ tokenize file.2, token.kind ≠ .lineMark)
    (parsed : (parseAll files).outcome.1 = .ok tree)
    (built : (tree.build qualified).outcome.1 = .ok statements) : ∃ lists : List (List Node),
      tree.files = List.zipWith (fun file => fileNode file.1) files lists ∧
      List.Forall₂ (fun file => Reads file.2) files lists ∧
      List.Forall₂ (Statement.BuiltOf qualified) (Node.spreadAll lists.flatten) statements ∧
      (List.Forall₂ (Statement.BuiltOf qualified) lists.flatten statements ↔
        ∀ n ∈ lists.flatten, n.isSource = false) := by
  obtain ⟨lists, held, reads⟩ := exists_lists unmarked (Report.yields_of_outcome parsed)
  have run : tree.statements qualified = .ok statements := by
    obtain ⟨found, lifted, noted⟩ := Report.yields_bind (Report.yields_of_outcome built)
    obtain ⟨_, _, done⟩ := Report.yields_bind noted
    cases Report.yields_pure done
    exact Report.yields_lift lifted
  have spread : List.Forall₂ (Statement.BuiltOf qualified) (Node.spreadAll lists.flatten)
      statements := by
    obtain ⟨files'⟩ := tree
    cases held
    rw [statements_zipWith reads.length_eq, mapM_eq_ok_iff] at run
    exact run.imp fun n s => Statement.builtOf_iff.mpr
  refine ⟨lists, held, reads, spread, fun each => ?_, fun own => ?_⟩
  · have tagless := each.imp fun n s statement => And.intro statement.not_isSource statement
    exact ((List.forall₂_and_left _ _).mp tagless).1
  · rwa [Node.spreadAll_of_not_isSource own] at spread

/-- A text whose second list begins with the name that marks regions, which its writer may use as
any other. The list has no fifth item, so nothing is built of it. -/
theorem marked_list_dropped :
    let files := [("p.cil", "(type a)\n(<src_info> (type b))\n(type c)\n")]
    (∀ file ∈ files, ∀ token ∈ tokenize file.2, token.kind ≠ .lineMark) ∧
      ∃ tree statements, (parseAll files).outcome.1 = .ok tree ∧
        (tree.build false).outcome.1 = .ok statements ∧
        ∃ lists : List (List Node), List.Forall₂ (fun file => Reads file.2) files lists ∧
          lists.flatten.length = 3 ∧ statements.length = 2 ∧
          ¬ List.Forall₂ (Statement.BuiltOf false) lists.flatten statements := by
  intro files
  have unmarked : ∀ file ∈ files, ∀ token ∈ tokenize file.2, token.kind ≠ .lineMark := by
    decide +kernel
  have run : ((parseAll files).outcome.1.toOption.bind fun tree =>
      (tree.build false).outcome.1.toOption.map fun statements =>
        (tree.files.map fun n => n.items.length - 4, statements.length)) = some ([3], 2) := by
    decide +kernel
  obtain ⟨tree, parsed, run⟩ := Option.bind_eq_some_iff.mp run
  obtain ⟨statements, built, run⟩ := Option.map_eq_some_iff.mp run
  obtain ⟨three, two⟩ := Prod.mk.inj run
  rw [toOption_eq_some_iff] at parsed built
  obtain ⟨lists, held, reads, _, _⟩ := statements_of_lists false unmarked parsed built
  have length : lists.flatten.length = 3 := by
    obtain ⟨only, rfl⟩ := List.length_eq_one_iff.mp reads.length_eq.symm
    rw [held] at three
    simpa [fileNode, Node.items, Source.header, files] using three
  refine ⟨unmarked, tree, statements, parsed, built, lists, reads, length, two, fun each => ?_⟩
  have same := each.length_eq
  omega

end ParseTree

end CilPolicy
