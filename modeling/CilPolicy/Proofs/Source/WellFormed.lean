import CilPolicy.Proofs.Source.Reader
import Mathlib.Data.List.Nodup

/-!
# Trees that stay well formed

However files are read, and whether or not they are accepted, the tree has one record for each node, its links are
those of a tree whose nodes are numbered in the order in which they were read, and it says what the rows of the parse
trees say. A file that is read changes nothing for the nodes that are there, and its rounds stay in its list.
-/

namespace CilPolicy

open Node Source

namespace Node

/-! ### How many children the rows say -/

/-- How many of the rows are those of children of the node. -/
def childCount (p : Nat) (rows : List Row) : Nat :=
  rows.countP fun row => row.parent = some p

theorem childCount_append (p : Nat) (rows others : List Row) :
    childCount p (rows ++ others) = childCount p rows + childCount p others :=
  List.countP_append

theorem childCount_cons (p : Nat) (row : Row) (rows : List Row) :
    childCount p (row :: rows) = childCount p rows + if row.parent = some p then 1 else 0 := by
  rw [childCount, List.countP_cons, childCount]
  simp only [decide_eq_true_eq]

theorem childCount_eq_zero {p : Nat} {rows : List Row} (none : ∀ row ∈ rows, row.parent ≠ some p) :
    childCount p rows = 0 := by
  rw [childCount, List.countP_eq_zero]
  intro row mem
  simpa using none row mem

mutual

theorem le_parent_rows (parent index : Nat) : ∀ (n : Node), ∀ row ∈ n.rows parent index,
    row.parent = some parent ∨ ∃ q, row.parent = some q ∧ index ≤ q
  | leaf _ _, row, mem => by
    cases List.mem_singleton.mp mem
    exact Or.inl rfl
  | list _ items, row, mem => by
    rcases List.mem_cons.mp mem with rfl | below
    · exact Or.inl rfl
    · rcases le_parent_rowsAll index (index + 1) items row below with own | ⟨q, above, le⟩
      · exact Or.inr ⟨index, own, Nat.le_refl _⟩
      · exact Or.inr ⟨q, above, by omega⟩

theorem le_parent_rowsAll (parent index : Nat) : ∀ (ns : List Node), ∀ row ∈ rowsAll parent index ns,
    row.parent = some parent ∨ ∃ q, row.parent = some q ∧ index ≤ q
  | n :: ns, row, mem => by
    rw [rowsAll] at mem
    rcases List.mem_append.mp mem with first | others
    · exact le_parent_rows parent index n row first
    · rcases le_parent_rowsAll parent (index + n.size) ns row others with own | ⟨q, above, le⟩
      · exact Or.inl own
      · exact Or.inr ⟨q, above, by omega⟩

end

/-- A list counts as one child, whatever is below it. -/
theorem childCount_rows_parent {parent index : Nat} (less : parent < index) (n : Node) :
    childCount parent (n.rows parent index) = 1 := by
  cases n with
  | leaf p v => simp [rows, childCount]
  | list p items =>
    have below : childCount parent (rowsAll index (index + 1) items) = 0 := by
      refine childCount_eq_zero fun row mem own => ?_
      rcases le_parent_rowsAll index (index + 1) items row mem with above | ⟨q, above, le⟩
      · cases own.symm.trans above
        exact Nat.lt_irrefl _ less
      · cases own.symm.trans above
        omega
    rw [rows, childCount_cons, below, if_pos rfl]

theorem childCount_rowsAll_parent {parent index : Nat} (less : parent < index) (ns : List Node) :
    childCount parent (rowsAll parent index ns) = ns.length := by
  induction ns generalizing index with
  | nil => rfl
  | cons n ns ih =>
    rw [rowsAll, childCount_append, childCount_rows_parent less, ih (Nat.lt_add_right _ less), List.length_cons,
      Nat.add_comm]

/-- Nodes after the last row are no parents. -/
theorem childCount_rows_after {parent index p : Nat} (less : parent < index) (n : Node) (after : index + n.size ≤ p) :
    childCount p (n.rows parent index) = 0 := by
  refine childCount_eq_zero fun row mem own => ?_
  obtain ⟨k, found⟩ := List.getElem?_of_mem mem
  obtain ⟨q, above, before⟩ := parent_lt_rows less n k row found
  cases own.symm.trans above
  have inside := (List.getElem?_eq_some_iff.mp found).1
  rw [length_rows] at inside
  omega

mutual

theorem childCount_rows {parent index : Nat} (less : parent < index) : ∀ (n : Node) (k : Nat) (row : Row),
    (n.rows parent index)[k]? = some row → childCount (index + k) (n.rows parent index) = row.children
  | leaf _ _, 0, _, rfl => by
    rw [rows, childCount_cons, if_neg (by simpa using Nat.ne_of_lt less)]
    rfl
  | list _ items, 0, _, rfl => by
    rw [rows, childCount_cons, if_neg (by simpa using Nat.ne_of_lt less)]
    exact childCount_rowsAll_parent (Nat.lt_succ_self index) items
  | list _ items, k + 1, row, found => by
    have below := childCount_rowsAll (Nat.lt_succ_self index) items k row found
    rw [rows, childCount_cons, if_neg (by simp; omega)]
    rwa [show index.succ + k = index + (k + 1) by omega] at below

theorem childCount_rowsAll {parent index : Nat} (less : parent < index) : ∀ (ns : List Node) (k : Nat) (row : Row),
    (rowsAll parent index ns)[k]? = some row → childCount (index + k) (rowsAll parent index ns) = row.children
  | n :: ns, k, row, found => by
    rw [rowsAll] at found
    rw [rowsAll, childCount_append]
    by_cases first : k < (n.rows parent index).length
    · rw [List.getElem?_append_left first] at found
      have others : childCount (index + k) (rowsAll parent (index + n.size) ns) = 0 := by
        refine childCount_eq_zero fun row mem own => ?_
        rw [length_rows] at first
        rcases le_parent_rowsAll parent (index + n.size) ns row mem with above | ⟨q, above, le⟩
        · cases own.symm.trans above
          omega
        · cases own.symm.trans above
          omega
      rw [childCount_rows less n k row found, others]
      rfl
    · rw [List.getElem?_append_right (Nat.le_of_not_lt first)] at found
      rw [length_rows] at first found
      have rest := childCount_rowsAll (Nat.lt_add_right n.size less) ns _ row found
      rw [show index + n.size + (k - n.size) = index + k by omega] at rest
      rw [childCount_rows_after less n (by omega), rest, Nat.zero_add]

end

end Node

namespace ParseTree

/-- The rows say of every node how many rows are those of its children. -/
theorem childCount_rows {t : ParseTree} {k : Nat} {row : Row} (found : t.rows[k]? = some row) :
    childCount k t.rows = row.children := by
  rw [rows] at found ⊢
  rw [childCount_cons, if_neg (by simp)]
  cases k with
  | zero =>
    cases found
    exact childCount_rowsAll_parent Nat.zero_lt_one t.files
  | succ k =>
    have below := childCount_rowsAll Nat.zero_lt_one t.files k row found
    rwa [Nat.add_comm 1 k] at below

/-- The trees of a sequence of files, accepted or not. -/
def addAll (files : List (String × String)) : ParseTree :=
  files.foldl (fun t file => (t.add file.1 file.2).1) {}

end ParseTree

/-! ### Trees that hold the same nodes -/

section Range

variable {α : Type} {f : Nat → Bool} {g : α → Bool}

theorem length_filter_range {l : List α} (same : ∀ k a, l[k]? = some a → f k = g a) :
    ((List.range l.length).filter f).length = l.countP g := by
  induction l generalizing f with
  | nil => rfl
  | cons a l ih =>
    have first : f 0 = g a := same 0 a rfl
    have others := ih (f := f ∘ Nat.succ) fun k b found => same (k + 1) b found
    rw [List.length_cons, List.range_succ_eq_map, List.filter_cons, List.filter_map, List.countP_cons, first,
      ← others]
    cases g a <;> simp

end Range

/-- The reader and the tokens left to it after some rounds, if there are so many. -/
def Reader.after? : Nat → Reader → List Token → Option (Reader × List Token)
  | 0, r, tokens => some (r, tokens)
  | n + 1, r, tokens =>
    match r.round tokens with
    | .ok (.next r rest) => after? n r rest
    | _ => none

namespace LinkedTree

/-- All nodes of the parse tree are linked, and a file can be added. -/
structure Holds (t : LinkedTree) (p : ParseTree) : Prop where
  shows : t.Shows (p.rows.map Row.place)
  inside : t.sources.Inside 0 ⟨none, []⟩

/-- Each node has one record, every node but the root is once among the children of a node before it, and
children are met in the order of their numbers. -/
structure WellFormed (t : LinkedTree) : Prop where
  recorded : t.sources.nodes.size = t.arena.size
  root : ∃ c : Cell, t.arena.cells[0]? = some c ∧ c.parent = none
  parent : ∀ k, 0 < k → k < t.arena.size → ∃ (c : Cell) (p : Nat) (kids : List Nat),
    t.arena.cells[k]? = some c ∧ c.parent = some p ∧ p < k ∧ t.arena.children? p = some kids ∧ kids.count k = 1
  children : ∀ p, p < t.arena.size → ∃ kids, t.arena.children? p = some kids ∧ kids.Pairwise (· < ·) ∧
    ∀ k ∈ kids, ∃ c : Cell, t.arena.cells[k]? = some c ∧ c.parent = some p
  located : ∀ k, k < t.arena.size → ∃ l, t.locate? k = some l

/-- The tree says of every node what the row of the node says. -/
structure Agrees (t : LinkedTree) (p : ParseTree) : Prop where
  size : t.arena.size = p.nodeCount
  node : ∀ (k : Nat) (row : Row), p.rows[k]? = some row → ∃ c : Cell, t.arena.cells[k]? = some c ∧ c.value = row.value ∧
    c.line = row.position.line ∧ c.offset = row.position.offset ∧ c.parent = row.parent
  located : ∀ (k : Nat) (row : Row), p.rows[k]? = some row → t.locate? k = some row.position.location
  children : ∀ (k : Nat) (row : Row), p.rows[k]? = some row →
    ∃ kids, t.arena.children? k = some kids ∧ kids.length = row.children

/-- No node of the tree changes its value, its line, its parent or its location. -/
def KeptBy (before after : LinkedTree) : Prop :=
  ∀ k, k < before.arena.size → ∃ c c' : Cell, before.arena.cells[k]? = some c ∧ after.arena.cells[k]? = some c' ∧
    c'.value = c.value ∧ c'.line = c.line ∧ c'.parent = c.parent ∧ after.locate? k = before.locate? k

variable {t t' : LinkedTree} {p : ParseTree}

theorem Holds.size (h : t.Holds p) : t.arena.size = p.rows.length := by
  rw [h.shows.size, List.length_map]

theorem Holds.has (h : t.Holds p) {k : Nat} {row : Row} (found : p.rows[k]? = some row) : t.Has k row.place :=
  h.shows.has k row.place (by rw [List.getElem?_map, found]; rfl)

theorem Holds.length_kids (h : t.Holds p) {k : Nat} {row : Row} (found : p.rows[k]? = some row) :
    (t.arena.kids k).length = row.children := by
  rw [← ParseTree.childCount_rows found, Arena.kids, h.size]
  refine length_filter_range fun j other there => ?_
  rw [(h.has there).parent?]
  rfl

theorem Holds.agrees (h : t.Holds p) : t.Agrees p where
  size := h.size.trans (ParseTree.length_before p _)
  node := by
    intro k row found
    obtain ⟨c, there, same⟩ := (h.has found).cell
    exact ⟨c, there, congrArg Cell.value same, congrArg Cell.line same, congrArg Cell.offset same,
      congrArg Cell.parent same⟩
  located := by
    intro k row found
    exact (h.has found).locate?
  children := by
    intro k row found
    have inside : k < t.arena.size := by
      rw [h.size]
      exact (List.getElem?_eq_some_iff.mp found).1
    exact ⟨t.arena.kids k, h.shows.linked.children? inside, h.length_kids found⟩

theorem Holds.wellFormed (h : t.Holds p) : t.WellFormed where
  recorded := by rw [h.shows.recorded, h.shows.size]
  root := by
    obtain ⟨c, there, same⟩ := (h.has (k := 0) rfl).cell
    exact ⟨c, there, congrArg Cell.parent same⟩
  parent := by
    intro k pos less
    obtain ⟨k, rfl⟩ := Nat.exists_eq_succ_of_ne_zero (Nat.ne_of_gt pos)
    rw [h.size] at less
    have found := List.getElem?_eq_getElem less
    obtain ⟨q, above, before⟩ := parent_lt_rowsAll Nat.zero_lt_one p.files k _ found
    obtain ⟨c, there, same⟩ := (h.has found).cell
    have parent : c.parent = some q := (congrArg Cell.parent same).trans above
    have mem : k + 1 ∈ t.arena.kids q := by
      rw [Arena.mem_kids, Arena.parent?, there]
      exact parent
    have once : (t.arena.kids q).Nodup := (Arena.ascending_kids t.arena q).imp Nat.ne_of_lt
    have inside : q < t.arena.size := by
      rw [h.size]
      omega
    exact ⟨c, q, t.arena.kids q, there, parent, by omega, h.shows.linked.children? inside,
      List.count_eq_one_of_mem once mem⟩
  children := by
    intro k less
    refine ⟨t.arena.kids k, h.shows.linked.children? less, Arena.ascending_kids t.arena k, fun j mem => ?_⟩
    exact Option.bind_eq_some_iff.mp (Arena.mem_kids.mp mem)
  located := by
    intro k less
    rw [h.size] at less
    exact ⟨_, (h.has (List.getElem?_eq_getElem less)).locate?⟩

/-! ### Files -/

theorem empty_holds : empty.Holds {} where
  shows := {
    size := rfl
    recorded := rfl
    has := by
      intro k place found
      cases k with
      | zero =>
        cases found
        exact ⟨⟨_, rfl, rfl⟩, none, none, rfl, .root⟩
      | succ k => cases found
    linked := Arena.linked_root }
  inside := ⟨none, rfl, .root⟩

theorem rooted_rows (p : ParseTree) : Rooted (p.rows.map Row.place) :=
  ⟨_, rfl, rfl⟩

theorem length_map_place (p : ParseTree) : (p.rows.map Row.place).length = p.nodeCount :=
  (List.length_map _).trans (ParseTree.length_before p _)

/-- What the parser leaves of a file is one more tree. -/
theorem holds_concat {s : State} (leaves : Leaves (p.rows.map Row.place) t s) : t.Holds ⟨p.files ++ [s.close]⟩ where
  shows := by
    have shows := leaves.shows
    rw [length_map_place] at shows
    rw [ParseTree.rows_concat, List.map_append]
    exact shows
  inside := leaves.inside

theorem Holds.keptBy (h : t.Holds p) {more : List Standing} (shows : t'.Shows (p.rows.map Row.place ++ more)) :
    t.KeptBy t' := by
  intro k less
  rw [h.size] at less
  have found := List.getElem?_eq_getElem less
  obtain ⟨c, there, same⟩ := (h.has found).cell
  have after : t'.Has k (p.rows[k]).place := by
    refine shows.has k _ ?_
    rw [List.getElem?_append_left (by rwa [List.length_map]), List.getElem?_map, found]
    rfl
  obtain ⟨c', there', same'⟩ := after.cell
  have bare := same'.trans same.symm
  exact ⟨c, c', there, there', (congrArg Cell.value bare :), (congrArg Cell.line bare :),
    (congrArg Cell.parent bare :), after.locate?.trans (h.has found).locate?.symm⟩

/-- The first round of a file. -/
theorem Holds.exists_start (h : t.Holds p) (path source : String) :
    ∃ r, Reader.start t path = .ok r ∧ Awaits (p.rows.map Row.place)
      (parseTokens path (Token.tokenize source)) none (r, Token.tokenize source) := by
  obtain ⟨r, start, m⟩ := CilPolicy.exists_start h.shows h.inside (rooted_rows p) path
  exact ⟨r, start, State.start path, ⟨m, rfl, rfl, Token.lexed_scan true 1 source.toList⟩, rfl⟩

/-- Reading a file comes to what the parser comes to. -/
theorem Holds.read_meets (h : t.Holds p) (path source : String) :
    Meets (p.rows.map Row.place) (parseTokens path (Token.tokenize source))
      (Finished (p.rows.map Row.place) (parseTokens path (Token.tokenize source))) (t.read path source) := by
  obtain ⟨r, start, awaits⟩ := h.exists_start path source
  rw [LinkedTree.read, start]
  exact awaits.loop (rooted_rows p)

/-- A file is added as the parser adds it, and nothing that was there before is changed. -/
theorem Holds.exists_add (h : t.Holds p) (path source : String) :
    ∃ t', t.add? path source = some (t', (p.add path source).2) ∧ t'.Holds (p.add path source).1 ∧ t.KeptBy t' := by
  have met := h.read_meets path source
  rw [add?, ParseTree.add]
  cases run : t.read path source with
  | ok r =>
    rw [run] at met
    obtain ⟨s, outcome, leaves⟩ := met.leaves
    rw [outcome]
    exact ⟨r.tree, rfl, holds_concat leaves, h.keptBy leaves.shows⟩
  | error halt =>
    rw [run] at met
    cases halt with
    | aborted => exact met.elim
    | refused fault line left =>
      obtain ⟨s, outcome, leaves⟩ := met
      rw [outcome]
      exact ⟨left, rfl, holds_concat leaves, h.keptBy leaves.shows⟩

/-- A text that is accepted ends in the list of its file. -/
theorem Holds.current_of_read (h : t.Holds p) {path source : String} {r : Reader}
    (accepted : t.read path source = .ok r) : r.current = t.arena.size := by
  have met := h.read_meets path source
  rw [accepted] at met
  rw [met.current, h.shows.size]

theorem Holds.exists_addAll (h : t.Holds p) (files : List (String × String)) :
    ∃ t', files.foldlM (fun t file => (t.add? file.1 file.2).map Prod.fst) t = some t' ∧
      t'.Holds (files.foldl (fun p file => (p.add file.1 file.2).1) p) := by
  induction files generalizing t p with
  | nil => exact ⟨t, rfl, h⟩
  | cons file rest ih =>
    obtain ⟨t₁, added, holds, _⟩ := h.exists_add file.1 file.2
    obtain ⟨t₂, run, holds⟩ := ih holds
    refine ⟨t₂, ?_, holds⟩
    rw [List.foldlM_cons, added]
    exact run

/-! ### Rounds -/

/-- The reader and the tokens left to it at the start of a round. -/
inductive RoundStart (t : LinkedTree) (path source : String) : Reader → List Token → Prop
  | first {r : Reader} (start : Reader.start t path = .ok r) :
      RoundStart t path source r (Token.tokenize source)
  | next {r r' : Reader} {tokens rest : List Token} (before : RoundStart t path source r tokens)
      (round : r.round tokens = .ok (.next r' rest)) : RoundStart t path source r' rest

theorem RoundStart.after? {path source : String} {n : Nat} {r r' : Reader} {tokens rest : List Token}
    (start : t.RoundStart path source r tokens) (run : Reader.after? n r tokens = some (r', rest)) :
    t.RoundStart path source r' rest := by
  induction n generalizing r tokens with
  | zero =>
    cases run
    exact start
  | succ n ih =>
    rw [Reader.after?] at run
    split at run
    · rename_i round
      exact ih (start.next round) run
    · cases run

/-- The list of the file is below the root, and the reader stands in it, as many lists deep as parentheses and line
marks are open. -/
structure Within (file : Nat) (r : Reader) : Prop where
  below : r.tree.arena.parent? file = some 0
  inside : ∃ up, r.tree.arena.ancestors? r.current = some up ∧ file ∈ up
  depth : r.tree.arena.depth? r.current = some (1 + r.parens + r.suspended.length)

theorem RoundStart.awaits (h : t.Holds p) {path source : String} {r : Reader} {tokens : List Token}
    (start : t.RoundStart path source r tokens) :
    Awaits (p.rows.map Row.place) (parseTokens path (Token.tokenize source)) none (r, tokens) := by
  induction start with
  | first start =>
    obtain ⟨r', same, awaits⟩ := h.exists_start path source
    cases same.symm.trans start
    exact awaits
  | next _ round ih =>
    have met := ih.round (rooted_rows p)
    rw [round] at met
    exact met

theorem within_of_mirrors {r : Reader} {s : State} (m : Mirrors (p.rows.map Row.place) r s)
    (deep : s.enclosing.length = s.parens + s.suspended.length) : Within p.nodeCount r := by
  have up := m.ancestors? (rooted_rows p)
  obtain ⟨before, same⟩ := exists_spine_eq (p.rows.map Row.place).length s.current s.enclosing
  refine ⟨?_, ⟨_, up, ?_⟩, ?_⟩
  · obtain ⟨place, found, parent⟩ := spine_chained (rooted_rows p) same
    have has := m.shows.has _ place found
    rw [length_map_place] at has
    exact has.parent?.trans parent
  · rw [same, length_map_place]
    simp
  · rw [Arena.depth?, up, Option.map_some, length_spine, List.length_cons, m.parens, m.suspended, deep]
    congr 1
    omega

theorem Holds.within (h : t.Holds p) {path source : String} {r : Reader} {tokens : List Token}
    (start : t.RoundStart path source r tokens) : r.tree.WellFormed ∧ Within t.arena.size r := by
  obtain ⟨s, f, _⟩ := start.awaits h
  refine ⟨(holds_concat f.mirrors.leaves).wellFormed, ?_⟩
  rw [h.agrees.size]
  exact within_of_mirrors f.mirrors f.deep

/-- However files are read, accepted or not, the tree and its table stay well formed and say what the parse trees
say. While a file is read, the reader stands as deep in the list of the file as parentheses and line marks are open,
and the nodes of the other files are left as they are. -/
theorem stays_wellFormed (files : List (String × String)) :
    ∃ t, addAll? files = some t ∧ t.WellFormed ∧ t.Agrees (ParseTree.addAll files) ∧
      ∀ path source, ∃ t',
        t.add? path source = some (t', ((ParseTree.addAll files).add path source).2) ∧ t'.WellFormed ∧ t.KeptBy t' ∧
        (∀ r tokens, t.RoundStart path source r tokens → r.tree.WellFormed ∧ Within t.arena.size r) ∧
        ∀ r, t.read path source = .ok r → r.current = t.arena.size := by
  obtain ⟨t, run, holds⟩ := empty_holds.exists_addAll files
  refine ⟨t, run, holds.wellFormed, holds.agrees, fun path source => ?_⟩
  obtain ⟨t', added, holds', kept⟩ := holds.exists_add path source
  exact ⟨t', added, holds'.wellFormed, kept, fun r tokens start => holds.within start,
    fun r accepted => holds.current_of_read accepted⟩

/-- A file is refused; the next one is read up to a parenthesis in the region of a line mark. -/
theorem stays_wellFormed_nested :
    ∃ t r tokens, addAll? [("a.cil", ";;* lms 1 a.te\n(b")] = some t ∧ t.WellFormed ∧
      t.RoundStart "b.cil" ";;* lmx 10 b.te\n(c" r tokens ∧ r.parens = 1 ∧ r.suspended.length = 1 ∧
      r.tree.WellFormed ∧ r.tree.arena.depth? r.current = some 3 ∧
      ∃ t', t.add? "b.cil" ";;* lmx 10 b.te\n(c" = some (t', some (.unclosedList, 2)) ∧ t.KeptBy t' := by
  obtain ⟨t, run, formed, _, next⟩ := stays_wellFormed [("a.cil", ";;* lms 1 a.te\n(b")]
  obtain ⟨t', added, _, kept, rounds, _⟩ := next "b.cil" ";;* lmx 10 b.te\n(c"
  have fault : ((ParseTree.addAll [("a.cil", ";;* lms 1 a.te\n(b")]).add "b.cil" ";;* lmx 10 b.te\n(c").2 =
      some (.unclosedList, 2) := by decide +kernel
  have reached : ((addAll? [("a.cil", ";;* lms 1 a.te\n(b")]).bind fun t =>
      (Reader.start t "b.cil").toOption.bind fun r =>
        (Reader.after? 2 r (Token.tokenize ";;* lmx 10 b.te\n(c")).map fun left =>
          (left.1.parens, left.1.suspended.length)) = some (1, 1) := by decide +kernel
  rw [run, Option.bind_some] at reached
  obtain ⟨r₀, start, reached⟩ := Option.bind_eq_some_iff.mp reached
  obtain ⟨⟨r, tokens⟩, two, counts⟩ := Option.map_eq_some_iff.mp reached
  obtain ⟨parens, suspended⟩ := Prod.mk.inj counts
  have there := (RoundStart.first (toOption_eq_some_iff.mp start)).after? two
  obtain ⟨well, within⟩ := rounds r tokens there
  have depth := within.depth
  rw [parens, suspended] at depth
  rw [fault] at added
  exact ⟨t, r, tokens, run, formed, there, parens, suspended, well, depth, t', added, kept⟩

end LinkedTree

end CilPolicy
