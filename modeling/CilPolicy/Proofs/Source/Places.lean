import CilPolicy.Source.Parse

/-!
# Numbers of nodes

A tree grows at its end: the nodes that are read so far keep their numbers, parents and values, and
a new node takes the next number and the current list for its parent.
-/

namespace CilPolicy

namespace Node

/-- Where a node stands and what it says, whatever is below it. -/
structure Standing where
  parent : Option Nat
  value : Option String
  position : Position

def Row.place (r : Row) : Standing :=
  ⟨r.parent, r.value, r.position⟩

/-- The places of a node numbered `index` and of all below it. -/
def places (parent index : Nat) (n : Node) : List Standing :=
  (n.rows parent index).map Row.place

/-- The places of the items of a list numbered `parent`, the first item numbered `index`. -/
def placesAll (parent index : Nat) (ns : List Node) : List Standing :=
  (rowsAll parent index ns).map Row.place

mutual

theorem length_rows (parent index : Nat) : ∀ n : Node, (n.rows parent index).length = n.size
  | leaf _ _ => rfl
  | list _ items => by
    rw [rows, List.length_cons, length_rowsAll index (index + 1) items, size, Nat.add_comm]

theorem length_rowsAll (parent index : Nat) : ∀ ns : List Node, (rowsAll parent index ns).length = sizeAll ns
  | [] => rfl
  | n :: ns => by
    rw [rowsAll, List.length_append, length_rows parent index n, length_rowsAll parent (index + n.size) ns, sizeAll]

end

theorem length_places (parent index : Nat) (n : Node) : (n.places parent index).length = n.size := by
  rw [places, List.length_map, length_rows]

theorem places_list (parent index : Nat) (p : Position) (items : List Node) :
    (list p items).places parent index = ⟨some parent, none, p⟩ :: placesAll index (index + 1) items := by
  rw [places, rows, List.map_cons, placesAll]
  rfl

theorem rowsAll_append (parent index : Nat) (ns ms : List Node) :
    rowsAll parent index (ns ++ ms) = rowsAll parent index ns ++ rowsAll parent (index + sizeAll ns) ms := by
  induction ns generalizing index with
  | nil => rfl
  | cons n ns ih => rw [List.cons_append, rowsAll, rowsAll, ih, List.append_assoc, sizeAll, Nat.add_assoc]

theorem placesAll_concat (parent index : Nat) (ns : List Node) (n : Node) :
    placesAll parent index (ns ++ [n]) = placesAll parent index ns ++ n.places parent (index + sizeAll ns) := by
  rw [placesAll, rowsAll_append, List.map_append, placesAll, places, rowsAll, rowsAll, List.append_nil]

mutual

/-- A list comes before its items. -/
theorem parent_lt_rows {parent index : Nat} (less : parent < index) : ∀ (n : Node) (k : Nat) (row : Row),
    (n.rows parent index)[k]? = some row → ∃ p, row.parent = some p ∧ p < index + k
  | leaf _ _, 0, _, rfl => ⟨parent, rfl, less⟩
  | list _ items, 0, _, rfl => ⟨parent, rfl, less⟩
  | list _ items, k + 1, row, found => by
    obtain ⟨p, above, before⟩ := parent_lt_rowsAll (Nat.lt_succ_self index) items k row found
    exact ⟨p, above, by omega⟩

theorem parent_lt_rowsAll {parent index : Nat} (less : parent < index) : ∀ (ns : List Node) (k : Nat) (row : Row),
    (rowsAll parent index ns)[k]? = some row → ∃ p, row.parent = some p ∧ p < index + k
  | n :: ns, k, row, found => by
    rw [rowsAll] at found
    by_cases first : k < (n.rows parent index).length
    · rw [List.getElem?_append_left first] at found
      exact parent_lt_rows less n k row found
    · rw [List.getElem?_append_right (Nat.le_of_not_lt first)] at found
      obtain ⟨p, above, before⟩ := parent_lt_rowsAll (Nat.lt_add_right n.size less) ns _ row found
      rw [length_rows] at first before
      exact ⟨p, above, by omega⟩

end

end Node

namespace ParseTree

/-- Every node but the root comes after the list in which it stands. -/
theorem parent_lt {t : ParseTree} {k : Nat} {row : Node.Row} {p : Nat} (found : t.rows[k]? = some row)
    (parent : row.parent = some p) : p < k := by
  rw [rows] at found
  cases k with
  | zero =>
    cases found
    cases parent
  | succ k =>
    rw [List.getElem?_cons_succ] at found
    obtain ⟨p', above, before⟩ := Node.parent_lt_rowsAll Nat.zero_lt_one t.files k row found
    cases parent.symm.trans above
    omega

/-- The rows of a tree to which a file is added. -/
theorem rows_concat (t : ParseTree) (n : Node) :
    (ParseTree.mk (t.files ++ [n])).rows =
      ⟨none, none, {}, t.files.length + 1⟩ :: Node.rowsAll 0 1 t.files ++ n.rows 0 t.nodeCount := by
  rw [rows, List.length_append, Node.rowsAll_append, Node.rowsAll, Node.rowsAll, List.append_nil, nodeCount]
  rfl

theorem length_before (t : ParseTree) (root : Node.Row) :
    (root :: Node.rowsAll 0 1 t.files).length = t.nodeCount := by
  rw [List.length_cons, Node.length_rowsAll, nodeCount, Nat.add_comm]

end ParseTree

namespace Source

open Node

/-- The number of the current list, when the file's list is numbered `base`, and the places of the
nodes so far. -/
def laid (base : Nat) (current : OpenList) : List OpenList → Nat × List Standing
  | [] => (base, current.close.places 0 base)
  | outer :: rest =>
    let around := laid base outer rest
    let number := base + around.2.length
    (number, around.2 ++ current.close.places around.1 number)

theorem places_close_add (parent index : Nat) (current : OpenList) (n : Node) :
    (current.add n).close.places parent index = current.close.places parent index ++
      n.places index (index + (current.close.places parent index).length) := by
  rw [OpenList.close, OpenList.add, List.reverse_cons, places_list, placesAll_concat, length_places,
    OpenList.close, places_list, size, Nat.add_assoc]
  rfl

/-- A node that is added comes last. -/
theorem laid_add (base : Nat) (current : OpenList) (enclosing : List OpenList) (n : Node) :
    laid base (current.add n) enclosing =
      ((laid base current enclosing).1, (laid base current enclosing).2 ++
        n.places (laid base current enclosing).1 (base + (laid base current enclosing).2.length)) := by
  cases enclosing with
  | nil => rw [laid, laid, places_close_add]
  | cons outer rest =>
    simp only [laid, places_close_add, List.append_assoc, List.length_append, Nat.add_assoc]

theorem laid_leaf (base : Nat) (current : OpenList) (enclosing : List OpenList) (p : Position) (v : String) :
    laid base (current.add (.leaf p v)) enclosing = ((laid base current enclosing).1,
      (laid base current enclosing).2 ++ [⟨some (laid base current enclosing).1, some v, p⟩]) :=
  laid_add base current enclosing (.leaf p v)

theorem laid_open (base : Nat) (current : OpenList) (enclosing : List OpenList) (p : Position) (inside : Scope) :
    laid base ⟨p, inside, []⟩ (current :: enclosing) = (base + (laid base current enclosing).2.length,
      (laid base current enclosing).2 ++ [⟨some (laid base current enclosing).1, none, p⟩]) := rfl

/-- A list that is closed leaves everything in its place. -/
theorem laid_close (base : Nat) (current outer : OpenList) (rest : List OpenList) :
    laid base (outer.add current.close) rest =
      ((laid base outer rest).1, (laid base current (outer :: rest)).2) :=
  laid_add base outer rest current.close

end Source

end CilPolicy
