import CilPolicy.Source.Arena
import CilPolicy.Proofs.Graph.Chain
import CilPolicy.Proofs.Source.Places

/-!
# Nodes in an arena

What the links of an arena say is known from the parents alone: the children of a node are those nodes
that have it for their parent, in ascending order, and so in the order in which they were made. A node that
is added last comes last among its siblings, and of the nodes before it nothing changes but links.

The frame of a node and those around it say what the scope of its position says, so the location that is looked up
is the position's. A node that is added stands in the frame of its siblings, and a frame that is opened changes
nothing for the nodes that are there.
-/

namespace CilPolicy

section Ascending

variable {numbers front rest : List Nat} {k : Nat}

theorem le_of_getLast? (ascending : numbers.Pairwise (· < ·)) (last : numbers.getLast? = some k) :
    ∀ j ∈ numbers, j ≤ k := by
  obtain ⟨init, rfl⟩ := List.getLast?_eq_some_iff.mp last
  intro j hj
  rcases List.mem_append.mp hj with before | same
  · exact Nat.le_of_lt ((List.pairwise_append.mp ascending).2.2 j before k (List.mem_singleton_self k))
  · exact Nat.le_of_eq (List.mem_singleton.mp same)

/-- The first number above one of them is the next one. -/
theorem find?_above (ascending : (front ++ k :: rest).Pairwise (· < ·)) :
    (front ++ k :: rest).find? (k < ·) = rest.head? := by
  obtain ⟨_, tail, before⟩ := List.pairwise_append.mp ascending
  obtain ⟨after, _⟩ := List.pairwise_cons.mp tail
  have none : front.find? (k < ·) = none := by
    rw [List.find?_eq_none]
    intro j hj
    have less := before j hj k List.mem_cons_self
    simp only [decide_eq_true_eq]
    omega
  rw [List.find?_append, none, Option.none_or, List.find?_cons_of_neg (by simp)]
  cases rest with
  | nil => rfl
  | cons j more => exact List.find?_cons_of_pos (by simpa using after j List.mem_cons_self)

end Ascending

/-! ### Links -/

/-- The node without its links to children and siblings. -/
def Cell.bare (c : Cell) : Cell :=
  { c with firstChild := none, lastChild := none, next := none }

namespace Arena

def parent? (a : Arena) (k : Nat) : Option Nat :=
  a.cells[k]?.bind Cell.parent

/-- The nodes that have the node for their parent, in ascending order. -/
def kids (a : Arena) (p : Nat) : List Nat :=
  (List.range a.size).filter fun k => a.parent? k = some p

/-- Parents come first, and the links are those that the parents ask for. -/
structure Linked (a : Arena) : Prop where
  below : ∀ k p, a.parent? k = some p → p < k
  first : ∀ p c, a.cells[p]? = some c → c.firstChild = (a.kids p).head?
  last : ∀ p c, a.cells[p]? = some c → c.lastChild = (a.kids p).getLast?
  next : ∀ k c p, a.cells[k]? = some c → c.parent = some p → c.next = (a.kids p).find? (k < ·)

variable {a b : Arena} {k p : Nat}

theorem lt_size_of_parent? (parent : a.parent? k = some p) : k < a.size := by
  obtain ⟨c, found, _⟩ := Option.bind_eq_some_iff.mp parent
  exact (Array.getElem?_eq_some_iff.mp found).1

theorem mem_kids : k ∈ a.kids p ↔ a.parent? k = some p := by
  rw [kids, List.mem_filter, List.mem_range, decide_eq_true_eq]
  exact and_iff_right_of_imp lt_size_of_parent?

theorem ascending_kids (a : Arena) (p : Nat) : (a.kids p).Pairwise (· < ·) :=
  List.pairwise_lt_range.filter _

theorem length_kids_le (a : Arena) (p : Nat) : (a.kids p).length ≤ a.size := by
  have shorter := List.length_filter_le (fun k => decide (a.parent? k = some p)) (List.range a.size)
  rwa [List.length_range] at shorter

theorem linked_root : root.Linked where
  below k p parent := by
    have only : k = 0 := by
      have less := lt_size_of_parent? parent
      simp [root, size] at less
      exact less
    subst only
    cases parent
  first p c found := by
    have only : p = 0 := by simpa [root] using (Array.getElem?_eq_some_iff.mp found).1
    subst only
    cases found
    rfl
  last p c found := by
    have only : p = 0 := by simpa [root] using (Array.getElem?_eq_some_iff.mp found).1
    subst only
    cases found
    rfl
  next k c p found parent := by
    have only : k = 0 := by simpa [root] using (Array.getElem?_eq_some_iff.mp found).1
    subst only
    cases found
    cases parent

/-- The children that are met one after the other are all of them, in ascending order. -/
theorem Linked.children? (linked : a.Linked) (inside : p < a.size) : a.children? p = some (a.kids p) := by
  obtain ⟨c, found⟩ : ∃ c, a.cells[p]? = some c := ⟨_, Array.getElem?_eq_getElem inside⟩
  rw [Arena.children?, found, Option.bind_eq_bind, Option.bind_some, linked.first p c found]
  refine (Graph.Threads.of_head? fun front k rest same => ?_).followLinks (a.length_kids_le p)
  have parent : a.parent? k = some p := mem_kids.mp (same ▸ by simp)
  obtain ⟨child, there, above⟩ := Option.bind_eq_some_iff.mp parent
  have ascending := a.ascending_kids p
  have next := linked.next k child p there above
  rw [same] at ascending next
  rw [there, Option.map_some, next, find?_above ascending]

/-! ### The last node -/

section Append

variable {new : Cell} {parent : Nat}

/-- The nodes of the second arena are those of the first and one more, and of those before it nothing but
links is changed. -/
structure Appends (a b : Arena) (new : Cell) : Prop where
  size : b.size = a.size + 1
  last : b.cells[a.size]? = some new
  kept : ∀ (k : Nat) (c : Cell), a.cells[k]? = some c → ∃ c' : Cell, b.cells[k]? = some c' ∧ c'.bare = c.bare

theorem Appends.parent? (appends : Appends a b new) (k : Nat) :
    b.parent? k = if k = a.size then new.parent else a.parent? k := by
  by_cases last : k = a.size
  · rw [if_pos last, Arena.parent?, last, appends.last, Option.bind_some]
  · rw [if_neg last, Arena.parent?, Arena.parent?]
    cases found : a.cells[k]? with
    | none =>
      have past : a.size ≤ k := Array.getElem?_eq_none_iff.mp found
      have size := appends.size
      have past' : b.size ≤ k := by omega
      rw [Array.getElem?_eq_none past']
    | some c =>
      obtain ⟨c', found', same⟩ := appends.kept k c found
      rw [found']
      have parents : c'.bare.parent = c.bare.parent := congrArg Cell.parent same
      exact parents

/-- The new node is the last among the children of its parent. -/
theorem Appends.kids (appends : Appends a b new) (above : new.parent = some parent) (p : Nat) :
    b.kids p = if p = parent then a.kids p ++ [a.size] else a.kids p := by
  have others : (List.range a.size).filter (fun k => b.parent? k = some p) = a.kids p := by
    refine List.filter_congr fun k hk => ?_
    rw [appends.parent?, if_neg (Nat.ne_of_lt (List.mem_range.mp hk))]
  rw [Arena.kids, appends.size, List.range_succ, List.filter_append, others]
  have own : b.parent? a.size = some parent := by rw [appends.parent?, if_pos rfl, above]
  by_cases same : p = parent
  · rw [if_pos same, List.filter_cons_of_pos (by simp [own, same]), List.filter_nil]
  · rw [if_neg same, List.filter_cons_of_neg (by simpa [own] using Ne.symm same), List.filter_nil, List.append_nil]

variable {value : Option String} {line offset : Nat} {above : Cell}

theorem exists_update? (change : Cell → Cell) (inside : k < a.size) : ∃ b, a.update? k change = some b ∧ b.size = a.size ∧
    ∀ j, b.cells[j]? = if k = j then a.cells[j]?.map change else a.cells[j]? :=
  ⟨_, if_pos inside, Array.size_modify, fun _ => Array.getElem?_modify⟩

/-- What becomes of the links of a node when one is added below `parent`, whose last child was `last`. -/
def relink (id parent : Nat) (last : Option Nat) (k : Nat) (c : Cell) : Cell :=
  { c with
    firstChild := if k = parent ∧ last = none then some id else c.firstChild
    lastChild := if k = parent then some id else c.lastChild
    next := if last = some k then some id else c.next }

/-- What the second arena holds when a node is added to the first below `parent`, whose last child was
`last`. -/
structure Relinked (a b : Arena) (new : Cell) (parent : Nat) (last : Option Nat) : Prop where
  size : b.size = a.size + 1
  fresh : b.cells[a.size]? = some new
  mended : ∀ (k : Nat) (c : Cell), a.cells[k]? = some c → b.cells[k]? = some (relink a.size parent last k c)

/-- A node is added when its parent and the last child of that are there. -/
theorem exists_addChild? (value : Option String) (line offset : Nat) (found : a.cells[parent]? = some above)
    (inside : ∀ last, above.lastChild = some last → last < a.size) :
    ∃ b, a.addChild? parent value line offset = some (a.size, b) ∧
      Relinked a b (.below parent value line offset) parent above.lastChild := by
  have less : parent < a.size := (Array.getElem?_eq_some_iff.mp found).1
  obtain ⟨grown, pushed⟩ : ∃ b : Arena, ⟨a.cells.push (.below parent value line offset)⟩ = b := ⟨_, rfl⟩
  have size : grown.size = a.size + 1 := by rw [← pushed, Arena.size, Array.size_push]
  have cells : ∀ k, grown.cells[k]? = if k = a.size then some (.below parent value line offset) else a.cells[k]? := by
    intro k
    rw [← pushed, Array.getElem?_push]
  have there : (a.cells.push (.below parent value line offset))[parent]? = some above := by
    rw [Array.getElem?_push, if_neg (Nat.ne_of_lt less), found]
  -- The first change is to the last child, or to the parent when it has none; the second is to the parent.
  cases last : above.lastChild with
  | none =>
    obtain ⟨first, run, size', cells'⟩ := grown.exists_update? (k := parent)
      (fun c => { c with firstChild := some a.size }) (by omega)
    obtain ⟨b, run', size'', cells''⟩ := first.exists_update? (k := parent)
      (fun c => { c with lastChild := some a.size }) (by omega)
    refine ⟨b, ?_, by omega, ?_, fun k c old => ?_⟩
    · simp only [addChild?, pushed, there, last, run, run', Option.bind_eq_bind, Option.bind_some]
      rfl
    · rw [cells'', if_neg (Nat.ne_of_lt less), cells', if_neg (Nat.ne_of_lt less), cells, if_pos rfl]
    · have before : k < a.size := (Array.getElem?_eq_some_iff.mp old).1
      rw [cells'', cells', cells, if_neg (Nat.ne_of_lt before), old]
      by_cases same : parent = k
      · simp [same, relink]
      · simp [same, Ne.symm same, relink]
  | some j =>
    have less' := inside j last
    obtain ⟨first, run, size', cells'⟩ := grown.exists_update? (k := j)
      (fun c => { c with next := some a.size }) (by omega)
    obtain ⟨b, run', size'', cells''⟩ := first.exists_update? (k := parent)
      (fun c => { c with lastChild := some a.size }) (by omega)
    refine ⟨b, ?_, by omega, ?_, fun k c old => ?_⟩
    · simp only [addChild?, pushed, there, last, run, run', Option.bind_eq_bind, Option.bind_some]
      rfl
    · rw [cells'', if_neg (Nat.ne_of_lt less), cells', if_neg (Nat.ne_of_lt less'), cells, if_pos rfl]
    · have before : k < a.size := (Array.getElem?_eq_some_iff.mp old).1
      rw [cells'', cells', cells, if_neg (Nat.ne_of_lt before), old]
      by_cases same : parent = k
      · by_cases own : j = k
        · simp [same, own, relink]
        · simp [same, own, relink]
      · by_cases own : j = k
        · simp [same, Ne.symm same, own, relink]
        · simp [same, Ne.symm same, own, relink]

namespace Relinked

variable {last : Option Nat}

theorem appends (h : Relinked a b new parent last) : Appends a b new :=
  ⟨h.size, h.fresh, fun k c there => ⟨_, h.mended k c there, rfl⟩⟩

/-- A node is the new one, or one from before with its links mended. -/
theorem cases (h : Relinked a b new parent last) {c : Cell} (there : b.cells[k]? = some c) :
    (k = a.size ∧ c = new) ∨ ∃ c₀, a.cells[k]? = some c₀ ∧ c = relink a.size parent last k c₀ := by
  have size := h.size
  have less : k < b.size := (Array.getElem?_eq_some_iff.mp there).1
  by_cases fresh : k = a.size
  · subst fresh
    exact .inl ⟨rfl, Option.some.inj (there.symm.trans h.fresh)⟩
  · have before : k < a.size := by omega
    have there₀ := Array.getElem?_eq_getElem before
    exact .inr ⟨_, there₀, Option.some.inj (there.symm.trans (h.mended k _ there₀))⟩

variable (h : Relinked a b (.below parent value line offset) parent last) (linked : a.Linked)
  (inside : parent < a.size) (children : last = (a.kids parent).getLast?)

include h in
theorem kids (p : Nat) : b.kids p = if p = parent then a.kids p ++ [a.size] else a.kids p :=
  h.appends.kids rfl p

include h linked inside in
/-- The new node has no children. -/
theorem kids_size : b.kids a.size = [] := by
  rw [h.kids, if_neg (Nat.ne_of_gt inside), List.eq_nil_iff_forall_not_mem]
  intro k hk
  have parent := mem_kids.mp hk
  have less := lt_size_of_parent? parent
  have below := linked.below k a.size parent
  omega

include h linked inside in
theorem below (k p : Nat) (parent : b.parent? k = some p) : p < k := by
  rw [h.appends.parent?] at parent
  split at parent
  · cases parent
    omega
  · exact linked.below k p parent

include h linked inside in
theorem lastChild (p : Nat) (c : Cell) (there : b.cells[p]? = some c) : c.lastChild = (b.kids p).getLast? := by
  rcases h.cases there with ⟨rfl, rfl⟩ | ⟨c₀, there₀, rfl⟩
  · rw [h.kids_size linked inside]
    rfl
  · rw [h.kids]
    by_cases same : p = parent
    · simp [relink, same]
    · simp [relink, same, linked.last p c₀ there₀]

include h linked inside children

theorem firstChild (p : Nat) (c : Cell) (there : b.cells[p]? = some c) : c.firstChild = (b.kids p).head? := by
  rcases h.cases there with ⟨rfl, rfl⟩ | ⟨c₀, there₀, rfl⟩
  · rw [h.kids_size linked inside]
    rfl
  · have first := linked.first p c₀ there₀
    rw [h.kids]
    by_cases same : p = parent
    · subst same
      cases kids : a.kids p with
      | nil => simp [relink, children, kids]
      | cons j rest => simp [relink, children, kids, first]
    · simp [relink, same, first]

theorem next (k : Nat) (c : Cell) (p : Nat) (there : b.cells[k]? = some c) (above : c.parent = some p) :
    c.next = (b.kids p).find? (k < ·) := by
  rw [h.kids]
  rcases h.cases there with ⟨rfl, rfl⟩ | ⟨c₀, there₀, rfl⟩
  · cases above
    rw [if_pos rfl]
    refine (List.find?_eq_none.mpr fun j hj => ?_).symm
    have le : j ≤ a.size := by
      rcases List.mem_append.mp hj with before | same
      · exact Nat.le_of_lt (lt_size_of_parent? (mem_kids.mp before))
      · exact Nat.le_of_eq (List.mem_singleton.mp same)
    simp only [decide_eq_true_eq]
    omega
  · have own : a.parent? k = some p := by
      rw [Arena.parent?, there₀, Option.bind_some, ← above]
      rfl
    have next := linked.next k c₀ p there₀ above
    have ascending := a.ascending_kids p
    by_cases same : p = parent
    · subst same
      have less := lt_size_of_parent? own
      rw [if_pos rfl, List.find?_append]
      by_cases isLast : last = some k
      · have none : (a.kids p).find? (k < ·) = none := by
          refine List.find?_eq_none.mpr fun j hj => ?_
          have le := le_of_getLast? ascending (children ▸ isLast) j hj
          simp only [decide_eq_true_eq]
          omega
        simp [relink, isLast, none, less]
      · -- The last child of the parent comes after this one.
        obtain ⟨j, hj⟩ : ∃ j, (a.kids p).getLast? = some j :=
          ⟨_, List.getLast?_eq_some_getLast (List.ne_nil_of_mem (mem_kids.mpr own))⟩
        have le := le_of_getLast? ascending hj k (mem_kids.mpr own)
        have other : j ≠ k := fun same => isLast (by rw [children, hj, same])
        have some : ((a.kids p).find? (k < ·)).isSome := by
          rw [List.find?_isSome]
          exact ⟨j, List.mem_of_getLast? hj, by simp only [decide_eq_true_eq]; omega⟩
        simp [relink, isLast, next, Option.or_of_isSome some]
    · have other : last ≠ some k := fun isLast =>
        same (Option.some.inj (own.symm.trans (mem_kids.mp (List.mem_of_getLast? (children ▸ isLast)))))
      simp [relink, same, other, next]

end Relinked

/-- A node that is added below one that is there is appended, and the links are right. -/
theorem Linked.exists_addChild? (linked : a.Linked) (value : Option String) (line offset : Nat)
    (inside : parent < a.size) :
    ∃ b, a.addChild? parent value line offset = some (a.size, b) ∧
      Appends a b (.below parent value line offset) ∧ b.Linked := by
  obtain ⟨above, found⟩ : ∃ c, a.cells[parent]? = some c := ⟨_, Array.getElem?_eq_getElem inside⟩
  have last := linked.last parent above found
  obtain ⟨b, run, relinked⟩ :=
    Arena.exists_addChild? value line offset found
      fun j hj => lt_size_of_parent? (mem_kids.mp (List.mem_of_getLast? (last ▸ hj)))
  exact ⟨b, run, relinked.appends, relinked.below linked inside, relinked.firstChild linked inside last,
    relinked.lastChild linked inside, relinked.next linked inside last⟩

end Append

end Arena

/-! ### Frames -/

namespace SourceMap

/-- The frames from `start` outwards are the file and the marks of the scope, each before those inside it. -/
inductive Frames (m : SourceMap) : Option Nat → Scope → Prop
  | root : Frames m none {}
  | file {i line offset : Nat} {path : String} (found : m.frames[i]? = some ⟨.file, path, line, offset, none⟩) :
      Frames m (some i) ⟨some path, []⟩
  | mark {i line offset : Nat} {path : String} {expands : Bool} {parent : Option Nat} {scope : Scope}
      (found : m.frames[i]? = some ⟨if expands then .line else .lines, path, line, offset, parent⟩)
      (before : ∀ p, parent = some p → p < i) (around : Frames m parent scope) :
      Frames m (some i) ⟨scope.file, ⟨expands, path, line, offset⟩ :: scope.marks⟩

/-- The children of the node stand in the scope. -/
def Inside (m : SourceMap) (k : Nat) (scope : Scope) : Prop :=
  ∃ frame, m.childFrame? k = some frame ∧ m.Frames frame scope

variable {m m' : SourceMap} {start : Option Nat} {scope : Scope} {i k : Nat}

theorem Frames.lt (h : m.Frames (some i) scope) : i < m.frames.size := by
  cases h with
  | file found => exact (Array.getElem?_eq_some_iff.mp found).1
  | mark found _ _ => exact (Array.getElem?_eq_some_iff.mp found).1

theorem Frames.eq_none (h : m.Frames start scope) (file : scope.file = none) (marks : scope.marks = []) :
    start = none := by
  cases h with
  | root => rfl
  | file _ => cases file
  | mark _ _ _ => cases marks

theorem Frames.mono (h : m.Frames start scope)
    (kept : ∀ (i : Nat) (f : Frame), m.frames[i]? = some f → m'.frames[i]? = some f) : m'.Frames start scope := by
  induction h with
  | root => exact .root
  | file found => exact .file (kept _ _ found)
  | mark found before _ ih => exact .mark (kept _ _ found) before ih

/-- A walk outwards meets the frames, and they say what the scope says. -/
theorem Frames.exists_walk (h : m.Frames start scope) (fuel : Nat) (enough : ∀ i, start = some i → i < fuel) :
    ∃ numbers, Graph.followLinks (fun i => m.frames[i]?.map Frame.parent) fuel start = some numbers ∧
      ((numbers.filterMap (m.frames[·]?)).find? (·.kind == .file)).map Frame.path = scope.file ∧
      ∀ offset, Frame.origins offset (numbers.filterMap (m.frames[·]?)) =
        Position.originsOf offset scope.marks := by
  induction h generalizing fuel with
  | root => exact ⟨[], by cases fuel <;> rfl, rfl, fun _ => rfl⟩
  | @file i line offset path found =>
    cases fuel with
    | zero => exact absurd (enough i rfl) (Nat.not_lt_zero i)
    | succ fuel =>
      refine ⟨[i], ?_, ?_, fun offset' => ?_⟩
      · simp [Graph.followLinks, found]
      · simp [found]
      · simp [found, Frame.origins, Position.originsOf]
  | @mark i line offset path expands parent scope found before around ih =>
    cases fuel with
    | zero => exact absurd (enough i rfl) (Nat.not_lt_zero i)
    | succ fuel =>
      have less := enough i rfl
      obtain ⟨numbers, walk, file, origins⟩ := ih fuel fun p hp => by have := before p hp; omega
      refine ⟨i :: numbers, ?_, ?_, fun offset' => ?_⟩
      · simp [Graph.followLinks, found, walk]
      · rw [List.filterMap_cons_some found, List.find?_cons_of_neg (by cases expands <;> simp), file]
      · rw [List.filterMap_cons_some found, Position.originsOf]
        cases expands <;> simp [Frame.origins, origins]

variable {source : NodeSource}

theorem Frames.exists_frames (h : m.Frames start scope) : ∃ frames, m.frames? start = some frames ∧
    (frames.find? (·.kind == .file)).map Frame.path = scope.file ∧
    ∀ offset, Frame.origins offset frames = Position.originsOf offset scope.marks := by
  obtain ⟨numbers, walk, same⟩ := h.exists_walk m.frames.size fun i same => by
    subst same
    exact h.lt
  exact ⟨_, by rw [frames?, walk]; rfl, same⟩

/-- The location that is looked up is that of the position. -/
theorem locate?_eq (found : m.nodes[k]? = some source) (frames : m.Frames source.frame scope) :
    m.locate? k = some (Position.location ⟨scope, source.line, source.offset⟩) := by
  obtain ⟨fs, walk, file, origins⟩ := frames.exists_frames
  simp [locate?, path?, found, walk, file, origins, Position.location]

theorem Inside.lt (inside : m.Inside k scope) : k < m.nodes.size := by
  obtain ⟨frame, found, _⟩ := inside
  obtain ⟨source, there, _⟩ := Option.bind_eq_some_iff.mp found
  exact (Array.getElem?_eq_some_iff.mp there).1

theorem Inside.mono (inside : m.Inside k scope)
    (kept : ∀ (i : Nat) (f : Frame), m.frames[i]? = some f → m'.frames[i]? = some f)
    (same : m'.nodes[k]? = m.nodes[k]?) : m'.Inside k scope := by
  obtain ⟨frame, found, frames⟩ := inside
  refine ⟨frame, ?_, frames.mono kept⟩
  rw [childFrame?, same]
  exact found

end SourceMap

namespace Node

/-- The node as it is linked, without links to children and siblings. -/
def Standing.cell (place : Standing) : Cell where
  value := place.value
  line := place.position.line
  offset := place.position.offset
  parent := place.parent

end Node

namespace LinkedTree

open Node

/-- The node is there, and it stands as the place says. -/
structure Has (t : LinkedTree) (k : Nat) (place : Standing) : Prop where
  cell : ∃ c : Cell, t.arena.cells[k]? = some c ∧ c.bare = place.cell
  source : ∃ frame opens, t.sources.nodes[k]? = some ⟨frame, opens, place.position.line, place.position.offset⟩ ∧
    t.sources.Frames frame place.position.scope

/-- The nodes are those of the places, each has its source noted, and they are linked. -/
structure Shows (t : LinkedTree) (places : List Standing) : Prop where
  size : t.arena.size = places.length
  recorded : t.sources.nodes.size = places.length
  has : ∀ k place, places[k]? = some place → t.Has k place
  linked : t.arena.Linked

variable {t t' : LinkedTree} {k parent : Nat} {place : Standing} {places : List Standing} {scope : Scope}

theorem Has.locate? (h : t.Has k place) : t.locate? k = some place.position.location := by
  obtain ⟨frame, opens, found, frames⟩ := h.source
  exact SourceMap.locate?_eq found frames

theorem Has.parent? (h : t.Has k place) : t.arena.parent? k = place.parent := by
  obtain ⟨c, found, same⟩ := h.cell
  rw [Arena.parent?, found, Option.bind_some]
  exact congrArg Cell.parent same

theorem Has.mono (h : t.Has k place)
    (cells : ∀ c : Cell, t.arena.cells[k]? = some c → ∃ c' : Cell, t'.arena.cells[k]? = some c' ∧ c'.bare = c.bare)
    (nodes : ∀ s : NodeSource, t.sources.nodes[k]? = some s →
      ∃ opens, t'.sources.nodes[k]? = some { s with opens := opens })
    (kept : ∀ (i : Nat) (f : Frame), t.sources.frames[i]? = some f → t'.sources.frames[i]? = some f) :
    t'.Has k place where
  cell := by
    obtain ⟨c, found, same⟩ := h.cell
    obtain ⟨c', found', same'⟩ := cells c found
    exact ⟨c', found', same'.trans same⟩
  source := by
    obtain ⟨frame, _, found, frames⟩ := h.source
    obtain ⟨opens, found'⟩ := nodes _ found
    exact ⟨frame, opens, found', frames.mono kept⟩

/-- A node is added in a scope that is open at its parent, and stands last. -/
theorem Shows.exists_addNode? (shows : t.Shows places) (inside : t.sources.Inside parent scope)
    (value : Option String) (line offset : Nat) :
    ∃ t', t.addNode? parent value line offset = some (places.length, t') ∧
      t'.Shows (places ++ [⟨some parent, value, ⟨scope, line, offset⟩⟩]) ∧
      t'.sources.Inside places.length scope ∧
      ∀ k scope, t.sources.Inside k scope → t'.sources.Inside k scope := by
  have less : parent < t.arena.size := by
    rw [shows.size, ← shows.recorded]
    exact inside.lt
  obtain ⟨frame, found, frames⟩ := inside
  obtain ⟨arena, run, appends, linked⟩ :=
    shows.linked.exists_addChild? value line offset less
  have same : t.arena.size = t.sources.nodes.size := by rw [shows.size, shows.recorded]
  let sources : SourceMap := { t.sources with nodes := t.sources.nodes.push { frame, line, offset } }
  have nodes : ∀ k, k ≠ places.length → sources.nodes[k]? = t.sources.nodes[k]? := by
    intro k other
    rw [Array.getElem?_push, if_neg (shows.recorded ▸ other)]
  have last : sources.nodes[places.length]? = some { frame, line, offset } := by
    rw [Array.getElem?_push, if_pos shows.recorded.symm]
  have frames : sources.Frames frame scope := frames.mono fun _ _ there => there
  refine ⟨⟨arena, sources⟩, ?_, ⟨?_, ?_, ?_, linked⟩, ⟨frame, ?_, frames⟩, fun k scope inside => ?_⟩
  · simp only [addNode?, found, run, SourceMap.record?, if_pos same, Option.bind_eq_bind, Option.bind_some]
    rw [shows.size]
    rfl
  · rw [appends.size, shows.size, List.length_append, List.length_singleton]
  · rw [Array.size_push, shows.recorded, List.length_append, List.length_singleton]
  · intro k place there
    by_cases fresh : k = places.length
    · subst fresh
      rw [List.getElem?_concat_length] at there
      cases there
      exact ⟨⟨_, shows.size ▸ appends.last, rfl⟩, frame, none, last, frames⟩
    · have before : places[k]? = some place := by
        rwa [List.getElem?_append_left] at there
        have less := (List.getElem?_eq_some_iff.mp there).1
        rw [List.length_append, List.length_singleton] at less
        omega
      exact (shows.has k place before).mono (appends.kept k)
        (fun s there => ⟨s.opens, (nodes k fresh).trans there⟩) fun _ _ there => there
  · rw [SourceMap.childFrame?, last]
    rfl
  · refine inside.mono (fun _ _ there => there) (nodes k ?_)
    have less := inside.lt
    rw [shows.recorded] at less
    omega

/-- A frame that is opened at a node is around what comes below the node, and changes nothing else. -/
theorem Shows.exists_openFrame? (shows : t.Shows places) (there : places[k]? = some place)
    (kind : FrameKind) (path : String) (line : Nat) :
    ∃ t', t.openFrame? k kind path line = some t' ∧ t'.Shows places ∧
      (∀ j scope, j ≠ k → t.sources.Inside j scope → t'.sources.Inside j scope) ∧
      (kind = .file → place.position.scope = {} → t'.sources.Inside k ⟨some path, []⟩) ∧
      ∀ expands : Bool, kind = (if expands then .line else .lines) →
        t'.sources.Inside k ⟨place.position.scope.file,
          ⟨expands, path, line, place.position.offset⟩ :: place.position.scope.marks⟩ := by
  obtain ⟨frame, opens, found, frames⟩ := (shows.has k place there).source
  let sources : SourceMap := {
    frames := t.sources.frames.push ⟨kind, path, line, place.position.offset, frame⟩
    nodes := t.sources.nodes.modify k fun source => { source with opens := some t.sources.frames.size } }
  have nodes : ∀ j, sources.nodes[j]? = if k = j then
      t.sources.nodes[j]?.map fun source => { source with opens := some t.sources.frames.size }
      else t.sources.nodes[j]? := fun _ => Array.getElem?_modify
  have kept : ∀ (i : Nat) (f : Frame), t.sources.frames[i]? = some f → sources.frames[i]? = some f := by
    intro i f old
    have less := (Array.getElem?_eq_some_iff.mp old).1
    rw [Array.getElem?_push, if_neg (Nat.ne_of_lt less), old]
  have last : sources.frames[t.sources.frames.size]? = some ⟨kind, path, line, place.position.offset, frame⟩ := by
    rw [Array.getElem?_push, if_pos rfl]
  have opened : sources.childFrame? k = some (some t.sources.frames.size) := by
    rw [SourceMap.childFrame?, nodes, if_pos rfl, found]
    rfl
  refine ⟨⟨t.arena, sources⟩, ?_, ⟨shows.size, ?_, ?_, shows.linked⟩, ?_, ?_, ?_⟩
  · simp only [openFrame?, SourceMap.openFrame?, found, Option.bind_eq_bind, Option.bind_some]
    rfl
  · rw [Array.size_modify, shows.recorded]
  · intro j place there
    refine (shows.has j place there).mono (fun c there => ⟨c, there, rfl⟩) (fun s there => ?_) kept
    by_cases own : k = j
    · exact ⟨some t.sources.frames.size, by rw [nodes, if_pos own, there]; rfl⟩
    · exact ⟨s.opens, by rw [nodes, if_neg own, there]⟩
  · exact fun j scope other inside => inside.mono kept (by rw [nodes, if_neg (Ne.symm other)])
  · rintro rfl outermost
    have none : frame = none := frames.eq_none (by rw [outermost]) (by rw [outermost])
    subst none
    exact ⟨_, opened, .file last⟩
  · rintro expands rfl
    refine ⟨_, opened, .mark last (fun p outer => ?_) (frames.mono kept)⟩
    subst outer
    exact frames.lt

end LinkedTree

end CilPolicy
