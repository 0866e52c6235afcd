import CilPolicy.Source.Parse
import Mathlib.Data.Nat.Find

/-!
# Pieces and their partners

A text is a sequence of pieces: tokens outside of line marks, and line marks as wholes. Parentheses
and line marks are counted each for themselves, but they open and close the same lists. So the end
of a mark's region, which is its partner among the marks, need not be where its list is closed,
which is its partner among the pieces that open and close lists. What is open before a piece is
known from the depths alone.
-/

namespace CilPolicy

/-- A token outside of line marks, or a line mark. -/
inductive Piece where
  | opening
  | closing
  | name (text : String)
  | begins (word line path : String)
  | ends
  | silent
deriving DecidableEq

/-- A token outside of line marks as a piece. -/
def Piece.ofToken (t : Token) : Piece :=
  match t.kind with
  | .opening => .opening
  | .closing => .closing
  | .symbol | .quoted => .name (Source.nameText t)
  | .newline | .comment | .finish | .lineMark | .unknown => .silent

/-- The pieces of a text. A line mark ends with its own line. -/
def pieces : List Token → List Piece
  | [] => []
  | t :: rest =>
    if t.kind = .lineMark then
      match rest with
      | [] => []
      | word :: rest =>
        if word.text = "lme" then
          match rest with
          | [] => []
          | _ :: rest => .ends :: pieces rest
        else
          match rest with
          | line :: path :: _ :: rest =>
            .begins word.text line.text (Source.nameText path) :: pieces rest
          | _ => []
    else .ofToken t :: pieces rest

namespace Piece

/-- The values of the nodes that the piece makes; a list has none. -/
def values : Piece → List (Option String)
  | opening => [none]
  | name text => [some text]
  | begins word line path => [none, some Node.sourceTag, some word, some line, some path]
  | closing | ends | silent => []

/-- By how much the piece changes the number of active line marks. -/
def marks : Piece → Int
  | begins .. => 1
  | ends => -1
  | opening | closing | name _ | silent => 0

/-- By how much the piece changes the number of open parentheses. -/
def parens : Piece → Int
  | opening => 1
  | closing => -1
  | begins .. | ends | name _ | silent => 0

/-- By how much the piece changes the number of open lists. -/
def lists (p : Piece) : Int :=
  p.parens + p.marks

/-- What a line mark tells of its region: whether all of it comes from one line, the path and the
line. -/
def told? : Piece → Option (Bool × String × Nat)
  | begins word line path => some (word == "lmx", path, (Text.decimal? wordBound line).getD 0)
  | opening | closing | name _ | ends | silent => none

/-- The piece begins the region of a line mark. -/
def IsMark (ps : List Piece) (m : Nat) : Prop :=
  ∃ word line path, ps[m]? = some (begins word line path)

theorem neg_one_le_marks (p : Piece) : -1 ≤ p.marks := by
  cases p <;> simp [marks]

theorem lists_cases (p : Piece) : p.lists = 1 ∨ p.lists = 0 ∨ p.lists = -1 := by
  cases p <;> simp [lists, parens, marks]

theorem neg_one_le_lists (p : Piece) : -1 ≤ p.lists := by
  rcases p.lists_cases with change | change | change <;> omega

/-- A piece that makes nodes closes nothing. -/
theorem lists_nonneg_of_values {p : Piece} (makes : p.values ≠ []) : 0 ≤ p.lists := by
  cases p with
  | closing | ends | silent => exact absurd rfl makes
  | opening | name | begins => simp [lists, parens, marks]

theorem marks_nonneg_of_values {p : Piece} (makes : p.values ≠ []) : 0 ≤ p.marks := by
  cases p with
  | closing | ends | silent => exact absurd rfl makes
  | opening | name | begins => simp [marks]

/-- Every list is a node. -/
theorem values_ne_nil_of_lists {p : Piece} (opens : p.lists = 1) : p.values ≠ [] := by
  cases p with
  | closing | ends | silent | name => simp [lists, parens, marks] at opens
  | opening | begins => simp [values]

/-! ### Depths -/

section Depth

variable (weight : Piece → Int) (ps : List Piece)

/-- The depth before the piece. -/
def level : Nat → Int
  | 0 => 0
  | n + 1 =>
    match ps[n]? with
    | some p => level n + weight p
    | none => level n

/-- The second piece is the first after which the depth is what it was before the first. -/
def Partner (m e : Nat) : Prop :=
  m < e ∧ level weight ps (e + 1) = level weight ps m ∧
    ∀ n, n ≤ e → m < n → level weight ps m < level weight ps n

variable {weight ps} {m n e : Nat} {p : Piece}

theorem level_succ (found : ps[n]? = some p) : level weight ps (n + 1) = level weight ps n + weight p := by
  rw [level, found]

theorem level_of_length_le (past : ps.length ≤ n) : level weight ps n = level weight ps ps.length := by
  induction n with
  | zero => rw [Nat.le_zero.mp past]
  | succ n ih =>
    by_cases last : ps.length = n + 1
    · rw [last]
    · rw [level, List.getElem?_eq_none (by omega)]
      exact ih (by omega)

theorem level_lists (ps : List Piece) (n : Nat) : level lists ps n = level parens ps n + level marks ps n := by
  induction n with
  | zero => rfl
  | succ n ih =>
    rw [level, level, level]
    split
    · rw [ih, lists]
      omega
    · exact ih

theorem Partner.lt_length (partner : Partner weight ps m e) : e < ps.length := by
  obtain ⟨after, same, above⟩ := partner
  by_contra past
  have before := above e (Nat.le_refl e) after
  have flat : level weight ps e = level weight ps ps.length := level_of_length_le (by omega)
  have flat' : level weight ps (e + 1) = level weight ps ps.length := level_of_length_le (by omega)
  omega

/-- A partner makes the depth less. -/
theorem Partner.weight_neg (partner : Partner weight ps m e) (found : ps[e]? = some p) : weight p < 0 := by
  obtain ⟨after, same, above⟩ := partner
  have before := above e (Nat.le_refl e) after
  rw [level_succ found] at same
  omega

theorem Partner.unique {e' : Nat} (partner : Partner weight ps m e) (other : Partner weight ps m e') : e = e' := by
  obtain ⟨after, same, above⟩ := partner
  obtain ⟨after', same', above'⟩ := other
  by_contra different
  rcases Nat.lt_or_gt_of_ne different with less | less
  · have higher := above' (e + 1) less (by omega)
    omega
  · have higher := above (e' + 1) less (by omega)
    omega

/-- What stands before some partner stands before the partner. -/
theorem Partner.exists_iff (partner : Partner weight ps m e) :
    (∃ e, Partner weight ps m e ∧ m < n ∧ n < e) ↔ m < n ∧ n < e := by
  constructor
  · rintro ⟨e', partner', between⟩
    exact partner.unique partner' ▸ between
  · exact fun between => ⟨e, partner, between⟩

/-- When the depth comes down one by one, what goes up has a partner. -/
theorem exists_partner (steps : ∀ p, -1 ≤ weight p) (found : ps[m]? = some p) (opens : weight p = 1)
    (down : level weight ps ps.length ≤ level weight ps m) : ∃ e, Partner weight ps m e := by
  have first : level weight ps (m + 1) = level weight ps m + weight p := level_succ found
  have inside := (List.getElem?_eq_some_iff.mp found).1
  have some : ∃ n, m < n ∧ level weight ps n ≤ level weight ps m := ⟨ps.length, inside, down⟩
  classical
  obtain ⟨after, low⟩ := Nat.find_spec some
  have above : ∀ n, n < Nat.find some → m < n → level weight ps m < level weight ps n := by
    intro n less later
    by_contra high
    exact Nat.find_min some less ⟨later, by omega⟩
  -- The depth falls for the first time with the piece before.
  obtain ⟨e, he⟩ := Nat.exists_eq_add_one_of_ne_zero (by omega : Nat.find some ≠ 0)
  rw [he] at after low above
  have later : m < e := by
    by_contra earlier
    obtain rfl : m = e := by omega
    omega
  refine ⟨e, later, ?_, fun n le => above n (by omega)⟩
  have before := above e (by omega) later
  cases last : ps[e]? with
  | none =>
    have past := List.getElem?_eq_none_iff.mp last
    have flat : level weight ps e = level weight ps ps.length := level_of_length_le past
    omega
  | some q =>
    have step : level weight ps (e + 1) = level weight ps e + weight q := level_succ last
    have least := steps q
    omega

/-- Where the parentheses in a region are balanced, its end closes the list of the mark. -/
theorem Partner.lists_of_balanced (partner : Partner marks ps m e)
    (within : ∀ n, n ≤ e → m < n → level parens ps m ≤ level parens ps n)
    (balanced : level parens ps (e + 1) = level parens ps m) : Partner lists ps m e := by
  obtain ⟨after, same, above⟩ := partner
  refine ⟨after, ?_, fun n le later => ?_⟩
  · rw [level_lists, level_lists, same, balanced]
  · have higher := above n le later
    have kept := within n le later
    rw [level_lists, level_lists]
    omega

end Depth

/-! ### Open lists -/

/-- The pieces whose lists are open before the piece, the innermost first. -/
def openBefore (ps : List Piece) : Nat → List Nat
  | 0 => []
  | n + 1 =>
    match ps[n]? with
    | some .opening | some (.begins ..) => n :: openBefore ps n
    | some .closing | some .ends => (openBefore ps n).tail
    | some (.name _) | some .silent | none => openBefore ps n

variable {ps : List Piece} {m n k i : Nat} {p : Piece}

theorem openBefore_opens (found : ps[n]? = some p) (opens : p.lists = 1) :
    openBefore ps (n + 1) = n :: openBefore ps n := by
  rw [openBefore, found]
  cases p with
  | closing | ends | silent | name => simp [lists, parens, marks] at opens
  | opening | begins => rfl

theorem openBefore_closes (found : ps[n]? = some p) (closes : p.lists = -1) :
    openBefore ps (n + 1) = (openBefore ps n).tail := by
  rw [openBefore, found]
  cases p with
  | opening | begins | silent | name => simp [lists, parens, marks] at closes
  | closing | ends => rfl

theorem openBefore_keeps (found : ps[n]? = some p) (keeps : p.lists = 0) :
    openBefore ps (n + 1) = openBefore ps n := by
  rw [openBefore, found]
  cases p with
  | opening | begins | closing | ends => simp [lists, parens, marks] at keeps
  | silent | name => rfl

/-- What is open around an open list was open before it. -/
theorem openBefore_suffix {inner outer : List Nat} (opened : openBefore ps i = inner ++ m :: outer) :
    m < i ∧ outer = openBefore ps m := by
  induction i generalizing inner with
  | zero => simp [openBefore] at opened
  | succ i ih =>
    rw [openBefore] at opened
    have keep : ∀ inner, openBefore ps i = inner ++ m :: outer → m < i + 1 ∧ outer = openBefore ps m :=
      fun inner same => ⟨Nat.lt_succ_of_lt (ih same).1, (ih same).2⟩
    have push : i :: openBefore ps i = inner ++ m :: outer → m < i + 1 ∧ outer = openBefore ps m := by
      intro same
      cases inner with
      | nil =>
        obtain ⟨rfl, rfl⟩ := List.cons.inj same
        exact ⟨Nat.lt_succ_self _, rfl⟩
      | cons _ inner => exact keep inner (List.cons.inj same).2
    have pop : (openBefore ps i).tail = inner ++ m :: outer → m < i + 1 ∧ outer = openBefore ps m := by
      intro same
      cases before : openBefore ps i with
      | nil => simp [before] at same
      | cons top rest =>
        rw [before, List.tail_cons] at same
        exact keep (top :: inner) (by rw [before, same, List.cons_append])
    split at opened
    · exact push opened
    · exact push opened
    · exact pop opened
    · exact pop opened
    · exact keep inner opened
    · exact keep inner opened
    · exact keep inner opened

theorem openBefore_cons {outer : List Nat} (opened : openBefore ps i = m :: outer) :
    m < i ∧ outer = openBefore ps m := by
  have split : openBefore ps i = [] ++ m :: outer := opened
  exact openBefore_suffix split

/-- What is open was opened. -/
theorem lists_of_mem_openBefore (member : m ∈ openBefore ps i) : ∃ p, ps[m]? = some p ∧ p.lists = 1 := by
  induction i with
  | zero => simp [openBefore] at member
  | succ i ih =>
    cases found : ps[i]? with
    | none =>
      rw [openBefore, found] at member
      exact ih member
    | some p =>
      rcases p.lists_cases with change | change | change
      · rw [openBefore_opens found change] at member
        rcases List.mem_cons.mp member with rfl | member
        · exact ⟨p, found, change⟩
        · exact ih member
      · rw [openBefore_keeps found change] at member
        exact ih member
      · rw [openBefore_closes found change] at member
        exact ih (List.mem_of_mem_tail member)

theorem sorted_openBefore (ps : List Piece) (i : Nat) : (openBefore ps i).Pairwise (· > ·) := by
  induction i using Nat.strongRecOn with
  | _ i ih =>
    cases opened : openBefore ps i with
    | nil => exact .nil
    | cons m outer =>
      obtain ⟨less, rfl⟩ := openBefore_cons opened
      refine .cons (fun k hk => ?_) (ih m less)
      obtain ⟨inner, outer, split⟩ := List.append_of_mem hk
      exact (openBefore_suffix split).1

/-- Nothing is closed that was not opened: as many lists are open as the depth says. -/
def Sound (ps : List Piece) : Prop :=
  ∀ n, n ≤ ps.length → ((openBefore ps n).length : Int) = level lists ps n

/-- A list is open from the piece that opens it as long as the depth is greater. -/
theorem mem_openBefore (sound : Sound ps) (le : i ≤ ps.length) :
    m ∈ openBefore ps i ↔ m < i ∧ ∀ n, n ≤ i → m < n → level lists ps m < level lists ps n := by
  induction i with
  | zero => simp [openBefore]
  | succ i ih =>
    have ih := ih (by omega)
    obtain ⟨p, found⟩ : ∃ p, ps[i]? = some p := ⟨_, List.getElem?_eq_getElem (by omega)⟩
    have step : level lists ps (i + 1) = level lists ps i + p.lists := level_succ found
    have extend : (m < i + 1 ∧ ∀ n, n ≤ i + 1 → m < n → level lists ps m < level lists ps n) ↔
        (m = i ∨ m ∈ openBefore ps i) ∧ level lists ps m < level lists ps (i + 1) := by
      rw [ih]
      constructor
      · rintro ⟨less, above⟩
        refine ⟨?_, above _ (Nat.le_refl _) less⟩
        by_cases same : m = i
        · exact .inl same
        · exact .inr ⟨by omega, fun n le => above n (by omega)⟩
      · rintro ⟨rfl | ⟨less, above⟩, last⟩
        · refine ⟨by omega, fun n le later => ?_⟩
          obtain rfl : n = m + 1 := by omega
          exact last
        · refine ⟨by omega, fun n le later => ?_⟩
          by_cases same : n = i + 1
          · exact same ▸ last
          · exact above n (by omega) later
    rw [extend]
    rcases p.lists_cases with change | change | change
    · rw [openBefore_opens found change, List.mem_cons]
      refine (and_iff_left_of_imp ?_).symm
      rintro (rfl | member)
      · omega
      · have above := (ih.mp member).2 i (Nat.le_refl i) (ih.mp member).1
        omega
    · rw [openBefore_keeps found change]
      constructor
      · intro member
        have above := (ih.mp member).2 i (Nat.le_refl i) (ih.mp member).1
        exact ⟨.inr member, by omega⟩
      · rintro ⟨rfl | member, last⟩
        · omega
        · exact member
    · -- The innermost list is closed, and only the lists around it are as deep as the depth is left.
      have same := sound i (by omega)
      have same' := sound (i + 1) le
      rw [openBefore_closes found change] at same' ⊢
      cases opened : openBefore ps i with
      | nil =>
        rw [opened] at same same'
        simp only [List.tail_nil, List.length_nil] at same same'
        omega
      | cons top rest =>
        obtain ⟨less, rest_eq⟩ := openBefore_cons opened
        rw [opened, List.tail_cons] at same'
        rw [List.tail_cons, List.mem_cons]
        constructor
        · intro member
          obtain ⟨inner, outer, split⟩ := List.append_of_mem member
          obtain ⟨earlier, outer_eq⟩ := openBefore_suffix (rest_eq ▸ split)
          have depth := sound m (by omega)
          rw [← outer_eq] at depth
          rw [split, List.length_append, List.length_cons] at same'
          exact ⟨.inr (.inr member), by omega⟩
        · rintro ⟨rfl | rfl | member, last⟩
          · omega
          · have depth := sound m (by omega)
            rw [← rest_eq] at depth
            omega
          · exact member

/-- A piece that makes nodes stands between the piece that opens a list and its partner exactly when
the list is open. -/
theorem mem_openBefore_iff (sound : Sound ps) {c j : Nat} {v : Option String} (partner : Partner lists ps m c)
    (found : ps[i]? = some p) (makes : p.values[j]? = some v) : m ∈ openBefore ps i ↔ m < i ∧ i < c := by
  have inside := (List.getElem?_eq_some_iff.mp found).1
  have nonneg : 0 ≤ p.lists := lists_nonneg_of_values fun none => by simp [none] at makes
  rw [mem_openBefore sound (Nat.le_of_lt inside)]
  refine and_congr_right fun less => ⟨fun above => ?_, fun less' n le => partner.2.2 n (by omega)⟩
  have same := partner.2.1
  by_contra past
  by_cases here : i = c
  · have closes := partner.weight_neg (here ▸ found)
    omega
  · have higher := above (c + 1) (by omega) (by have := partner.1; omega)
    omega

end Piece

end CilPolicy
