import CilPolicy.Database.Order
import CilPolicy.Proofs.Report
import Mathlib.Data.List.Chain
import Mathlib.Data.List.Nodup
import Mathlib.Data.List.Sort

/-!
# The order that fragments leave

Merging puts no item where the fragments do not force it: whatever relation holds
between the neighbours of every fragment holds between the neighbours of the merged
list. So the neighbours of the merged list stand in that order in each list that has
all fragments as subsequences, and there is one such list of the same items.
-/

namespace CilPolicy

namespace Order

variable {α β : Type}

/-! ### One merge -/

/-- What a merge of two lists gives: both are subsequences, nothing else is there, and
neighbours are related as those of the two lists are. -/
structure Merges (old new merged : List α) : Prop where
  old_sublist : old.Sublist merged
  new_sublist : new.Sublist merged
  items : ∀ x ∈ merged, x ∈ old ∨ x ∈ new
  neighbours : ∀ R : α → α → Prop, old.IsChain R → new.IsChain R → merged.IsChain R

theorem Merges.symm {old new merged : List α} (h : Merges old new merged) :
    Merges new old merged where
  old_sublist := h.new_sublist
  new_sublist := h.old_sublist
  items := fun x hx => (h.items x hx).symm
  neighbours := fun R hnew hold => h.neighbours R hold hnew

theorem Merges.of_sublist {old new : List α} (h : new.Sublist old) : Merges old new old where
  old_sublist := .refl old
  new_sublist := h
  items := fun _ hx => .inl hx
  neighbours := fun _ hold _ => hold

/-- Items that stand in one list between two shared items go between them. -/
theorem Merges.gap {a : α} {olds news tail : List α} (h : Merges (a :: olds) (a :: news) (a :: tail))
    (p : α) (gap : List α) :
    Merges (p :: a :: olds) (p :: (gap ++ a :: news)) (p :: (gap ++ a :: tail)) where
  old_sublist := (h.old_sublist.trans (List.sublist_append_right gap _)).cons_cons p
  new_sublist := ((List.Sublist.refl gap).append h.new_sublist).cons_cons p
  items := by
    intro x hx
    rcases List.mem_cons.mp hx with here | hx
    · exact .inl (by simp [here])
    · rcases List.mem_append.mp hx with inGap | behind
      · exact .inr (by simp [inGap])
      · rcases h.items x behind with hold | hnew
        · exact .inl (List.mem_cons_of_mem p hold)
        · exact .inr (List.mem_cons_of_mem p (List.mem_append_right gap hnew))
  neighbours := by
    intro R hold hnew
    rw [← List.cons_append, List.isChain_split] at hnew ⊢
    exact ⟨hnew.1, h.neighbours R hold.tail hnew.2⟩

/-- The items in front of the first shared one go in front of the whole list. -/
theorem Merges.front {a : α} {olds news tail : List α} (h : Merges (a :: olds) (a :: news) (a :: tail))
    (gap : List α) : Merges (a :: olds) (gap ++ a :: news) (gap ++ a :: tail) where
  old_sublist := h.old_sublist.trans (List.sublist_append_right gap _)
  new_sublist := (List.Sublist.refl gap).append h.new_sublist
  items := by
    intro x hx
    rcases List.mem_append.mp hx with inGap | behind
    · exact .inr (List.mem_append_left _ inGap)
    · exact (h.items x behind).imp_right (List.mem_append_right gap)
  neighbours := by
    intro R hold hnew
    rw [List.isChain_split] at hnew ⊢
    exact ⟨hnew.1, h.neighbours R hold hnew.2⟩

variable [DecidableEq α]

theorem place_eq_ok {after before items result : List α}
    (run : place after before items = .ok result) (nodup : (before ++ after).Nodup) :
    result = before ++ items ∧ (before ++ items ++ after).Nodup := by
  induction items generalizing before with
  | nil =>
    cases run
    simpa using nodup
  | cons x xs ih =>
    rw [place] at run
    split at run
    · cases run
    · rename_i fresh
      have added : (before ++ [x] ++ after).Nodup := by
        rw [List.append_assoc, List.singleton_append, List.nodup_middle]
        exact List.nodup_cons.mpr ⟨by simpa using fresh, nodup⟩
      simpa using ih run added

omit [DecidableEq α] in
theorem split_at_index {l : List α} {k : Nat} {a : α} (h : l[k]? = some a) :
    l = l.take k ++ a :: l.drop (k + 1) ∧ l.take (k + 1) = l.take k ++ [a] := by
  obtain ⟨inside, rfl⟩ := List.getElem?_eq_some_iff.mp h
  constructor
  · rw [← List.drop_eq_getElem_cons inside, List.take_append_drop]
  · exact List.take_succ_eq_append_getElem inside

theorem getElem?_of_idxOf? {a : α} {l : List α} {k : Nat} (h : l.idxOf? a = some k) :
    l[k]? = some a := by
  obtain ⟨inside, here, _⟩ := List.idxOf?_eq_some_iff.mp h
  exact List.getElem?_eq_some_iff.mpr ⟨inside, here⟩

/-- What is behind a shared item `p` is merged as if the two lists began with it. -/
theorem mergeBehind_eq_ok {front olds news result : List α}
    (run : mergeBehind front olds news = .ok result) (nodup : (front ++ olds).Nodup) :
    ∃ tail, result = front ++ tail ∧ (front ++ tail).Nodup ∧
      ∀ p, Merges (p :: olds) (p :: news) (p :: tail) := by
  fun_induction mergeBehind front olds news with
  | case1 front olds =>
    cases run
    exact ⟨olds, rfl, nodup, fun p => .of_sublist (by simp)⟩
  | case2 front n ns =>
    obtain ⟨rfl, placed⟩ := place_eq_ok run nodup
    have whole : (front ++ n :: ns).Nodup := by simpa using placed
    exact ⟨n :: ns, rfl, whole, fun p => (Merges.of_sublist (by simp)).symm⟩
  | case3 front os o ns ih =>
    obtain ⟨tail, rfl, whole, merges⟩ := ih run (by simpa using nodup)
    exact ⟨o :: tail, by simp, by simpa using whole, fun p => (merges o).gap p []⟩
  | case4 front o os n ns _ k found ih =>
    obtain ⟨front', placed, run⟩ := bind_eq_ok.mp run
    obtain ⟨rfl, nodup'⟩ := place_eq_ok placed nodup
    obtain ⟨tail, rfl, whole, merges⟩ := ih _ run (by simpa using nodup')
    obtain ⟨news, _⟩ := split_at_index (getElem?_of_idxOf? found)
    refine ⟨n :: ns.take k ++ o :: tail, by simp, by simpa using whole, ?_⟩
    intro p
    have gap := (merges o).gap p (n :: ns.take k)
    rwa [List.cons_append, ← news] at gap
  | case5 front o os n ns _ _ k found ih =>
    obtain ⟨olds, skipped⟩ := split_at_index (getElem?_of_idxOf? found)
    have nodup' : (front ++ o :: os.take (k + 1) ++ os.drop (k + 1)).Nodup := by
      simpa using nodup
    obtain ⟨tail, rfl, whole, merges⟩ := ih run nodup'
    refine ⟨o :: os.take k ++ n :: tail, by simp [skipped], by simpa [skipped] using whole, ?_⟩
    intro p
    have gap := ((merges n).symm.gap p (o :: os.take k)).symm
    rwa [List.cons_append, ← olds] at gap
  | case6 => cases run

theorem anchor?_eq_some {old new : List α} {n o : Nat} (h : anchor? old new = some (n, o)) :
    ∃ a, old[o]? = some a ∧ new[n]? = some a := by
  rw [anchor?] at h
  split at h
  · cases h
  · obtain ⟨_, here, pair⟩ := Option.map_eq_some_iff.mp h
    cases pair
    obtain ⟨a, hn, ho⟩ := Option.bind_eq_some_iff.mp here
    exact ⟨a, getElem?_of_idxOf? ho, hn⟩

theorem merge_eq_ok {old new merged : List α} (run : merge old new = .ok merged)
    (nodup : old.Nodup) : merged.Nodup ∧ Merges old new merged := by
  rw [merge] at run
  split at run
  · rename_i none
    cases run
    exact ⟨nodup, .of_sublist (by simp [List.isEmpty_iff.mp none])⟩
  split at run
  · rename_i none
    obtain ⟨rfl, placed⟩ := place_eq_ok run .nil
    refine ⟨by simpa using placed, (Merges.of_sublist ?_).symm⟩
    simp [List.isEmpty_iff.mp none]
  split at run
  · cases run
  rename_i n o met
  split at run
  · cases run
  rename_i atEnd
  obtain ⟨a, ho, hn⟩ := anchor?_eq_some met
  obtain ⟨olds, skipped⟩ := split_at_index ho
  obtain ⟨news, _⟩ := split_at_index hn
  obtain ⟨front, placed, run⟩ := bind_eq_ok.mp run
  obtain ⟨rfl, nodup'⟩ := place_eq_ok placed nodup
  have nodup'' : ([] ++ new.take n ++ old.take (o + 1) ++ old.drop (o + 1)).Nodup := by
    simpa using nodup'
  obtain ⟨tail, rfl, whole, merges⟩ := mergeBehind_eq_ok run nodup''
  refine ⟨whole, ?_⟩
  -- The shared item is the first of the fragment or the first of the list.
  rcases Nat.eq_zero_or_pos n with rfl | away
  · have front := ((merges a).symm.front (old.take o)).symm
    rw [List.take_zero, List.nil_append] at news
    rw [← olds, ← news] at front
    simpa [skipped] using front
  · obtain rfl : o = 0 := by omega
    have front := (merges a).front (new.take n)
    rw [List.take_zero, List.nil_append] at olds
    rw [← olds, ← news] at front
    simpa [skipped] using front

/-! ### Merging in place -/

section

omit [DecidableEq α]

theorem slice?_append (front l back : List α) :
    slice? (front ++ (l ++ back)) front.length (front.length + l.length) = some l := by
  rw [slice?, if_pos ⟨Nat.le_add_right _ _, by simp⟩, ← List.append_assoc, ← List.length_append,
    List.take_left, List.drop_left]

/-- What is behind a cursor and its item. -/
theorem slice?_behind (front : List α) (a : α) (l : List α) :
    slice? (front ++ a :: l) (front.length + 1) (front ++ a :: l).length = some l := by
  have whole := slice?_append (front ++ [a]) l []
  simpa [← Nat.add_assoc, Nat.add_right_comm] using whole

theorem getElem?_behind (front : List α) (a : α) (l : List α) : (front ++ a :: l)[front.length]? = some a := by
  simp

theorem insertIdx_between (front back : List α) (x : α) :
    (front ++ back).insertIdx front.length x = front ++ x :: back := by
  induction front with
  | nil => rfl
  | cons a front ih => rw [List.cons_append, List.length_cons, List.insertIdx_succ_cons, ih, List.cons_append]

end

/-- Items that are inserted between two parts of the list are placed there. -/
theorem insertAll?_eq (before after items : List α) : insertAll? (before ++ after) before.length items =
    some ((place after before items).map (· ++ after)) := by
  induction items generalizing before with
  | nil => rfl
  | cons x xs ih =>
    rw [insertAll?, place]
    by_cases there : x ∈ before ∨ x ∈ after
    · rw [if_pos there, if_pos (List.mem_append.mpr there)]
      rfl
    · have step := ih (before ++ [x])
      rw [List.length_append, List.append_assoc, List.singleton_append] at step
      rw [if_neg there, if_neg (mt List.mem_append.mp there), if_pos (by simp), insertIdx_between]
      exact step

theorem eq_of_place {after before items result : List α} (run : place after before items = .ok result) :
    result = before ++ items := by
  induction items generalizing before with
  | nil =>
    cases run
    rw [List.append_nil]
  | cons x xs ih =>
    rw [place] at run
    split at run
    · cases run
    · rw [ih run, List.append_assoc, List.singleton_append]

/-- The cursors stay inside their lists, and what is behind them is what is left to merge. -/
theorem mergeFrom?_eq (front olds news passed : List α) :
    mergeFrom? (passed ++ news) (front ++ olds) passed.length front.length =
      some (mergeBehind front olds news) := by
  fun_induction mergeBehind front olds news generalizing passed with
  | case1 front olds =>
    rw [mergeFrom?, if_neg (by simp)]
    simp [slice?, insertAll?]
  | case2 front n ns =>
    have rest := slice?_append passed (n :: ns) []
    have whole := insertAll?_eq front [] (n :: ns)
    simp only [List.append_nil, ← List.length_append] at rest whole ⊢
    rw [mergeFrom?, if_neg (by simp), Nat.min_eq_left (by simp), rest, Option.bind_eq_bind, Option.bind_some,
      whole]
    cases place [] front (n :: ns) <;> simp [Except.map]
  | case3 front os o ns ih =>
    have step := ih (passed ++ [o])
    simp only [List.length_append, List.append_assoc, List.singleton_append, List.length_singleton] at step
    rw [mergeFrom?, if_pos (by simp)]
    simpa using step
  | case4 front o os n ns differ k found ih =>
    -- The next item of the list is further on in the fragment, whose items up to it are put in.
    obtain ⟨news, _⟩ := split_at_index (getElem?_of_idxOf? found)
    obtain ⟨inside, _, _⟩ := List.idxOf?_eq_some_iff.mp found
    have gap := slice?_append passed (n :: ns.take k) (o :: ns.drop (k + 1))
    rw [List.cons_append, ← news, List.length_cons, List.length_take_of_le (Nat.le_of_lt inside)] at gap
    rw [mergeFrom?, if_pos (by simp)]
    simp only [getElem?_behind, slice?_behind, Option.bind_eq_bind, Option.bind_some, if_neg differ, found,
      Nat.add_assoc, gap, insertAll?_eq]
    cases placed : place (o :: os) front (n :: ns.take k) with
    | error fault => rfl
    | ok front' =>
      obtain rfl := eq_of_place placed
      have step := ih (front ++ n :: ns.take k) (passed ++ n :: ns.take k ++ [o])
      have shift : ∀ l : List α, (l ++ n :: ns.take k ++ [o]).length = l.length + (k + 2) := by
        intro l
        simp [Nat.le_of_lt inside]
      have joined : passed ++ n :: ns.take k ++ [o] ++ ns.drop (k + 1) = passed ++ n :: ns := by
        simp [← news]
      rw [shift, shift, joined, List.append_assoc _ [o], List.singleton_append] at step
      exact step
  | case5 front o os n ns differ absent k found ih =>
    -- The next item of the fragment is further on in the list, where the cursor goes behind it.
    obtain ⟨inside, _, _⟩ := List.idxOf?_eq_some_iff.mp found
    have step := ih (passed ++ [n])
    have shift : (front ++ o :: os.take (k + 1)).length = front.length + (k + 2) := by
      simp [Nat.succ_le_of_lt inside]
    have joined : front ++ o :: os.take (k + 1) ++ os.drop (k + 1) = front ++ o :: os := by
      simp
    rw [shift, joined, List.append_assoc, List.singleton_append, List.length_append, List.length_singleton] at step
    rw [mergeFrom?, if_pos (by simp)]
    simp only [getElem?_behind, slice?_behind, Option.bind_eq_bind, Option.bind_some, if_neg differ, absent, found]
    exact step
  | case6 front o os n ns differ absent absent' =>
    rw [mergeFrom?, if_pos (by simp)]
    simp only [getElem?_behind, slice?_behind, Option.bind_eq_bind, Option.bind_some, if_neg differ, absent, absent']

/-- Merging in place never leaves its lists, and gives what the merge of the two lists gives. -/
theorem mergeInPlace?_eq (old new : List α) : mergeInPlace? old new = some (merge old new) := by
  rw [mergeInPlace?, merge]
  split
  · rfl
  split
  · rename_i none
    obtain rfl := List.isEmpty_iff.mp none
    have whole := insertAll?_eq [] [] new
    rw [List.append_nil] at whole
    rw [whole]
    cases place [] [] new <;> simp [Except.map]
  cases met : anchor? old new with
  | none => rfl
  | some found =>
    obtain ⟨n, o⟩ := found
    dsimp only
    split
    · rfl
    obtain ⟨_, ho, hn⟩ := anchor?_eq_some met
    obtain ⟨before, _⟩ := List.getElem?_eq_some_iff.mp ho
    obtain ⟨inside, _⟩ := List.getElem?_eq_some_iff.mp hn
    have front : slice? new 0 n = some (new.take n) := by
      simp [slice?, Nat.le_of_lt inside]
    have inserted := insertAll?_eq [] old (new.take n)
    rw [List.nil_append, List.length_nil] at inserted
    rw [front, Option.bind_eq_bind, Option.bind_some, inserted]
    cases placed : place old [] (new.take n) with
    | error fault => rfl
    | ok front =>
      obtain rfl := eq_of_place placed
      have step := mergeFrom?_eq (new.take n ++ old.take (o + 1)) (old.drop (o + 1)) (new.drop (n + 1))
        (new.take (n + 1))
      have shift : (new.take n ++ old.take (o + 1)).length = o + n + 1 := by
        rw [List.length_append, List.length_take_of_le (Nat.le_of_lt inside), List.length_take_of_le before]
        omega
      rw [shift, List.append_assoc, List.take_append_drop, List.take_append_drop,
        List.length_take_of_le inside] at step
      exact step

/-! ### The order of a list of fragments -/

omit [DecidableEq α] in
theorem isChain_sublist (l : List α) : l.IsChain fun x y => [x, y].Sublist l := by
  rw [List.isChain_iff_forall_rel_of_append_cons_cons]
  rintro x y before after rfl
  have head : [x, y].Sublist (x :: y :: after) := by simp
  exact head.trans (List.sublist_append_right before _)

/-- A list that could be the order: each item of the fragments once, and every fragment
as a subsequence. -/
structure Consistent (fragments : List (List α)) (order : List α) : Prop where
  nodup : order.Nodup
  items : ∀ x, x ∈ order ↔ ∃ f ∈ fragments, x ∈ f
  subsequence : ∀ f ∈ fragments, f.Sublist order

/-- Each item but the last is before the next one in some fragment. -/
def Forced (fragments : List (List α)) (order : List α) : Prop :=
  order.IsChain fun x y => ∃ f ∈ fragments, [x, y].Sublist f

theorem pairwise_idxOf {l : List α} (nodup : l.Nodup) :
    l.Pairwise fun x y => l.idxOf x < l.idxOf y := by
  rw [List.pairwise_iff_getElem]
  intro i j hi hj hlt
  rwa [nodup.idxOf_getElem, nodup.idxOf_getElem]

/-- There is one consistent order when its neighbours are forced. -/
theorem Consistent.eq_of_forced {fragments : List (List α)} {order other : List α}
    (consistent : Consistent fragments order) (forced : Forced fragments order)
    (that : Consistent fragments other) : other = order := by
  let Before (x y : α) : Prop := other.idxOf x < other.idxOf y
  have : Trans Before Before Before := ⟨Nat.lt_trans⟩
  have ordered : other.Pairwise Before := pairwise_idxOf that.nodup
  have before : order.Pairwise Before := by
    refine List.isChain_iff_pairwise.mp (List.IsChain.imp ?_ forced)
    rintro x y ⟨f, hf, sub⟩
    exact List.pairwise_iff_forall_sublist.mp ordered (sub.trans (that.subsequence f hf))
  have perm : other.Perm order := by
    refine (List.perm_ext_iff_of_nodup that.nodup consistent.nodup).mpr ?_
    intro x
    rw [that.items, consistent.items]
  refine perm.eq_of_pairwise ?_ ordered before
  intro x y _ _ hxy hyx
  exact absurd hxy (Nat.lt_asymm hyx)

/-- What merging keeps: an order of the fragments that were placed, whose neighbours
they force. -/
structure Arranges (placed : List (List α)) (merged : List α) : Prop where
  consistent : Consistent placed merged
  forced : Forced placed merged

omit [DecidableEq α] in
theorem arranges_nil : Arranges ([] : List (List α)) [] where
  consistent := ⟨.nil, by simp, by simp⟩
  forced := .nil

omit [DecidableEq α] in
theorem Consistent.congr {fragments fragments' : List (List α)} {order : List α}
    (h : Consistent fragments order) (same : ∀ f, f ∈ fragments ↔ f ∈ fragments') :
    Consistent fragments' order where
  nodup := h.nodup
  items := by
    intro x
    simp only [h.items, same]
  subsequence := fun f hf => h.subsequence f ((same f).mpr hf)

omit [DecidableEq α] in
theorem Arranges.congr {placed placed' : List (List α)} {merged : List α}
    (h : Arranges placed merged) (same : ∀ f, f ∈ placed ↔ f ∈ placed') :
    Arranges placed' merged where
  consistent := h.consistent.congr same
  forced := h.forced.imp fun _ _ ⟨f, hf, sub⟩ => ⟨f, (same f).mp hf, sub⟩

/-- One more fragment. -/
theorem Arranges.merge {placed : List (List α)} {old new merged : List α}
    (h : Arranges placed old) (run : merge old new = .ok merged) :
    Arranges (new :: placed) merged := by
  obtain ⟨nodup, merges⟩ := merge_eq_ok run h.consistent.nodup
  refine ⟨⟨nodup, ?_, ?_⟩, ?_⟩
  · intro x
    rw [List.exists_mem_cons_iff, ← h.consistent.items]
    constructor
    · exact fun hx => (merges.items x hx).symm
    · rintro (hx | hx)
      · exact merges.new_sublist.subset hx
      · exact merges.old_sublist.subset hx
  · intro f hf
    rcases List.mem_cons.mp hf with rfl | hf
    · exact merges.new_sublist
    · exact (h.consistent.subsequence f hf).trans merges.old_sublist
  · refine merges.neighbours _ (h.forced.imp ?_) ((isChain_sublist new).imp ?_)
    · rintro x y ⟨f, hf, sub⟩
      exact ⟨f, List.mem_cons_of_mem new hf, sub⟩
    · intro x y sub
      exact ⟨new, List.mem_cons_self, sub⟩

/-! ### Rounds -/

/-- The fragments that a round has left over. -/
def Round.waiting (r : Round α β) : List β := r.left.map (·.1)

/-- A round in progress: of the fragments that were tried, some are arranged and the
others wait. -/
def Round.Tried (items : β → List α) (tried : List (List α)) (r : Round α β) : Prop :=
  ∃ placed, Arranges placed r.merged ∧ ∀ f, f ∈ tried ↔ f ∈ placed ∨ f ∈ r.waiting.map items

theorem Round.Tried.attempt {items : β → List α} {tried : List (List α)} {r : Round α β}
    (h : r.Tried items tried) (fragment : β) :
    (r.attempt items fragment).Tried items (items fragment :: tried) := by
  obtain ⟨placed, arranges, known⟩ := h
  rw [Round.attempt]
  split
  · rename_i merged run
    refine ⟨items fragment :: placed, arranges.merge run, ?_⟩
    intro f
    rw [List.mem_cons, List.mem_cons, known, or_assoc]
    rfl
  · rename_i fault _
    refine ⟨placed, arranges, ?_⟩
    intro f
    rw [List.mem_cons, known]
    simp only [waiting, List.map_append, List.mem_append, List.map_cons, List.map_nil,
      List.mem_singleton]
    rw [or_comm, or_assoc]

theorem Round.Tried.foldl {items : β → List α} {tried : List (List α)} {r : Round α β}
    (h : r.Tried items tried) (pending : List β) :
    (pending.foldl (Round.attempt items) r).Tried items (pending.map items ++ tried) := by
  induction pending generalizing r tried with
  | nil => exact h
  | cons fragment rest ih =>
    obtain ⟨placed, arranges, known⟩ := ih (h.attempt fragment)
    refine ⟨placed, arranges, ?_⟩
    intro f
    rw [List.foldl_cons, ← known]
    simp only [List.map_cons, List.mem_append, List.mem_cons]
    rw [or_assoc, or_left_comm]

theorem round_tried (items : β → List α) {placed : List (List α)} {merged : List α}
    (h : Arranges placed merged) (pending : List β) :
    (round items merged pending).Tried items (pending.map items ++ placed) := by
  have start : Round.Tried items placed (⟨merged, []⟩ : Round α β) :=
    ⟨placed, h, by simp [Round.waiting]⟩
  exact start.foldl pending

/-- Merging that ends well has arranged all fragments. -/
theorem mergeRounds_eq_ok {items : β → List α} {placed : List (List α)} {merged result : List α}
    {pending : List β} (run : mergeRounds items merged pending = .ok result)
    (h : Arranges placed merged) : Arranges (pending.map items ++ placed) result := by
  fun_induction mergeRounds items merged pending generalizing placed with
  | case1 merged pending r =>
    rename_i done
    cases run
    obtain ⟨placed', arranges, known⟩ := round_tried items h pending
    have none : (round items merged pending).waiting = [] :=
      List.map_eq_nil_iff.mpr (List.isEmpty_iff.mp done)
    refine arranges.congr ?_
    intro f
    rw [known, none]
    simp
  | case2 merged pending r _ _ =>
    rename_i ih
    obtain ⟨placed', arranges, known⟩ := round_tried items h pending
    refine (ih run arranges).congr ?_
    intro f
    rw [known, List.mem_append, or_comm]
    rfl
  | case3 => cases run

theorem left_ne_nil_of_mergeRounds {items : β → List α} {merged : List α} {pending : List β}
    {left : List (β × MergeFault α)} (run : mergeRounds items merged pending = .error left) :
    left ≠ [] := by
  fun_induction mergeRounds items merged pending with
  | case1 => cases run
  | case2 merged pending r _ _ =>
    rename_i ih
    exact ih run
  | case3 merged pending r =>
    rename_i some _
    cases run
    intro none
    exact some (List.isEmpty_iff.mpr none)

theorem foldl_appendItem_fst (lists : List α × List α) (items : List α) :
    (items.foldl appendItem lists).1 =
      lists.1 ++ (items.filter (· ∉ lists.1)).eraseDups := by
  induction items generalizing lists with
  | nil => simp
  | cons x xs ih =>
    rw [List.foldl_cons, ih, appendItem]
    by_cases hx : x ∈ lists.1
    · rw [if_pos hx, List.filter_cons_of_neg (by simp [hx])]
    · rw [if_neg hx, List.filter_cons_of_pos (by simp [hx]), List.eraseDups_cons, List.filter_filter]
      simp [and_comm, beq_eq_decide]

/-- Items without a place follow in the order in which they appear first. -/
theorem appendUnordered_fst (merged items : List α) :
    (appendUnordered merged items).1 = merged ++ (items.filter (· ∉ merged)).eraseDups :=
  foldl_appendItem_fst (merged, []) items

end Order

/-! ### The total order -/

/-- Merging that ends well gives the one order that is consistent with the fragments, and
behind it the items of the unordered fragments that have no place there. -/
theorem mergeFragments_yields {kind : OrderKind} {name : Id → String}
    {fragments unordered : List Fragment} {result : List Id}
    (yields : (mergeFragments kind name fragments unordered).Yields result) :
    ∃ ordered, Order.Arranges (fragments.map (·.items)) ordered ∧
      result = ordered ++ ((unordered.flatMap (·.items)).filter (· ∉ ordered)).eraseDups := by
  rw [mergeFragments] at yields
  split at yields
  · rename_i left failed
    obtain ⟨_, rejected, _⟩ := Report.yields_bind yields
    have none := List.map_eq_nil_iff.mp (Report.yields_reject rejected)
    exact absurd none (Order.left_ne_nil_of_mergeRounds failed)
  · rename_i ordered merged
    have arranges := Order.mergeRounds_eq_ok merged Order.arranges_nil
    rw [List.append_nil] at arranges
    obtain ⟨_, _, last⟩ := Report.yields_bind yields
    exact ⟨ordered, arranges, (Report.yields_pure last).trans (Order.appendUnordered_fst ordered _)⟩

theorem mergeFragments_eq_ok {kind : OrderKind} {name : Id → String}
    {fragments unordered : List Fragment} {result : List Id}
    (run : (mergeFragments kind name fragments unordered).outcome.1 = .ok result) :
    ∃ ordered, Order.Arranges (fragments.map (·.items)) ordered ∧
      result = ordered ++ ((unordered.flatMap (·.items)).filter (· ∉ ordered)).eraseDups :=
  mergeFragments_yields (Report.yields_of_outcome run)

/-- The items of a merged order are those of the fragments. -/
theorem mem_of_mergeFragments {kind : OrderKind} {name : Id → String}
    {fragments unordered : List Fragment} {result : List Id}
    (yields : (mergeFragments kind name fragments unordered).Yields result) {id : Id}
    (h : id ∈ result) : (∃ f ∈ fragments, id ∈ f.items) ∨ ∃ f ∈ unordered, id ∈ f.items := by
  obtain ⟨ordered, arranges, rfl⟩ := mergeFragments_yields yields
  rcases List.mem_append.mp h with h | h
  · obtain ⟨items, hitems, hid⟩ := (arranges.consistent.items id).mp h
    obtain ⟨f, hf, rfl⟩ := List.mem_map.mp hitems
    exact Or.inl ⟨f, hf, hid⟩
  · have listed := (List.mem_filter.mp (List.mem_eraseDups.mp h)).1
    exact Or.inr (List.mem_flatMap.mp listed)

theorem nodup_eraseDups (l : List Id) : l.eraseDups.Nodup := by
  match l with
  | [] => simp
  | a :: rest =>
    rw [List.eraseDups_cons, List.nodup_cons]
    refine ⟨?_, nodup_eraseDups _⟩
    rw [List.mem_eraseDups, List.mem_filter]
    simp
termination_by l.length
decreasing_by exact Nat.lt_succ_of_le (List.length_filter_le _ _)

theorem nodup_mergeFragments {kind : OrderKind} {name : Id → String}
    {fragments unordered : List Fragment} {result : List Id}
    (yields : (mergeFragments kind name fragments unordered).Yields result) : result.Nodup := by
  obtain ⟨ordered, arranges, rfl⟩ := mergeFragments_yields yields
  refine List.nodup_append.mpr ⟨arranges.consistent.nodup, nodup_eraseDups _, ?_⟩
  intro a ha b hb
  have unplaced := (List.mem_filter.mp (List.mem_eraseDups.mp hb)).2
  rintro rfl
  simp [ha] at unplaced

/-- Merging that ends well leaves the unique consistent order of the fragments, followed
by the items of unordered fragments that have no place in it, each where it appears
first. The order in which the fragments come does not matter. -/
theorem mergeFragments_unique {kind : OrderKind} {name : Id → String}
    {fragments unordered : List Fragment} {result : List Id}
    (run : (mergeFragments kind name fragments unordered).outcome.1 = .ok result) :
    (∃ ordered, Order.Consistent (fragments.map (·.items)) ordered ∧
      (∀ other, Order.Consistent (fragments.map (·.items)) other → other = ordered) ∧
      result = ordered ++ ((unordered.flatMap (·.items)).filter (· ∉ ordered)).eraseDups) ∧
    ∀ fragments' result', fragments'.Perm fragments →
      (mergeFragments kind name fragments' unordered).outcome.1 = .ok result' →
      result' = result := by
  obtain ⟨ordered, arranges, rfl⟩ := mergeFragments_eq_ok run
  have unique : ∀ other, Order.Consistent (fragments.map (·.items)) other → other = ordered :=
    fun _ => arranges.consistent.eq_of_forced arranges.forced
  refine ⟨⟨ordered, arranges.consistent, unique, rfl⟩, ?_⟩
  intro fragments' result' perm run'
  obtain ⟨ordered', arranges', rfl⟩ := mergeFragments_eq_ok run'
  have same : ∀ f, f ∈ fragments'.map (·.items) ↔ f ∈ fragments.map (·.items) :=
    fun f => (perm.map _).mem_iff
  rw [unique ordered' (arranges'.consistent.congr same)]

/-- Three fragments, of which the second waits for the third. -/
def waitingFragments : List Fragment :=
  [[0, 1], [2, 3], [1, 2]].map fun items => { items, location := {} }

theorem mergeFragments_unique_waiting :
    (mergeFragments .category toString waitingFragments
      [{ items := [3, 4, 4, 1], location := {} }]).outcome.1 = .ok [0, 1, 2, 3, 4] ∧
    ∀ fragments' result', fragments'.Perm waitingFragments →
      (mergeFragments .category toString fragments'
        [{ items := [3, 4, 4, 1], location := {} }]).outcome.1 = .ok result' →
      result' = [0, 1, 2, 3, 4] := by
  have run : (mergeFragments .category toString waitingFragments
      [{ items := [3, 4, 4, 1], location := {} }]).outcome.1 = .ok [0, 1, 2, 3, 4] := by
    decide +kernel
  exact ⟨run, (mergeFragments_unique run).2⟩

end CilPolicy
