import CilPolicy.Evaluation.Database
import CilPolicy.Proofs.Lowering.Policy
import Mathlib.Data.List.Basic

/-!
# What sorting leaves of labels

Labels are sorted, and of labels that compare equal the first that was given is kept. A sort without
conflicts therefore has an equal for each label, in the same context. For most kinds, labels that
compare equal select the same, and nothing is lost. Ranges are compared by their width and their low
end, and all ranges that run backwards are of no width; so a label can be dropped for another that
selects something else, and the labels to which this happens are known exactly.
-/

namespace CilPolicy

/-! ### Stable sorting -/

/-- Sorting leaves the order of elements that may come in either order. -/
theorem filter_mergeSort {α : Type} {le : α → α → Bool} (trans : ∀ a b c, le a b → le b c → le a c)
    (total : ∀ a b, le a b || le b a) {p : α → Bool} (ties : ∀ a b, p a = true → p b = true → le a b = true)
    (l : List α) : (l.mergeSort le).filter p = l.filter p := by
  have sorted : (l.filter p).Pairwise fun a b => le a b = true := by
    refine List.pairwise_of_forall_mem_list fun a ha b hb => ?_
    exact ties a b (List.mem_filter.mp ha).2 (List.mem_filter.mp hb).2
  have sub : (l.filter p).Sublist (l.mergeSort le) :=
    List.sublist_mergeSort trans total sorted List.filter_sublist
  have whole : (l.filter p).Sublist ((l.mergeSort le).filter p) := by
    simpa using sub.filter p
  exact (whole.eq_of_length ((List.mergeSort_perm l le).filter p).length_eq.symm).symm

theorem find?_mergeSort {α : Type} {le : α → α → Bool} (trans : ∀ a b c, le a b → le b c → le a c)
    (total : ∀ a b, le a b || le b a) {p : α → Bool} (ties : ∀ a b, p a = true → p b = true → le a b = true)
    (l : List α) : (l.mergeSort le).find? p = l.find? p := by
  rw [← List.head?_filter, ← List.head?_filter, filter_mergeSort trans total ties]

/-! ### The first of equal labels -/

section Firsts

variable {σ κ : Type} {cmp : σ → σ → Ordering} {agrees : κ → κ → Bool} {keyword : String}
  {labels kept rest : List (Label σ κ)} {x y : Label σ κ} {s t : σ}

/-- The first label that compares equal to a selector. -/
def firstLike (cmp : σ → σ → Ordering) (labels : List (Label σ κ)) (s : σ) : Option (Label σ κ) :=
  labels.find? fun y => cmp y.selector s == .eq

theorem firstLike_some (h : firstLike cmp labels s = some y) : y ∈ labels ∧ cmp y.selector s = .eq :=
  ⟨List.mem_of_find?_eq_some h, by simpa using List.find?_some h⟩

theorem firstLike_eq_none : firstLike cmp labels s = none ↔ ∀ y ∈ labels, cmp y.selector s ≠ .eq := by
  simp [firstLike]

theorem exists_firstLike (mem : x ∈ labels) (tie : cmp x.selector s = .eq) :
    ∃ y, firstLike cmp labels s = some y := by
  cases h : firstLike cmp labels s with
  | some y => exact ⟨y, rfl⟩
  | none => exact absurd tie (firstLike_eq_none.mp h x mem)

/-- With one more label, the first is what it was, or the new one when there was none. -/
theorem firstLike_concat : firstLike cmp (labels ++ [x]) s = some y ↔
    firstLike cmp labels s = some y ∨ firstLike cmp labels s = none ∧ cmp x.selector s = .eq ∧ x = y := by
  rw [firstLike, List.find?_append, Option.or_eq_some_iff]
  refine or_congr_right (and_congr_right fun _ => ?_)
  by_cases tie : cmp x.selector s = .eq <;> simp [tie]

theorem firstLike_congr [Std.TransCmp cmp] (tie : cmp s t = .eq) :
    firstLike cmp labels s = firstLike cmp labels t := by
  have same : ∀ y : Label σ κ, cmp y.selector s = cmp y.selector t :=
    fun y => Std.TransCmp.congr_right tie
  simp only [firstLike, same]

/-- The labels that are kept ascend, and are those that are the first among their equals. Every label
agrees with the first among its equals, unless it is the first itself. -/
structure KeepsFirsts (cmp : σ → σ → Ordering) (agrees : κ → κ → Bool) (labels kept : List (Label σ κ)) :
    Prop where
  ascending : kept.Pairwise fun a b => cmp a.selector b.selector = .lt
  mem_iff : ∀ y, y ∈ kept ↔ firstLike cmp labels y.selector = some y
  agree : ∀ x ∈ labels, ∀ y, firstLike cmp labels x.selector = some y → y = x ∨ agrees y.context x.context = true

theorem keepsFirsts_nil : KeepsFirsts cmp agrees ([] : List (Label σ κ)) [] where
  ascending := .nil
  mem_iff _ := iff_of_false nofun nofun
  agree := nofun

namespace KeepsFirsts

variable (firsts : KeepsFirsts cmp agrees labels kept)

include firsts

theorem mem_labels (mem : y ∈ kept) : y ∈ labels :=
  (firstLike_some ((firsts.mem_iff y).mp mem)).1

variable [Std.TransCmp cmp]

theorem exists_kept (mem : x ∈ labels) :
    ∃ y ∈ kept, firstLike cmp labels x.selector = some y ∧ cmp y.selector x.selector = .eq := by
  have self : cmp x.selector x.selector = .eq := Std.ReflCmp.compare_self
  obtain ⟨y, found⟩ := exists_firstLike mem self
  obtain ⟨_, tie⟩ := firstLike_some found
  exact ⟨y, (firsts.mem_iff y).mpr ((firstLike_congr tie).trans found), found, tie⟩

/-- A label that comes after all others is kept. -/
theorem add (after : ∀ y ∈ labels, cmp y.selector x.selector = .lt) :
    KeepsFirsts cmp agrees (labels ++ [x]) (kept ++ [x]) := by
  have self : cmp x.selector x.selector = .eq := Std.ReflCmp.compare_self
  have none : firstLike cmp labels x.selector = none :=
    firstLike_eq_none.mpr fun z hz tie => nomatch (after z hz).symm.trans tie
  refine ⟨?_, fun y => ?_, fun z mem w found => ?_⟩
  · refine List.pairwise_append.mpr ⟨firsts.ascending, List.pairwise_singleton .., ?_⟩
    intro y mem z hz
    cases List.mem_singleton.mp hz
    exact after y (firsts.mem_labels mem)
  · rw [List.mem_append, List.mem_singleton, firsts.mem_iff, firstLike_concat]
    refine or_congr_right ⟨?_, fun ⟨_, _, same⟩ => same.symm⟩
    rintro rfl
    exact ⟨none, self, rfl⟩
  · rcases firstLike_concat.mp found with found | ⟨fresh, _, rfl⟩
    · rcases List.mem_append.mp mem with mem | mem
      · exact firsts.agree z mem w found
      · cases List.mem_singleton.mp mem
        cases none.symm.trans found
    · rcases List.mem_append.mp mem with mem | mem
      · have selfTie : cmp z.selector z.selector = .eq := Std.ReflCmp.compare_self
        exact absurd selfTie (firstLike_eq_none.mp fresh z mem)
      · exact Or.inl (List.mem_singleton.mp mem).symm

/-- A label that agrees with the first among its equals is not kept. -/
theorem skip (found : firstLike cmp labels x.selector = some y) (agreed : agrees y.context x.context = true) :
    KeepsFirsts cmp agrees (labels ++ [x]) kept := by
  obtain ⟨mem, tie⟩ := firstLike_some found
  refine ⟨firsts.ascending, fun z => ?_, fun z hz w hw => ?_⟩
  · rw [firsts.mem_iff, firstLike_concat]
    refine ⟨Or.inl, fun h => h.resolve_right ?_⟩
    rintro ⟨none, _, rfl⟩
    exact firstLike_eq_none.mp none y mem tie
  · rcases List.mem_append.mp hz with hz | hz
    · rcases firstLike_concat.mp hw with hw | ⟨none, _, _⟩
      · exact firsts.agree z hz w hw
      · have self : cmp z.selector z.selector = .eq := Std.ReflCmp.compare_self
        exact absurd self (firstLike_eq_none.mp none z hz)
    · cases List.mem_singleton.mp hz
      rcases firstLike_concat.mp hw with hw | ⟨none, _, _⟩
      · cases found.symm.trans hw
        exact Or.inr agreed
      · cases none.symm.trans found

/-- All labels come before one that comes after the last that is kept. -/
theorem lt_of_last {front : List (Label σ κ)} (last : kept = front ++ [y]) (after : cmp y.selector s = .lt) :
    ∀ z ∈ labels, cmp z.selector s = .lt := by
  intro z mem
  obtain ⟨w, hw, _, tie⟩ := firsts.exists_kept mem
  have ascending := firsts.ascending
  rw [last] at hw ascending
  rw [← Std.TransCmp.congr_left tie]
  rcases List.mem_append.mp hw with hw | hw
  · have before := (List.pairwise_append.mp ascending).2.2 w hw y (List.mem_singleton.mpr rfl)
    exact Std.TransCmp.lt_trans before after
  · cases List.mem_singleton.mp hw
    exact after

end KeepsFirsts

variable [Std.TransCmp cmp]

/-- Dropping repeats from sorted labels, of which some have been seen, keeps the first among equals of
all of them, when there are no conflicts. -/
theorem dropRepeats_spec {seen back : List (Label σ κ)} (firsts : KeepsFirsts cmp agrees seen back.reverse)
    (sorted : (seen ++ rest).Pairwise fun a b => cmp a.selector b.selector ≠ .gt)
    (clean : (dropRepeats cmp agrees keyword back rest).conflicts = []) :
    KeepsFirsts cmp agrees (seen ++ rest) (dropRepeats cmp agrees keyword back rest).labels := by
  induction rest generalizing seen back with
  | nil =>
    rw [List.append_nil]
    cases back with
    | nil => exact firsts
    | cons k back => exact firsts
  | cons l ls ih =>
    rw [List.append_cons] at sorted ⊢
    cases back with
    | nil =>
      have none : ∀ y ∈ seen, cmp y.selector l.selector = .lt := by
        intro y mem
        obtain ⟨_, kept, _⟩ := firsts.exists_kept mem
        cases kept
      exact ih (firsts.add none) sorted clean
    | cons k back =>
      have last : k ∈ (k :: back).reverse := by simp
      have order : cmp k.selector l.selector ≠ .gt := by
        have apart := (List.pairwise_append.mp (List.pairwise_append.mp sorted).1).2.2
        exact apart k (firsts.mem_labels last) l (List.mem_singleton.mpr rfl)
      rw [dropRepeats] at clean ⊢
      split at clean
      · rename_i differs
        rw [if_pos differs]
        have after : cmp k.selector l.selector = .lt := by
          cases h : cmp k.selector l.selector with
          | lt => rfl
          | eq => simp [h] at differs
          | gt => exact absurd h order
        refine ih ?_ sorted clean
        rw [List.reverse_cons]
        exact firsts.add (firsts.lt_of_last (List.reverse_cons ..) after)
      · rename_i same
        rw [if_neg same]
        have tie : cmp k.selector l.selector = .eq := by simpa using same
        have found : firstLike cmp seen l.selector = some k :=
          (firstLike_congr tie).symm.trans ((firsts.mem_iff k).mp last)
        dsimp only at clean ⊢
        split at clean
        · rename_i agreed
          rw [if_pos agreed]
          exact ih (firsts.skip found agreed) sorted clean
        · cases clean

/-- A sort without conflicts keeps the first among equal labels. -/
theorem sortLabels_keepsFirsts (clean : (sortLabels cmp agrees keyword labels).conflicts = []) :
    KeepsFirsts cmp agrees labels (sortLabels cmp agrees keyword labels).labels := by
  let le (a b : Label σ κ) : Bool := cmp a.selector b.selector != .gt
  have le_iff : ∀ a b, le a b = true ↔ (cmp a.selector b.selector).isLE = true := by
    intro a b
    dsimp only [le]
    cases cmp a.selector b.selector <;> decide
  have trans : ∀ a b c, le a b → le b c → le a c := fun a b c first second =>
    (le_iff a c).mpr (Std.TransCmp.isLE_trans ((le_iff a b).mp first) ((le_iff b c).mp second))
  have total : ∀ a b, le a b || le b a := by
    intro a b
    rw [Bool.or_eq_true, le_iff, le_iff]
    by_cases below : (cmp a.selector b.selector).isLE = true
    · exact Or.inl below
    · exact Or.inr (Ordering.isLE_of_eq_lt (Std.OrientedCmp.lt_of_not_isLE below))
  have sorted : (labels.mergeSort le).Pairwise fun a b => cmp a.selector b.selector ≠ .gt :=
    (List.pairwise_mergeSort trans total labels).imp fun h => by simpa [le] using h
  have same : ∀ s, firstLike cmp (labels.mergeSort le) s = firstLike cmp labels s := by
    intro s
    refine find?_mergeSort trans total ?_ labels
    intro a b ha hb
    have tie : cmp a.selector b.selector = .eq :=
      Std.TransCmp.eq_trans (eq_of_beq ha) (Std.OrientedCmp.eq_symm (eq_of_beq hb))
    simp [le, tie]
  have firsts := dropRepeats_spec keepsFirsts_nil sorted clean
  refine ⟨firsts.ascending, fun y => ?_, fun x mem y found => ?_⟩
  · exact (firsts.mem_iff y).trans (by rw [List.nil_append, same])
  · exact firsts.agree x (List.mem_mergeSort.mpr mem) y ((same _).trans found)

end Firsts

/-! ### Orders of selectors -/

theorem transCmp_image {α β : Type} (cmp : β → β → Ordering) [Std.TransCmp cmp] (f : α → β) :
    Std.TransCmp fun a b => cmp (f a) (f b) where
  eq_swap := Std.OrientedCmp.eq_swap
  isLE_trans := Std.TransCmp.isLE_trans

theorem compareOctets_eq_iff {a b : List UInt8} : compareOctets a b = .eq ↔ a = b := by
  rw [compareOctets, Std.LawfulEqOrd.compare_eq_iff_eq]
  exact (List.map_injective_iff.mpr fun _ _ => UInt8.toNat_inj.mp).eq_iff

instance : Std.TransCmp compareOctets :=
  inferInstanceAs (Std.TransCmp (compareOn (List.map UInt8.toNat)))

theorem FileKind.rank_injective : Function.Injective FileKind.rank := by
  intro a b same
  cases a <;> cases b <;> first | rfl | cases same

theorem FilesystemUse.number_injective : Function.Injective FilesystemUse.number := by
  intro a b same
  cases a <;> cases b <;> first | rfl | cases same

theorem PortProtocol.number_injective : Function.Injective PortProtocol.number := by
  intro a b same
  cases a <;> cases b <;> first | rfl | cases same

instance : Std.TransCmp FileSelector.compare :=
  let specificity (s : FileSelector) : Specificity := .ofPath s.path
  inferInstanceAs (Std.TransCmp (compareLex (compareLex (compareLex (compareLex
    (fun a b => compareOn (fun s => (specificity s).isPattern) b a) (compareOn fun s => (specificity s).stem))
    (compareOn fun s => (specificity s).length)) (compareOn fun s => s.kind.rank)) (compareOn FileSelector.path)))

theorem FileSelector.compare_eq_iff {a b : FileSelector} : a.compare b = .eq ↔ a = b := by
  constructor
  · intro tie
    simp only [compare, Ordering.then_eq_eq, Std.LawfulEqOrd.compare_eq_iff_eq] at tie
    obtain ⟨⟨_, kind⟩, path⟩ := tie
    cases a
    cases b
    cases path
    cases FileKind.rank_injective kind
    rfl
  · rintro rfl
    exact Std.ReflCmp.compare_self

instance : Std.TransCmp FilesystemSelector.compare :=
  inferInstanceAs (Std.TransCmp (compareLex (compareOn fun s : FilesystemSelector => s.behavior.number)
    (compareOn FilesystemSelector.filesystem)))

theorem FilesystemSelector.compare_eq_iff {a b : FilesystemSelector} : a.compare b = .eq ↔ a = b := by
  cases a
  cases b
  simp [compare, Ordering.then_eq_eq, FilesystemUse.number_injective.eq_iff]

instance : Std.TransCmp GenfsSelector.compare :=
  inferInstanceAs (Std.TransCmp (compareLex (compareOn GenfsSelector.filesystem) (compareOn GenfsSelector.path)))

theorem GenfsSelector.compare_eq_iff {a b : GenfsSelector} : a.compare b = .eq ↔ a = b := by
  cases a
  cases b
  simp [compare, Ordering.then_eq_eq]

instance : Std.TransCmp EndPortSelector.compare :=
  inferInstanceAs (Std.TransCmp (compareLex (compareOn EndPortSelector.device) (compareOn EndPortSelector.port)))

theorem EndPortSelector.compare_eq_iff {a b : EndPortSelector} : a.compare b = .eq ↔ a = b := by
  cases a
  cases b
  simp [compare, Ordering.then_eq_eq]

theorem IpAddress.groupOctets_injective : Function.Injective IpAddress.groupOctets := by
  intro g h same
  simp only [groupOctets, List.cons.injEq, and_true] at same
  obtain ⟨high, low⟩ := same
  have high := congrArg UInt8.toNat high
  have low := congrArg UInt8.toNat low
  simp [Nat.shiftRight_eq_div_pow] at high low
  have := g.toNat_lt
  have := h.toNat_lt
  exact UInt16.toNat_inj.mp (by omega)

theorem IpAddress.octets_injective : Function.Injective IpAddress.octets := by
  have groups : ∀ gs hs : List UInt16, gs.flatMap groupOctets = hs.flatMap groupOctets → gs = hs := by
    intro gs
    induction gs with
    | nil =>
      intro hs same
      cases hs with
      | nil => rfl
      | cons => cases same
    | cons g gs ih =>
      intro hs same
      cases hs with
      | nil => cases same
      | cons h hs =>
        obtain ⟨first, rest⟩ := List.append_inj same rfl
        rw [groupOctets_injective first, ih hs rest]
  have lengths : ∀ gs : List UInt16, (gs.flatMap groupOctets).length = 2 * gs.length := by
    intro gs
    simp [groupOctets, List.length_flatMap]
    omega
  intro a b same
  cases a with
  | v4 =>
    cases b with
    | v4 =>
      cases same
      rfl
    | v6 hs =>
      have length := congrArg List.length same
      simp [octets, lengths] at length
  | v6 gs =>
    cases b with
    | v4 =>
      have length := congrArg List.length same
      simp [octets, lengths] at length
    | v6 hs => exact congrArg v6 (Vector.toList_inj.mp (groups gs.toList hs.toList same))

instance : Std.TransCmp IpAddress.compare :=
  have := transCmp_image compareOctets IpAddress.octets
  inferInstanceAs (Std.TransCmp (compareLex (compareOn fun a : IpAddress => !a.isV4)
    (fun a b => compareOctets a.octets b.octets)))

theorem IpAddress.compare_eq_iff {a b : IpAddress} : a.compare b = .eq ↔ a = b := by
  constructor
  · intro tie
    simp only [compare, Ordering.then_eq_eq, compareOctets_eq_iff] at tie
    exact octets_injective tie.2
  · rintro rfl
    exact Std.ReflCmp.compare_self

instance : Std.TransCmp NodeSelector.compare :=
  have := transCmp_image IpAddress.compare NodeSelector.address
  have := transCmp_image IpAddress.compare NodeSelector.mask
  inferInstanceAs (Std.TransCmp (compareLex (compareLex (compareOn fun s : NodeSelector => !s.address.isV4)
    (fun a b => IpAddress.compare b.mask a.mask))
    (fun a b => IpAddress.compare a.address b.address)))

theorem NodeSelector.compare_eq_iff {a b : NodeSelector} : a.compare b = .eq ↔ a = b := by
  constructor
  · intro tie
    simp only [compare, Ordering.then_eq_eq, IpAddress.compare_eq_iff] at tie
    obtain ⟨⟨_, mask⟩, address⟩ := tie
    cases a
    cases b
    cases mask
    cases address
    rfl
  · rintro rfl
    exact Std.ReflCmp.compare_self

/-- The order does not tell the ranges apart: they are the same, or have the same low end and none of
them goes up from there. -/
def Interval.Alike (a b : Interval) : Prop :=
  a.low = b.low ∧ (a.high = b.high ∨ a.high ≤ a.low ∧ b.high ≤ b.low)

instance : Std.TransCmp Interval.compare :=
  inferInstanceAs (Std.TransCmp (compareLex (compareOn fun s : Interval => s.high - s.low) (compareOn Interval.low)))

theorem Interval.compare_eq_iff {a b : Interval} : a.compare b = .eq ↔ a.Alike b := by
  simp only [compare, Ordering.then_eq_eq, Std.LawfulEqOrd.compare_eq_iff_eq, Alike]
  omega

/-- Ranges that do not run backwards are told apart. -/
theorem Interval.eq_of_alike {a b : Interval} (alike : a.Alike b) (forwards : a.low ≤ a.high)
    (forwards' : b.low ≤ b.high) : a = b := by
  obtain ⟨low, high⟩ := alike
  cases a
  cases b
  simp only [Interval.mk.injEq] at *
  omega

def PortSelector.range (s : PortSelector) : Interval :=
  ⟨s.low, s.high⟩

def PartitionKeySelector.range (s : PartitionKeySelector) : Interval :=
  ⟨s.low, s.high⟩

instance : Std.TransCmp PortSelector.compare :=
  have := transCmp_image Interval.compare PortSelector.range
  inferInstanceAs (Std.TransCmp (compareLex (fun a b : PortSelector => Interval.compare a.range b.range)
    (compareOn fun s : PortSelector => s.protocol.number)))

theorem PortSelector.compare_eq_iff {a b : PortSelector} :
    a.compare b = .eq ↔ a.protocol = b.protocol ∧ a.range.Alike b.range := by
  rw [compare, Ordering.then_eq_eq, Std.LawfulEqOrd.compare_eq_iff_eq, PortProtocol.number_injective.eq_iff, and_comm]
  exact and_congr_right fun _ => Interval.compare_eq_iff

instance : Std.TransCmp PartitionKeySelector.compare :=
  have := transCmp_image compareOctets PartitionKeySelector.subnet
  have := transCmp_image Interval.compare PartitionKeySelector.range
  inferInstanceAs (Std.TransCmp (compareLex (fun a b : PartitionKeySelector => compareOctets a.subnet b.subnet)
    fun a b => Interval.compare a.range b.range))

theorem PartitionKeySelector.compare_eq_iff {a b : PartitionKeySelector} :
    a.compare b = .eq ↔ a.subnet = b.subnet ∧ a.range.Alike b.range := by
  rw [compare, Ordering.then_eq_eq, compareOctets_eq_iff]
  exact and_congr_right fun _ => Interval.compare_eq_iff

/-! ### What is kept of labels -/

section Kept

variable {σ κ : Type}

/-- The element is the first of the list that has the property. -/
def IsFirst {α : Type} (p : α → Prop) (l : List α) (a : α) : Prop :=
  ∃ before after, l = before ++ a :: after ∧ p a ∧ ∀ b ∈ before, ¬ p b

/-- A label is kept that selects the same and gives the same context. -/
def Survives (same : σ → σ → Prop) (agree : κ → κ → Prop) (kept : List (Label σ κ)) (x : Label σ κ) : Prop :=
  ∃ y ∈ kept, same y.selector x.selector ∧ agree y.context x.context

/-- The labels that are kept ascend and were all given, and each label that was given survives. -/
structure SortedInto (cmp : σ → σ → Ordering) (same : σ → σ → Prop) (agree : κ → κ → Prop)
    (labels kept : List (Label σ κ)) : Prop where
  ascending : kept.Pairwise fun a b => cmp a.selector b.selector = .lt
  given : ∀ y ∈ kept, y ∈ labels
  survives : ∀ x ∈ labels, Survives same agree kept x

/-- The selectors have the same range, and what else they have is the same. -/
def SameRange (others : σ → σ → Prop) (range : σ → Interval) (s t : σ) : Prop :=
  others s t ∧ range s = range t

/-- The selectors differ in nothing but in where their ranges run to, when both run nowhere. -/
def AlikeRange (others : σ → σ → Prop) (range : σ → Interval) (s t : σ) : Prop :=
  others s t ∧ (range s).Alike (range t)

/-- Labels of ranges survive as far as the order tells the ranges apart. Of labels that it does not tell
apart, those survive that have the range of the first; so all do when no range runs backwards. -/
structure RangesSortedInto (cmp : σ → σ → Ordering) (others : σ → σ → Prop) (range : σ → Interval)
    (agree : κ → κ → Prop) (labels kept : List (Label σ κ)) : Prop extends
    SortedInto cmp (AlikeRange others range) agree labels kept where
  survives_iff : ∀ x ∈ labels, Survives (SameRange others range) agree kept x ↔
    ∀ y, IsFirst (fun y => AlikeRange others range y.selector x.selector) labels y → range y.selector = range x.selector
  forwards : (∀ x ∈ labels, (range x.selector).low ≤ (range x.selector).high) →
    ∀ x ∈ labels, Survives (SameRange others range) agree kept x

variable {cmp : σ → σ → Ordering} {same others : σ → σ → Prop} {range : σ → Interval}
  {agrees : κ → κ → Bool} {agree : κ → κ → Prop} {labels kept : List (Label σ κ)}

theorem isFirst_iff {s : σ} {y : Label σ κ} (ties : ∀ s t, cmp s t = .eq ↔ same s t) :
    IsFirst (fun y : Label σ κ => same y.selector s) labels y ↔ firstLike cmp labels s = some y := by
  rw [firstLike, List.find?_eq_some_iff_append]
  constructor
  · rintro ⟨before, after, whole, like, none⟩
    refine ⟨by simpa [ties] using like, before, after, whole, fun z hz => ?_⟩
    simpa [ties] using none z hz
  · rintro ⟨like, before, after, whole, none⟩
    refine ⟨before, after, whole, by simpa [ties] using like, fun z hz => ?_⟩
    simpa [ties] using none z hz

namespace KeepsFirsts

variable (firsts : KeepsFirsts cmp agrees labels kept) (refl : ∀ c, agree c c)
  (sound : ∀ a b, agrees a b = true → agree a b)

include firsts refl sound

theorem agree_first {x y : Label σ κ} (mem : x ∈ labels) (found : firstLike cmp labels x.selector = some y) :
    agree y.context x.context := by
  rcases firsts.agree x mem y found with rfl | agreed
  · exact refl _
  · exact sound _ _ agreed

variable [Std.TransCmp cmp]

theorem sortedInto (ties : ∀ s t, cmp s t = .eq ↔ same s t) : SortedInto cmp same agree labels kept where
  ascending := firsts.ascending
  given _ mem := firsts.mem_labels mem
  survives x mem := by
    obtain ⟨y, hy, found, tie⟩ := firsts.exists_kept mem
    exact ⟨y, hy, (ties _ _).mp tie, firsts.agree_first refl sound mem found⟩

theorem rangesSortedInto (ties : ∀ s t, cmp s t = .eq ↔ AlikeRange others range s t) :
    RangesSortedInto cmp others range agree labels kept where
  toSortedInto := firsts.sortedInto refl sound ties
  survives_iff x mem := by
    obtain ⟨first, hfirst, found, tie⟩ := firsts.exists_kept mem
    obtain ⟨others, _⟩ := (ties _ _).mp tie
    constructor
    · rintro ⟨y, hy, ⟨othersY, rangeY⟩, _⟩ z isFirst
      have tieY : cmp y.selector x.selector = .eq :=
        (ties _ _).mpr ⟨othersY, by rw [rangeY]; exact ⟨rfl, Or.inl rfl⟩⟩
      have foundY : firstLike cmp labels x.selector = some y :=
        (firstLike_congr tieY).symm.trans ((firsts.mem_iff y).mp hy)
      cases foundY.symm.trans ((isFirst_iff ties).mp isFirst)
      exact rangeY
    · intro same
      have range := same first ((isFirst_iff ties).mpr found)
      exact ⟨first, hfirst, ⟨others, range⟩, firsts.agree_first refl sound mem found⟩
  forwards ahead x mem := by
    obtain ⟨y, hy, ⟨others, alike⟩, agreed⟩ := (firsts.sortedInto refl sound ties).survives x mem
    have range := Interval.eq_of_alike alike (ahead y (firsts.mem_labels hy)) (ahead x mem)
    exact ⟨y, hy, ⟨others, range⟩, agreed⟩

end KeepsFirsts

end Kept

namespace Database

variable {db : Database} {repeats : Bool}

/-- The contexts resolve to the same. -/
def SameContext (db : Database) (a b : ContextArg Id) : Prop :=
  db.contextSpec? a = db.contextSpec? b

/-- Both contexts of an interface resolve to the same. -/
def SameContexts (db : Database) (a b : ContextArg Id × ContextArg Id) : Prop :=
  db.SameContext a.1 b.1 ∧ db.SameContext a.2 b.2

/-- What sorting leaves of the labels of the database. -/
structure LabelsSortedInto (db : Database) (kept : Labels) : Prop where
  files : SortedInto FileSelector.compare Eq (Option.Rel db.SameContext) db.labels.files kept.files
  filesystems : SortedInto FilesystemSelector.compare Eq db.SameContext db.labels.filesystems kept.filesystems
  genfs : SortedInto GenfsSelector.compare Eq db.SameContext db.labels.genfs kept.genfs
  ports : RangesSortedInto PortSelector.compare (fun s t => s.protocol = t.protocol) PortSelector.range
    db.SameContext db.labels.ports kept.ports
  nodes : SortedInto NodeSelector.compare Eq db.SameContext db.labels.nodes kept.nodes
  interfaces : SortedInto compare Eq db.SameContexts db.labels.interfaces kept.interfaces
  partitionKeys : RangesSortedInto PartitionKeySelector.compare (fun s t => s.subnet = t.subnet)
    PartitionKeySelector.range db.SameContext db.labels.partitionKeys kept.partitionKeys
  endPorts : SortedInto EndPortSelector.compare Eq db.SameContext db.labels.endPorts kept.endPorts
  interrupts : SortedInto compare Eq db.SameContext db.labels.interrupts kept.interrupts
  ioMemory : RangesSortedInto Interval.compare (fun _ _ => True) id db.SameContext db.labels.ioMemory kept.ioMemory
  ioPorts : RangesSortedInto Interval.compare (fun _ _ => True) id db.SameContext db.labels.ioPorts kept.ioPorts
  pciDevices : SortedInto compare Eq db.SameContext db.labels.pciDevices kept.pciDevices
  deviceTrees : SortedInto compare Eq db.SameContext db.labels.deviceTrees kept.deviceTrees

/-- A sort without conflicts loses no label of a kind without ranges. Of labels for ranges that the order
does not tell apart, it loses those that have another range than the first. -/
theorem sortedLabels_keep (clean : (db.sortedLabels repeats).2 = []) :
    db.LabelsSortedInto (db.sortedLabels repeats).1 := by
  simp only [sortedLabels, List.append_eq_nil_iff] at clean
  obtain ⟨⟨⟨⟨⟨⟨⟨⟨⟨⟨⟨⟨files, filesystems⟩, genfs⟩, ports⟩, nodes⟩, interfaces⟩, partitionKeys⟩, endPorts⟩,
    interrupts⟩, ioMemory⟩, ioPorts⟩, pciDevices⟩, deviceTrees⟩ := clean
  have refl : ∀ c, db.SameContext c c := fun _ => rfl
  have sound : ∀ a b, (repeats && db.contextSpec? a = db.contextSpec? b) = true → db.SameContext a b :=
    fun a b agreed =>
      show db.contextSpec? a = db.contextSpec? b from of_decide_eq_true (Bool.and_eq_true_iff.mp agreed).2
  have names : ∀ s t : String, compare s t = .eq ↔ s = t := fun _ _ => Std.LawfulEqOrd.compare_eq_iff_eq
  have numbers : ∀ s t : Nat, compare s t = .eq ↔ s = t := fun _ _ => Std.LawfulEqOrd.compare_eq_iff_eq
  have intervals : ∀ s t, Interval.compare s t = .eq ↔ AlikeRange (fun _ _ => True) id s t :=
    fun _ _ => Interval.compare_eq_iff.trans (and_iff_right trivial).symm
  constructor
  · refine (sortLabels_keepsFirsts files).sortedInto ?_ ?_ fun _ _ => FileSelector.compare_eq_iff
    · rintro (_ | c)
      · exact .none
      · exact .some rfl
    · rintro (_ | a) (_ | b) agreed
      · exact .none
      · cases agreed
      · cases agreed
      · exact .some (sound a b agreed)
  · exact (sortLabels_keepsFirsts filesystems).sortedInto refl sound fun _ _ => FilesystemSelector.compare_eq_iff
  · exact (sortLabels_keepsFirsts genfs).sortedInto refl sound fun _ _ => GenfsSelector.compare_eq_iff
  · exact (sortLabels_keepsFirsts ports).rangesSortedInto refl sound fun _ _ => PortSelector.compare_eq_iff
  · exact (sortLabels_keepsFirsts nodes).sortedInto refl sound fun _ _ => NodeSelector.compare_eq_iff
  · refine (sortLabels_keepsFirsts interfaces).sortedInto (fun _ => ⟨rfl, rfl⟩) (fun a b agreed => ?_) names
    obtain ⟨first, second⟩ := Bool.and_eq_true_iff.mp agreed
    exact ⟨sound _ _ first, sound _ _ second⟩
  · exact (sortLabels_keepsFirsts partitionKeys).rangesSortedInto refl sound
      fun _ _ => PartitionKeySelector.compare_eq_iff
  · exact (sortLabels_keepsFirsts endPorts).sortedInto refl sound fun _ _ => EndPortSelector.compare_eq_iff
  · exact (sortLabels_keepsFirsts interrupts).sortedInto refl sound numbers
  · exact (sortLabels_keepsFirsts ioMemory).rangesSortedInto refl sound intervals
  · exact (sortLabels_keepsFirsts ioPorts).rangesSortedInto refl sound intervals
  · exact (sortLabels_keepsFirsts pciDevices).sortedInto refl sound numbers
  · exact (sortLabels_keepsFirsts deviceTrees).sortedInto refl sound names

deriving instance DecidableEq for Labels

/-- A range of ports that runs backwards, and the one port at its low end, in the same context. -/
def backwardsPolicy : List Statement :=
  let range : RangeArg String := .given ⟨.given ⟨"s0", none⟩, .given ⟨"s0", none⟩⟩
  let context : ContextArg String := .given ⟨"u", "r", "a", range⟩
  smallPolicy ([.port ⟨.tcp, 5, 3⟩ context, .port ⟨.tcp, 5, 5⟩ context].map (Statement.plain {}))

/-- The label of one of the two, where the role is the second that is declared. -/
def backwardsPort (high : Nat) : Label PortSelector (ContextArg Id) :=
  ⟨{}, ⟨.tcp, 5, high⟩, .given ⟨0, 1, 0, .given ⟨.given ⟨0, none⟩, .given ⟨0, none⟩⟩⟩⟩

theorem backwardsPolicy_resolves : ∃ db, (resolve true backwardsPolicy).outcome.1 = .ok db ∧
    db.labels = { ports := [backwardsPort 3, backwardsPort 5] } := by
  have run : ((resolve true backwardsPolicy).outcome.1.toOption.map (·.labels)) =
      some { ports := [backwardsPort 3, backwardsPort 5] } := by
    decide +kernel
  obtain ⟨db, resolved, labels⟩ := Option.map_eq_some_iff.mp run
  exact ⟨db, toOption_eq_some_iff.mp resolved, labels⟩

/-- The label for the one port is lost, and there is no conflict. -/
theorem sortedLabels_keep_backwards : ∃ db, (resolve true backwardsPolicy).outcome.1 = .ok db ∧
    (db.sortedLabels true).2 = [] ∧ backwardsPort 5 ∈ db.labels.ports ∧
    ¬ Survives (SameRange (fun s t => s.protocol = t.protocol) PortSelector.range) db.SameContext
      (db.sortedLabels true).1.ports (backwardsPort 5) := by
  obtain ⟨db, resolved, labels⟩ := backwardsPolicy_resolves
  have clean : (db.sortedLabels true).2 = [] := by
    have sorted : List.mergeSort [backwardsPort 3, backwardsPort 5]
        (fun a b => PortSelector.compare a.selector b.selector != .gt) = [backwardsPort 3, backwardsPort 5] :=
      List.mergeSort_of_pairwise (by decide)
    have tie : (backwardsPort 3).selector.compare (backwardsPort 5).selector = .eq := by decide
    have same : db.contextSpec? (backwardsPort 3).context = db.contextSpec? (backwardsPort 5).context := rfl
    simp [sortedLabels, labels, sortLabels, sorted, dropRepeats, tie, same]
  have listed : backwardsPort 5 ∈ db.labels.ports := by simp [labels]
  refine ⟨db, resolved, clean, listed, fun survives => ?_⟩
  have same := ((sortedLabels_keep clean).ports.survives_iff _ listed).mp survives
  have first : IsFirst (fun y => AlikeRange (fun s t => s.protocol = t.protocol) PortSelector.range y.selector
      (backwardsPort 5).selector) db.labels.ports (backwardsPort 3) := by
    refine ⟨[], [backwardsPort 5], by rw [labels]; rfl, ⟨rfl, rfl, Or.inr ?_⟩, fun _ earlier => ?_⟩
    · decide
    · exact absurd earlier List.not_mem_nil
  cases same _ first

end Database

end CilPolicy
