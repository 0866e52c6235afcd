import CilPolicy.Graph.Cycle
import Mathlib.Data.Finset.Card
import Mathlib.Data.List.Nodup
import Mathlib.Data.Nat.Find
import Mathlib.Logic.Relation

/-!
# A walk with an anchor finds out whether a chain ends

A chain among finitely many places that goes on for as many steps as there are places has come
to some place twice; from then on it comes back to every place within that many steps. The anchor
of a walk moves up after two, four, eight … steps, so it comes to stand on the circle with enough
steps before its next move to go around once, and by then the walk has taken fewer than three
steps for each place. So the walk always has an answer, and the answer says whether the chain
ends. Nothing is asked of the place at which the chain starts: a circle may lie behind any number
of steps that lead into it.
-/

namespace CilPolicy.Graph

variable {next : Nat → Option Nat} {start place : Nat}

/-! ### Walks -/

/-- What every step keeps holds along the whole walk. -/
theorem walk_holds {p : Nat → Prop} (keeps : ∀ a b, p a → next a = some b → p b) (holds : p start) {steps : Nat}
    (h : walk next steps start = some place) : p place := by
  induction steps generalizing start with
  | zero =>
    cases h
    exact holds
  | succ steps ih =>
    obtain ⟨mid, hmid, h⟩ := Option.bind_eq_some_iff.mp h
    exact ih (keeps start mid holds hmid) h

theorem walk_add (m n start : Nat) : walk next (m + n) start = (walk next m start).bind (walk next n) := by
  induction m generalizing start with
  | zero => rw [Nat.zero_add, walk, Option.bind_some]
  | succ m ih =>
    rw [Nat.succ_add, walk, walk, Option.bind_assoc]
    exact congrArg _ (funext ih)

theorem walk_add_of {m : Nat} (h : walk next m start = some place) (n : Nat) :
    walk next (m + n) start = walk next n place := by
  rw [walk_add, h, Option.bind_some]

theorem walk_one (start : Nat) : walk next 1 start = next start :=
  Option.bind_fun_some _

/-- A walk has come by some place at every earlier step. -/
theorem exists_walk_of_le {m n : Nat} (le : m ≤ n) (h : walk next n start = some place) :
    ∃ mid, walk next m start = some mid ∧ walk next (n - m) mid = some place := by
  rw [← Nat.add_sub_cancel' le, walk_add] at h
  exact Option.bind_eq_some_iff.mp h

/-- The chain from a place never ends. -/
def Endless (next : Nat → Option Nat) (start : Nat) : Prop :=
  ∀ steps, ∃ place, walk next steps start = some place

/-- The chain leads into a circle, which `start` itself need not lie on. -/
def RunsIntoCircle (next : Nat → Option Nat) (start : Nat) : Prop :=
  ∃ lead place around, walk next lead start = some place ∧ 0 < around ∧ walk next around place = some place

theorem walk_rounds {around : Nat} (back : walk next around place = some place) (rounds : Nat) :
    walk next (around * rounds) place = some place := by
  induction rounds with
  | zero => rfl
  | succ rounds ih => rw [Nat.mul_succ, walk_add_of ih, back]

theorem RunsIntoCircle.endless (h : RunsIntoCircle next start) : Endless next start := by
  obtain ⟨lead, place, around, hlead, pos, back⟩ := h
  intro steps
  have far : steps ≤ lead + around * steps :=
    Nat.le_trans (Nat.le_mul_of_pos_left steps pos) (Nat.le_add_left _ _)
  obtain ⟨mid, hmid, _⟩ := exists_walk_of_le far ((walk_add_of hlead _).trans (walk_rounds back steps))
  exact ⟨mid, hmid⟩

theorem not_endless_of_last {steps : Nat} (h : walk next steps start = some place) (last : next place = none) :
    ¬ Endless next start := by
  intro endless
  obtain ⟨further, hfurther⟩ := endless (steps + 1)
  rw [walk_add_of h, walk_one, last] at hfurther
  cases hfurther

/-- A chain has at most one last place. -/
theorem last_unique {m n p q : Nat} (hp : walk next m start = some p) (lastp : next p = none)
    (hq : walk next n start = some q) (lastq : next q = none) : p = q := by
  wlog le : m ≤ n generalizing m n p q
  · exact (this hq lastq hp lastp (Nat.le_of_lt (Nat.not_le.mp le))).symm
  obtain ⟨mid, hmid, rest⟩ := exists_walk_of_le le hq
  obtain rfl := Option.some.inj (hp.symm.trans hmid)
  cases steps : n - m with
  | zero =>
    rw [steps] at rest
    exact Option.some.inj rest
  | succ more =>
    rw [steps, walk, lastp] at rest
    cases rest

/-! ### Rings -/

/-- The places of a circle, each once, in the order in which the chain goes around. -/
structure Ring (next : Nat → Option Nat) (ring : List Nat) : Prop where
  nonempty : ring ≠ []
  nodup : ring.Nodup
  turns : ∀ i (h : i < ring.length), next ring[i] = ring[(i + 1) % ring.length]?

/-- The places from which a walk takes its steps. -/
def visits (next : Nat → Option Nat) (steps start : Nat) : List Nat :=
  (List.range steps).map fun i => (walk next i start).getD start

theorem length_visits (steps start : Nat) : (visits next steps start).length = steps := by
  rw [visits, List.length_map, List.length_range]

theorem getElem_visits {steps i : Nat} (h : i < (visits next steps start).length)
    (hplace : walk next i start = some place) : (visits next steps start)[i] = place := by
  simp only [visits, List.getElem_map, List.getElem_range, hplace, Option.getD_some]

/-- Until its first return to a place, a walk from there visits a ring. -/
theorem ring_visits {around : Nat} (pos : 0 < around) (back : walk next around place = some place)
    (first : ∀ k, 0 < k → k < around → walk next k place ≠ some place) : Ring next (visits next around place) where
  nonempty := List.ne_nil_of_length_pos (by rwa [length_visits])
  nodup := by
    rw [List.nodup_iff_pairwise_ne, List.pairwise_iff_getElem]
    intro i j hi hj lt same
    rw [length_visits] at hi hj
    obtain ⟨p, hp, _⟩ := exists_walk_of_le (Nat.le_of_lt hi) back
    obtain ⟨q, hq, rest⟩ := exists_walk_of_le (Nat.le_of_lt hj) back
    rw [getElem_visits _ hp, getElem_visits _ hq] at same
    subst same
    -- A place met twice would bring the walk back too early.
    exact first (i + (around - j)) (by omega) (by omega) ((walk_add_of hp _).trans rest)
  turns := by
    intro i hi
    rw [length_visits] at hi
    obtain ⟨p, hp, _⟩ := exists_walk_of_le (Nat.le_of_lt hi) back
    have onward : walk next (i + 1) place = next p := (walk_add_of hp 1).trans (walk_one p)
    rw [getElem_visits _ hp, length_visits, ← onward]
    rcases Nat.lt_or_eq_of_le (show i + 1 ≤ around from hi) with lt | last
    · obtain ⟨q, hq, _⟩ := exists_walk_of_le (Nat.le_of_lt lt) back
      rw [Nat.mod_eq_of_lt lt, hq, List.getElem?_eq_getElem (by rwa [length_visits]), getElem_visits _ hq]
    · rw [last, Nat.mod_self, back, List.getElem?_eq_getElem (by rwa [length_visits]), getElem_visits _ rfl]

/-- A place that the chain comes back to heads a ring. -/
theorem exists_ring {around : Nat} (pos : 0 < around) (back : walk next around place = some place) :
    ∃ rest, Ring next (place :: rest) := by
  have returns : ∃ k, 0 < k ∧ walk next k place = some place := ⟨around, pos, back⟩
  obtain ⟨pos, back⟩ := Nat.find_spec returns
  have ring : Ring next (visits next (Nat.find returns) place) :=
    ring_visits pos back fun k hk lt h => Nat.find_min returns lt ⟨hk, h⟩
  obtain ⟨more, eq⟩ := Nat.exists_eq_succ_of_ne_zero (Nat.ne_of_gt pos)
  rw [eq, visits, List.range_succ_eq_map, List.map_cons, walk, Option.getD_some] at ring
  exact ⟨_, ring⟩

/-! ### Chains among finitely many places -/

/-- The chains of the places stay among them. -/
def Keeps (next : Nat → Option Nat) (ids : Finset Nat) : Prop :=
  ∀ p ∈ ids, ∀ q, next p = some q → q ∈ ids

variable {ids : Finset Nat}

theorem walk_mem (keeps : Keeps next ids) (known : start ∈ ids) {steps : Nat}
    (h : walk next steps start = some place) : place ∈ ids :=
  walk_holds (p := (· ∈ ids)) (fun a b listed step => keeps a listed b step) known h

/-- A chain with a step for each place has come to some place twice. -/
theorem exists_circle (keeps : Keeps next ids) (known : start ∈ ids)
    (long : walk next ids.card start = some place) :
    ∃ lead mid around, lead + around ≤ ids.card ∧ walk next lead start = some mid ∧
      0 < around ∧ walk next around mid = some mid := by
  have inside : ∀ n ∈ Finset.range (ids.card + 1), (walk next n start).getD 0 ∈ ids := by
    intro n hn
    obtain ⟨mid, hmid, _⟩ := exists_walk_of_le (Nat.le_of_lt_succ (Finset.mem_range.mp hn)) long
    rw [hmid]
    exact walk_mem keeps known hmid
  obtain ⟨i, hi, j, hj, ne, same⟩ :=
    Finset.exists_ne_map_eq_of_card_lt_of_maps_to (by rw [Finset.card_range]; exact Nat.lt_succ_self _) inside
  wlog lt : i < j generalizing i j
  · exact this j hj i hi ne.symm same.symm (Nat.lt_of_le_of_ne (Nat.not_lt.mp lt) ne.symm)
  have last := Nat.le_of_lt_succ (Finset.mem_range.mp hj)
  obtain ⟨q, hq, _⟩ := exists_walk_of_le last long
  obtain ⟨p, hp, around⟩ := exists_walk_of_le (Nat.le_of_lt lt) hq
  rw [hp, hq] at same
  have twice : p = q := same
  subst twice
  exact ⟨i, p, j - i, by omega, hp, Nat.sub_pos_of_lt lt, around⟩

/-- A place that is reached after so many steps lies on a circle of so many places. -/
theorem exists_around (keeps : Keeps next ids) (known : start ∈ ids) {far : Nat}
    (long : walk next ids.card start = some far) {n : Nat} (late : ids.card ≤ n + 1)
    (h : walk next n start = some place) :
    ∃ around, 0 < around ∧ around ≤ ids.card ∧ walk next around place = some place := by
  obtain ⟨lead, mid, around, bound, hlead, pos, back⟩ := exists_circle keeps known long
  obtain ⟨mid', hmid', rest⟩ := exists_walk_of_le (show lead ≤ n by omega) h
  obtain rfl := Option.some.inj (hlead.symm.trans hmid')
  refine ⟨around, pos, by omega, ?_⟩
  calc walk next around place
      = walk next ((n - lead) + around) mid := (walk_add_of rest around).symm
    _ = walk next (around + (n - lead)) mid := by rw [Nat.add_comm]
    _ = walk next (n - lead) mid := walk_add_of back _
    _ = some place := rest

theorem runsIntoCircle_of_long (keeps : Keeps next ids) (known : start ∈ ids)
    (long : walk next ids.card start = some place) : RunsIntoCircle next start := by
  obtain ⟨lead, mid, around, _, h⟩ := exists_circle keeps known long
  exact ⟨lead, mid, around, h⟩

theorem endless_iff (keeps : Keeps next ids) (known : start ∈ ids) :
    Endless next start ↔ RunsIntoCircle next start := by
  constructor
  · intro endless
    obtain ⟨_, long⟩ := endless ids.card
    exact runsIntoCircle_of_long keeps known long
  · exact RunsIntoCircle.endless

/-! ### Following links -/

section Threads

variable {link link' : Nat → Option (Option Nat)} {from? : Option Nat} {places front back back' : List Nat}

/-- From the start, the links lead along these places and no further. -/
inductive Threads (link : Nat → Option (Option Nat)) : Option Nat → List Nat → Prop
  | done : Threads link none []
  | step {place : Nat} {further : Option Nat} {rest : List Nat} (found : link place = some further)
      (more : Threads link further rest) : Threads link (some place) (place :: rest)

/-- Each of the places is linked to the one behind it. -/
theorem Threads.of_head? (chained : ∀ front k rest, places = front ++ k :: rest → link k = some rest.head?) :
    Threads link places.head? places := by
  induction places with
  | nil => exact .done
  | cons k rest ih =>
    refine .step (chained [] k rest rfl) (ih fun front j more same => ?_)
    exact chained (k :: front) j more (congrArg (k :: ·) same)

theorem Threads.followLinks (threads : Threads link from? places) {fuel : Nat} (enough : places.length ≤ fuel) :
    followLinks link fuel from? = some places := by
  induction threads generalizing fuel with
  | done => cases fuel <;> rfl
  | step found more ih =>
    cases fuel with
    | zero => cases enough
    | succ fuel => simp [Graph.followLinks, found, ih (Nat.le_of_succ_le_succ enough)]

theorem Threads.congr (threads : Threads link from? places) (same : ∀ p ∈ places, link' p = link p) :
    Threads link' from? places := by
  induction threads with
  | done => exact .done
  | @step p _ rest found more ih =>
    obtain ⟨first, others⟩ := List.forall_mem_cons.mp same
    exact .step (first.trans found) (ih others)

theorem Threads.behind (threads : Threads link from? (front ++ place :: back)) :
    ∃ further, link place = some further ∧ Threads link further back := by
  induction front generalizing from? with
  | nil =>
    cases threads with
    | step found more => exact ⟨_, found, more⟩
  | cons p front ih =>
    cases threads with
    | step _ more => exact ih more

/-- What lies behind a place may be exchanged, where the links before it stay. -/
theorem Threads.splice (threads : Threads link from? (front ++ place :: back))
    (same : ∀ p ∈ front, link' p = link p) (rest : Threads link' (some place) (place :: back')) :
    Threads link' from? (front ++ place :: back') := by
  induction front generalizing from? with
  | nil =>
    cases threads with
    | step => exact rest
  | cons p front ih =>
    obtain ⟨first, others⟩ := List.forall_mem_cons.mp same
    cases threads with
    | step found more => exact .step (first.trans found) (ih more others)

/-- From a place, the links lead only to what lies behind it. -/
theorem Threads.mem_of_transGen (threads : Threads link from? (front ++ place :: back)) {q : Nat}
    (leads : Relation.TransGen (fun a b => link a = some (some b)) place q) : q ∈ back := by
  induction leads using Relation.TransGen.head_induction_on generalizing front back with
  | single onward =>
    obtain ⟨further, found, more⟩ := threads.behind
    cases Option.some.inj (found.symm.trans onward)
    cases more
    exact List.mem_cons_self
  | @head p mid onward _ ih =>
    obtain ⟨further, found, more⟩ := threads.behind
    cases Option.some.inj (found.symm.trans onward)
    cases more with
    | @step _ _ rest _ _ =>
      have onward : front ++ p :: mid :: rest = (front ++ [p]) ++ mid :: rest := by simp
      exact List.mem_cons_of_mem mid (ih (onward ▸ threads))

end Threads

/-! ### The walk with an anchor -/

/-- More fuel does not change an answer. -/
theorem chase_mono {fuel more anchor steps limit : Nat} {ended : ChainEnd} (le : fuel ≤ more)
    (h : chase next fuel place anchor steps limit = some ended) :
    chase next more place anchor steps limit = some ended := by
  induction fuel generalizing more place anchor steps limit with
  | zero => cases h
  | succ fuel ih =>
    obtain ⟨more, rfl⟩ := Nat.exists_eq_succ_of_ne_zero (Nat.ne_of_gt (Nat.lt_of_lt_of_le fuel.succ_pos le))
    have le := Nat.le_of_succ_le_succ le
    rw [chase] at h ⊢
    cases onward : next place with
    | none => rwa [onward] at h
    | some further =>
      simp only [onward] at h ⊢
      split at h
      · rwa [if_pos ‹_›]
      · rw [if_neg ‹_›]
        split at h
        · rw [if_pos ‹_›]
          exact ih le h
        · rw [if_neg ‹_›]
          exact ih le h

/-- What the answer of a walk says of the chain. -/
def ChainEnd.TrueOf (next : Nat → Option Nat) (start : Nat) : ChainEnd → Prop
  | .last p => (∃ steps, walk next steps start = some p) ∧ next p = none
  | .circle p => (∃ steps, walk next steps start = some p) ∧ ∃ around, 0 < around ∧ walk next around p = some p

/-- One step further back, the same is true. -/
theorem ChainEnd.TrueOf.step {further : Nat} (onward : next place = some further) :
    {ended : ChainEnd} → ended.TrueOf next further → ended.TrueOf next place
  | .last _, ⟨⟨steps, h⟩, ends⟩ => ⟨⟨steps + 1, by rw [walk, onward, Option.bind_some, h]⟩, ends⟩
  | .circle _, ⟨⟨steps, h⟩, back⟩ => ⟨⟨steps + 1, by rw [walk, onward, Option.bind_some, h]⟩, back⟩

theorem chase_sound {fuel anchor steps limit : Nat} {ended : ChainEnd} (since : walk next steps anchor = some place)
    (h : chase next fuel place anchor steps limit = some ended) : ended.TrueOf next place := by
  induction fuel generalizing place anchor steps limit with
  | zero => cases h
  | succ fuel ih =>
    rw [chase] at h
    split at h
    · rename_i last
      cases h
      exact ⟨⟨0, rfl⟩, last⟩
    · rename_i further onward
      have around : walk next (steps + 1) anchor = some further := by
        rw [walk_add_of since, walk_one, onward]
      split at h
      · rename_i closes
        cases h
        subst closes
        exact ⟨⟨1, (walk_one place).trans onward⟩, steps + 1, steps.succ_pos, around⟩
      · split at h
        · exact (ih rfl h).step onward
        · exact (ih around h).step onward

/-- A walk under way: where it has come from, and that it has not been back at its anchor. -/
structure Chasing (next : Nat → Option Nat) (ids : Finset Nat) (start place anchor steps limit : Nat) : Prop where
  /-- The anchor has moved up after 2, 4, …, `limit / 2` steps. -/
  passed : walk next (limit - 2) start = some anchor
  since : walk next steps anchor = some place
  fresh : ∀ around, 0 < around → around ≤ steps → walk next around anchor ≠ some anchor
  room : steps < limit
  two_le : 2 ≤ limit
  limited : limit ≤ 2 * ids.card

theorem chasing_start (known : start ∈ ids) : Chasing next ids start start start 0 2 where
  passed := rfl
  since := rfl
  fresh _ pos le := absurd pos (Nat.not_lt.mpr le)
  room := Nat.zero_lt_two
  two_le := Nat.le_refl 2
  limited := Nat.mul_le_mul_left 2 (Finset.card_pos.mpr ⟨start, known⟩)

namespace Chasing

variable {anchor steps limit further : Nat} (chasing : Chasing next ids start place anchor steps limit)

include chasing

theorem since_succ (onward : next place = some further) : walk next (steps + 1) anchor = some further := by
  rw [walk_add_of chasing.since, walk_one, onward]

theorem fresh_succ (onward : next place = some further) (new : further ≠ anchor) :
    ∀ around, 0 < around → around ≤ steps + 1 → walk next around anchor ≠ some anchor := by
  intro around pos le back
  rcases Nat.of_le_succ le with le | rfl
  · exact chasing.fresh around pos le back
  · exact new (Option.some.inj ((chasing.since_succ onward).symm.trans back))

theorem stay (onward : next place = some further) (new : further ≠ anchor) (below : steps + 1 ≠ limit) :
    Chasing next ids start further anchor (steps + 1) limit where
  passed := chasing.passed
  since := chasing.since_succ onward
  fresh := chasing.fresh_succ onward new
  room := Nat.lt_of_le_of_ne chasing.room below
  two_le := chasing.two_le
  limited := chasing.limited

end Chasing

section Bounds

variable (keeps : Keeps next ids) (known : start ∈ ids)

include keeps known

/-- With its anchor on the circle, a walk is back before it has seen every place. -/
theorem lt_card_of_fresh {anchor steps limit : Nat} (passed : walk next (limit - 2) start = some anchor)
    (since : walk next steps anchor = some place)
    (fresh : ∀ around, 0 < around → around ≤ steps → walk next around anchor ≠ some anchor)
    (late : ids.card < limit) : steps < ids.card := by
  by_contra far
  have far := Nat.not_lt.mp far
  have total : walk next (limit - 2 + steps) start = some place := (walk_add_of passed steps).trans since
  have some_place := Finset.card_pos.mpr ⟨start, known⟩
  obtain ⟨_, long, _⟩ := exists_walk_of_le (show ids.card ≤ limit - 2 + steps by omega) total
  obtain ⟨around, pos, short, back⟩ := exists_around keeps known long (by omega) passed
  exact fresh around pos (Nat.le_trans short far) back

/-- The anchor moves up only while the limit is at most the number of places. -/
theorem Chasing.moveUp {anchor steps limit further : Nat} (chasing : Chasing next ids start place anchor steps limit)
    (onward : next place = some further) (new : further ≠ anchor) (full : steps + 1 = limit) :
    Chasing next ids start further further 0 (2 * limit) where
  passed := by
    have two_le := chasing.two_le
    have halves : 2 * limit - 2 = (limit - 2) + (steps + 1) := by omega
    rw [halves, walk_add_of chasing.passed]
    exact chasing.since_succ onward
  since := rfl
  fresh _ pos le := absurd pos (Nat.not_lt.mpr le)
  room := Nat.mul_pos Nat.zero_lt_two (Nat.lt_of_lt_of_le Nat.zero_lt_two chasing.two_le)
  two_le := Nat.le_trans chasing.two_le (Nat.le_mul_of_pos_left limit Nat.zero_lt_two)
  limited := by
    refine Nat.mul_le_mul_left 2 (Nat.not_lt.mp fun late => ?_)
    have := lt_card_of_fresh keeps known chasing.passed (chasing.since_succ onward)
      (chasing.fresh_succ onward new) late
    omega

theorem Chasing.lt_fuel {anchor steps limit : Nat} (chasing : Chasing next ids start place anchor steps limit) :
    limit - 2 + steps < chaseFuel ids.card := by
  have limited := chasing.limited
  have room := chasing.room
  have two_le := chasing.two_le
  rw [chaseFuel]
  by_cases late : ids.card < limit
  · have := lt_card_of_fresh keeps known chasing.passed chasing.since chasing.fresh late
    omega
  · omega

/-- The walk comes to an answer before its fuel runs out. -/
theorem Chasing.exists_ended {fuel anchor steps limit : Nat} (chasing : Chasing next ids start place anchor steps limit)
    (enough : chaseFuel ids.card ≤ fuel + (limit - 2 + steps)) :
    ∃ ended, chase next fuel place anchor steps limit = some ended := by
  induction fuel generalizing place anchor steps limit with
  | zero =>
    have := chasing.lt_fuel keeps known
    omega
  | succ fuel ih =>
    rw [chase]
    split
    · exact ⟨_, rfl⟩
    · rename_i further onward
      split
      · exact ⟨_, rfl⟩
      · rename_i new
        have two_le := chasing.two_le
        split
        · rename_i full
          exact ih (chasing.moveUp keeps known onward new full) (by omega)
        · rename_i below
          exact ih (chasing.stay onward new below) (by omega)

/-- A walk has one answer with all fuel that is enough, and the answer is true of the chain. -/
theorem exists_chase {count : Nat} (enough : ids.card ≤ count) :
    ∃ ended : ChainEnd, ended.TrueOf next start ∧
      ∀ fuel, chaseFuel count ≤ fuel → chase next fuel start start 0 2 = some ended := by
  obtain ⟨ended, found⟩ := (chasing_start known).exists_ended keeps known (Nat.le_refl (chaseFuel ids.card))
  refine ⟨ended, chase_sound rfl found, fun fuel le => chase_mono ?_ found⟩
  exact Nat.le_trans (Nat.mul_le_mul_left 3 enough) le

/-- Whatever the steps among finitely many places are, and wherever the walk starts, it comes to an
answer; the answer is that the chain runs in a circle exactly when the chain never ends, which is
when it leads into a circle. -/
theorem loops_exact {count : Nat} (enough : ids.card ≤ count) :
    (∃ ended, ∀ fuel, chaseFuel count ≤ fuel → chase next fuel start start 0 2 = some ended) ∧
      (loops count next start = true ↔ Endless next start) ∧
      (Endless next start ↔ RunsIntoCircle next start) := by
  obtain ⟨ended, holds, found⟩ := exists_chase keeps known enough
  refine ⟨⟨ended, found⟩, ?_, endless_iff keeps known⟩
  rw [loops, found _ (Nat.le_refl _)]
  cases ended with
  | last p =>
    obtain ⟨⟨steps, h⟩, last⟩ := holds
    simpa using not_endless_of_last h last
  | circle p =>
    obtain ⟨⟨lead, h⟩, around, pos, back⟩ := holds
    simpa using RunsIntoCircle.endless ⟨lead, p, around, h, pos, back⟩

end Bounds

/-- Two places lead to a circle of three. -/
def tailed (place : Nat) : Option Nat :=
  if place < 4 then some (place + 1) else if place = 4 then some 2 else none

theorem loops_exact_tailed : Keeps tailed (Finset.range 5) ∧ 0 ∈ Finset.range 5 ∧
    loops 5 tailed 0 = true ∧ Endless tailed 0 := by
  have keeps : Keeps tailed (Finset.range 5) := by
    intro p _ q step
    rw [tailed] at step
    rw [Finset.mem_range]
    split at step
    · cases step
      omega
    · split at step
      · cases step
        omega
      · cases step
  have known : 0 ∈ Finset.range 5 := by decide
  have found : loops 5 tailed 0 = true := by decide
  obtain ⟨_, endless, _⟩ := loops_exact keeps known (Nat.le_refl 5)
  exact ⟨keeps, known, found, endless.mp found⟩

end CilPolicy.Graph
