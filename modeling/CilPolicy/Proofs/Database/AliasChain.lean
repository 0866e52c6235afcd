import CilPolicy.Proofs.Database.Declaration
import CilPolicy.Proofs.Graph.Chain
import Mathlib.Data.List.Perm.Subperm

/-!
# Every alias is followed to its end

The chain of an alias leads from declaration to declaration as long as these are aliases and
bound. It ends at a declaration that is none or at an alias that is bound to nothing, or it runs
into a circle. All aliases are resolved when every chain ends at a declaration that is no alias;
each is then given with that declaration. The names in the report of a circle are those of one
circle to which the reported alias leads, each once, though the walk may have come to its anchor
anywhere on the circle.
-/

namespace CilPolicy

namespace Graph

variable {next : Nat → Option Nat}

/-- On a ring, the step from a place leads to the one behind it, and from the last to the first. -/
theorem Ring.next_eq {first place : Nat} {rest front more : List Nat} (ring : Ring next (first :: rest))
    (split : first :: rest = front ++ place :: more) : next place = some (more.headD first) := by
  have inside : front.length < (first :: rest).length := by simp [split]
  have turn := ring.turns front.length inside
  have here : (first :: rest)[front.length] = place := by simp [split]
  rw [here] at turn
  cases more with
  | nil =>
    have whole : (first :: rest).length = front.length + 1 := by simp [split]
    rw [turn, whole, Nat.mod_self]
    rfl
  | cons further more =>
    have lt : front.length + 1 < (first :: rest).length := by simp [split]
    rw [turn, Nat.mod_eq_of_lt lt, split]
    simp

end Graph

namespace AliasLink

variable {links : Array AliasLink}

/-- What an alias is bound to. -/
def target (links : Array AliasLink) (id : Id) : Option Id :=
  links[id]?.bind fun link => if link.isAlias then link.actual else none

theorem target_alias {id : Id} {link : AliasLink} (h : links[id]? = some link) (aliased : link.isAlias = true) :
    target links id = link.actual := by
  rw [target, h, Option.bind_some, if_pos aliased]

theorem target_plain {id : Id} {link : AliasLink} (h : links[id]? = some link) (plain : link.isAlias = false) :
    target links id = none := by
  simp [target, h, plain]

theorem target_eq_some {id other : Id} : target links id = some other ↔
    ∃ link, links[id]? = some link ∧ link.isAlias = true ∧ link.actual = some other := by
  rw [target, Option.bind_eq_some_iff]
  refine exists_congr fun link => and_congr_right fun _ => ?_
  by_cases aliased : link.isAlias = true <;> simp [aliased]

/-- The numbers of the aliases, in the order of their declarations. -/
def aliases (links : Array AliasLink) : List Id :=
  (List.range links.size).filter fun id => links[id]?.any (·.isAlias)

theorem mem_aliases {id : Id} : id ∈ aliases links ↔ ∃ link, links[id]? = some link ∧ link.isAlias = true := by
  rw [aliases, List.mem_filter, List.mem_range, Option.any_eq_true]
  constructor
  · exact And.right
  · rintro ⟨link, h⟩
    exact ⟨(Array.getElem?_eq_some_iff.mp h.1).1, link, h⟩

/-- The chain of a declaration ends at one that is no alias. -/
def StandsFor (links : Array AliasLink) (id actual : Id) : Prop :=
  (∃ steps, Graph.walk (target links) steps id = some actual) ∧
    ∃ link, links[actual]? = some link ∧ link.isAlias = false

theorem StandsFor.last {id a : Id} (h : StandsFor links id a) : target links a = none := by
  obtain ⟨_, link, hlink, plain⟩ := h
  exact target_plain hlink plain

theorem StandsFor.unique {id a b : Id} (ha : StandsFor links id a) (hb : StandsFor links id b) : a = b := by
  obtain ⟨_, hm⟩ := ha.1
  obtain ⟨_, hn⟩ := hb.1
  exact Graph.last_unique hm ha.last hn hb.last

/-! ### The walk -/

/-- What the end of a walk means for the alias that it started from. -/
def verdict (links : Array AliasLink) : Graph.ChainEnd → Except ChainFault Id
  | .last place => if links[place]?.any (·.isAlias) then .error (.unbound place) else .ok place
  | .circle anchor => .error (.circle anchor)

/-- As long as its fuel lasts, an alias is followed by the walk with an anchor. -/
theorem follow_eq_verdict {fuel current anchor steps limit : Nat} {ended : Graph.ChainEnd}
    (h : Graph.chase (target links) fuel current anchor steps limit = some ended) :
    follow links fuel current anchor steps limit = verdict links ended := by
  induction fuel generalizing current anchor steps limit with
  | zero => cases h
  | succ fuel ih =>
    rw [Graph.chase] at h
    rw [follow]
    cases hlink : links[current]? with
    | none =>
      rw [target, hlink, Option.bind_none] at h
      cases h
      simp [verdict, hlink]
    | some link =>
      cases aliased : link.isAlias with
      | false =>
        rw [target_plain hlink aliased] at h
        cases h
        simp [verdict, hlink, aliased]
      | true =>
        rw [target_alias hlink aliased] at h
        cases bound : link.actual with
        | none =>
          rw [bound] at h
          cases h
          simp [verdict, hlink, aliased, bound]
        | some further =>
          simp only [bound] at h
          simp only [aliased, bound, Bool.not_true, Bool.false_eq_true, if_false]
          split at h
          · rename_i closes
            cases h
            rw [if_pos closes, verdict]
          · rw [if_neg ‹_›]
            split at h
            · rw [if_pos ‹_›]
              exact ih h
            · rw [if_neg ‹_›]
              exact ih h

/-! ### The names of a circle -/

/-- The names of some declarations, in their order. -/
def Names (links : Array AliasLink) (names : List String) (ids : List Id) : Prop :=
  List.Forall₂ (fun name id => links[id]?.map (·.name) = some name) names ids

/-- From any place on a ring, the names up to the first place are listed. -/
theorem names_circleFrom {first : Id} {rest more : List Id} (ring : Graph.Ring (target links) (first :: rest))
    (front : List Id) (split : first :: rest = front ++ more) (behind : front ≠ []) {fuel : Nat}
    (enough : more.length ≤ fuel) :
    Names links (circleFrom links first fuel (some (more.headD first))) more := by
  induction more generalizing front fuel with
  | nil =>
    cases fuel with
    | zero => exact .nil
    | succ fuel =>
      rw [circleFrom]
      simp only [List.headD_nil, if_true]
      exact .nil
  | cons place more ih =>
    cases fuel with
    | zero => cases enough
    | succ fuel =>
      have onward := ring.next_eq split
      obtain ⟨link, hlink, _, bound⟩ := target_eq_some.mp onward
      have other : place ≠ first := by
        rintro rfl
        obtain ⟨head, front, rfl⟩ := List.exists_cons_of_ne_nil behind
        rw [List.cons_append, List.cons.injEq] at split
        have := (List.nodup_cons.mp ring.nodup).1
        rw [split.2] at this
        simp at this
      have tail := ih (front ++ [place]) (by simp [split]) (by simp) (Nat.le_of_succ_le_succ enough)
      rw [circleFrom]
      simp only [List.headD_cons, if_neg other, hlink, bound]
      exact .cons (by rw [hlink, Option.map_some]) tail

/-- A ring has no more places than there are declarations. -/
theorem length_ring_le {ring : List Id} (h : Graph.Ring (target links) ring) : ring.length ≤ links.size := by
  have inside : ring ⊆ List.range links.size := by
    intro id hid
    obtain ⟨i, hi, rfl⟩ := List.getElem_of_mem hid
    have turn := h.turns i hi
    rw [List.getElem?_eq_getElem (Nat.mod_lt _ (Nat.zero_lt_of_lt hi))] at turn
    obtain ⟨link, hlink, _⟩ := target_eq_some.mp turn
    exact List.mem_range.mpr (Array.getElem?_eq_some_iff.mp hlink).1
  have le := (List.subperm_of_subset h.nodup inside).length_le
  rwa [List.length_range] at le

theorem names_circle {first : Id} {rest : List Id} (ring : Graph.Ring (target links) (first :: rest)) :
    Names links (circle links first) (first :: rest) := by
  have onward := ring.next_eq (List.nil_append _).symm
  obtain ⟨link, hlink, _, bound⟩ := target_eq_some.mp onward
  have enough : rest.length ≤ links.size := Nat.le_trans (Nat.le_succ _) (length_ring_le ring)
  have tail := names_circleFrom ring [first] rfl (by simp) enough
  rw [circle, hlink]
  simp only [bound]
  exact .cons (by rw [hlink, Option.map_some]) tail

/-! ### Ends and faults -/

theorem keeps_target (inside : Inside links) : Graph.Keeps (target links) (Finset.range links.size) := by
  intro id _ other bound
  obtain ⟨link, hlink, _, actual⟩ := target_eq_some.mp bound
  exact Finset.mem_range.mpr (inside id link hlink other actual)

/-- The walk from an alias has its answer before its fuel runs out. -/
theorem exists_followed (inside : Inside links) {id : Id} {link : AliasLink} (hlink : links[id]? = some link) :
    ∃ ended : Graph.ChainEnd, ended.TrueOf (target links) id ∧ ∀ fuel, followFuel links ≤ fuel →
      Graph.chase (target links) fuel id id 0 2 = some ended ∧ follow links fuel id id 0 2 = verdict links ended := by
  have known : id ∈ Finset.range links.size := Finset.mem_range.mpr (Array.getElem?_eq_some_iff.mp hlink).1
  obtain ⟨ended, holds, found⟩ :=
    Graph.exists_chase (keeps_target inside) known (Nat.le_of_eq (Finset.card_range links.size))
  refine ⟨ended, holds, fun fuel enough => ?_⟩
  have answer := found fuel (by rw [followFuel] at enough; rw [Graph.chaseFuel]; omega)
  exact ⟨answer, follow_eq_verdict answer⟩

/-- An alias leads into the circle that is told with these names. -/
structure LeadsIntoRing (links : Array AliasLink) (id : Id) (told : List String) (ring : List Id) : Prop where
  closed : Graph.Ring (target links) ring
  reached : ∃ steps, ∃ place ∈ ring, Graph.walk (target links) steps id = some place
  names : Names links told ring

/-- An alias stands for the end of its chain; or it has none, and a report of a circle tells the
names of one. -/
theorem resolve_spec (inside : Inside links) {id : Id} {link : AliasLink} (hlink : links[id]? = some link)
    (aliased : link.isAlias = true) :
    (∃ a, StandsFor links id a ∧ resolve links id link = .ok a) ∨
      ∃ cause, resolve links id link = .error (cause, link.location) ∧ (∀ a, ¬ StandsFor links id a) ∧
        ∀ names, cause = .aliasCycle names → ∃ ring, LeadsIntoRing links id names ring := by
  obtain ⟨ended, holds, followed⟩ := exists_followed inside hlink
  have found := (followed _ (Nat.le_refl _)).2
  have targets := target_alias hlink aliased
  cases ended with
  | last place =>
    obtain ⟨⟨steps, h⟩, last⟩ := holds
    have known : place < links.size :=
      Finset.mem_range.mp (Graph.walk_mem (keeps_target inside)
        (Finset.mem_range.mpr (Array.getElem?_eq_some_iff.mp hlink).1) h)
    have hplace : links[place]? = some links[place] := Array.getElem?_eq_getElem known
    cases kind : links[place].isAlias with
    | false =>
      have stands : StandsFor links id place := ⟨⟨steps, h⟩, _, hplace, kind⟩
      refine Or.inl ⟨place, stands, ?_⟩
      cases bound : link.actual with
      | none =>
        -- An alias that is bound to nothing would be its own end.
        rw [bound] at targets
        obtain rfl := Graph.last_unique h last (show Graph.walk (target links) 0 id = some id from rfl) targets
        obtain rfl := Option.some.inj (hlink.symm.trans hplace)
        rw [aliased] at kind
        cases kind
      | some a =>
        rw [resolve, bound]
        simp [found, verdict, hplace, kind]
    | true =>
      have endless : ∀ a, ¬ StandsFor links id a := by
        intro a stands
        obtain ⟨_, ha⟩ := stands.1
        obtain ⟨_, other, hother, plain⟩ := stands
        obtain rfl := Graph.last_unique ha (target_plain hother plain) h last
        obtain rfl := Option.some.inj (hother.symm.trans hplace)
        rw [kind] at plain
        cases plain
      refine Or.inr ?_
      cases bound : link.actual with
      | none => exact ⟨.aliasUnbound, by rw [resolve, bound], endless, by rintro _ ⟨⟩⟩
      | some a =>
        refine ⟨.aliasOfUnbound link.name ((links[place]?.map (·.name)).getD ""), ?_, endless, by rintro _ ⟨⟩⟩
        rw [resolve, bound]
        simp [found, verdict, hplace, kind]
  | circle anchor =>
    obtain ⟨⟨steps, h⟩, around, pos, back⟩ := holds
    have circles : Graph.RunsIntoCircle (target links) id := ⟨steps, anchor, around, h, pos, back⟩
    refine Or.inr ⟨.aliasCycle (circle links anchor), ?_, ?_, ?_⟩
    · cases bound : link.actual with
      | none =>
        rw [bound] at targets
        exact absurd circles.endless (Graph.not_endless_of_last (show Graph.walk _ 0 id = some id from rfl) targets)
      | some a =>
        rw [resolve, bound]
        simp [found, verdict]
    · intro a stands
      obtain ⟨_, ha⟩ := stands.1
      exact Graph.not_endless_of_last ha stands.last circles.endless
    · intro names told
      cases told
      obtain ⟨rest, ring⟩ := Graph.exists_ring pos back
      exact ⟨anchor :: rest, ring, ⟨steps, anchor, List.mem_cons_self, h⟩, names_circle ring⟩

/-! ### All aliases -/

/-- The aliases with their numbers, as they are followed. -/
def numberedAliases (links : Array AliasLink) : List (AliasLink × Id) :=
  links.toList.zipIdx.filter (·.1.isAlias)

theorem mem_numberedAliases {link : AliasLink} {id : Id} :
    (link, id) ∈ numberedAliases links ↔ links[id]? = some link ∧ link.isAlias = true := by
  rw [numberedAliases, List.mem_filter, List.mem_zipIdx_iff_getElem?, Array.getElem?_toList]

theorem map_numberedAliases : (numberedAliases links).map (·.2) = aliases links := by
  have same : ∀ x ∈ links.toList.zipIdx, x.1.isAlias = (fun id => links[id]?.any (·.isAlias)) x.2 := by
    rintro ⟨link, id⟩ h
    rw [List.mem_zipIdx_iff_getElem?, Array.getElem?_toList] at h
    simp [h]
  rw [numberedAliases, List.filter_congr same, aliases, ← Array.length_toList, List.range_eq_range',
    ← List.zipIdx_map_snd 0 links.toList, List.filter_map]
  rfl

/-- An alias is before another in the list when its number is smaller. -/
theorem mem_before {before after : List (AliasLink × Id)} {link : AliasLink} {id other : Id}
    (split : numberedAliases links = before ++ (link, id) :: after) (listed : other ∈ aliases links)
    (lt : other < id) : ∃ b ∈ before, b.2 = other := by
  have ascending : (aliases links).Pairwise (· < ·) := List.pairwise_lt_range.filter _
  rw [← map_numberedAliases, split, List.map_append, List.map_cons] at ascending listed
  obtain ⟨_, behind, _⟩ := List.pairwise_append.mp ascending
  rcases List.mem_append.mp listed with h | h
  · exact List.mem_map.mp h
  · rcases List.mem_cons.mp h with rfl | h
    · exact absurd lt (Nat.lt_irrefl other)
    · exact absurd lt (Nat.lt_asymm ((List.pairwise_cons.mp behind).1 other h))

section All

variable (inside : Inside links)

include inside

theorem resolve_eq_ok_iff {id : Id} {link : AliasLink} (hlink : links[id]? = some link) (aliased : link.isAlias = true)
    {a : Id} : resolve links id link = .ok a ↔ StandsFor links id a := by
  rcases resolve_spec inside hlink aliased with ⟨b, stands, found⟩ | ⟨cause, fails, endless, _⟩
  · rw [found]
    constructor
    · rintro ⟨⟩
      exact stands
    · exact fun h => congrArg _ (stands.unique h)
  · rw [fails]
    constructor
    · rintro ⟨⟩
    · exact fun h => absurd h (endless a)

theorem exists_ends_iff : (∃ ends, resolveAll links = .ok ends) ↔ ∀ id ∈ aliases links, ∃ a, StandsFor links id a := by
  constructor
  · rintro ⟨ends, run⟩ id hid
    obtain ⟨link, hlink, aliased⟩ := mem_aliases.mp hid
    obtain ⟨_, _, run⟩ := exists_of_mapM run (mem_numberedAliases.mpr ⟨hlink, aliased⟩)
    obtain ⟨a, found, _⟩ := bind_eq_ok.mp run
    exact ⟨a, (resolve_eq_ok_iff inside hlink aliased).mp found⟩
  · intro all
    refine Except.exists_mapM fun ⟨link, id⟩ listed => ?_
    obtain ⟨hlink, aliased⟩ := mem_numberedAliases.mp listed
    obtain ⟨a, stands⟩ := all id (mem_aliases.mpr ⟨link, hlink, aliased⟩)
    exact ⟨(id, a), bind_eq_ok.mpr ⟨a, (resolve_eq_ok_iff inside hlink aliased).mpr stands, rfl⟩⟩

/-- Each alias is listed in order, with what it stands for. -/
theorem ends_spec {ends : List (Id × Id)} (run : resolveAll links = .ok ends) :
    ends.map (·.1) = aliases links ∧ ∀ id a, (id, a) ∈ ends ↔ id ∈ aliases links ∧ StandsFor links id a := by
  refine ⟨?_, fun id a => ⟨fun listed => ?_, ?_⟩⟩
  · rw [← map_numberedAliases]
    refine map_of_mapM run fun x b found => ?_
    obtain ⟨a, _, eq⟩ := bind_eq_ok.mp found
    cases eq
    rfl
  · obtain ⟨⟨link, n⟩, known, found⟩ := mem_of_mapM run listed
    obtain ⟨hlink, aliased⟩ := mem_numberedAliases.mp known
    obtain ⟨b, found, eq⟩ := bind_eq_ok.mp found
    cases eq
    exact ⟨mem_aliases.mpr ⟨link, hlink, aliased⟩, (resolve_eq_ok_iff inside hlink aliased).mp found⟩
  · rintro ⟨hid, stands⟩
    obtain ⟨link, hlink, aliased⟩ := mem_aliases.mp hid
    obtain ⟨x, listed, found⟩ := exists_of_mapM run (mem_numberedAliases.mpr ⟨hlink, aliased⟩)
    obtain ⟨b, hb, eq⟩ := bind_eq_ok.mp found
    cases eq
    rw [(resolve_eq_ok_iff inside hlink aliased).mpr stands] at hb
    cases hb
    exact listed

/-- A circle is reported of the first alias without an end. -/
theorem circle_spec {told : List String} {location : Location}
    (run : resolveAll links = .error (.aliasCycle told, location)) :
    ∃ id link ring, links[id]? = some link ∧ link.isAlias = true ∧ link.location = location ∧
      (∀ other ∈ aliases links, other < id → ∃ a, StandsFor links other a) ∧ LeadsIntoRing links id told ring := by
  obtain ⟨before, ⟨link, id⟩, after, split, good, fails⟩ := exists_error_of_mapM run
  dsimp only at fails
  have listed : (link, id) ∈ numberedAliases links := by
    rw [numberedAliases, split]
    simp
  obtain ⟨hlink, aliased⟩ := mem_numberedAliases.mp listed
  rcases resolve_spec inside hlink aliased with ⟨a, _, found⟩ | ⟨cause, found, _, circles⟩
  · rw [found] at fails
    cases fails
  · rw [found] at fails
    cases fails
    obtain ⟨ring, leads⟩ := circles told rfl
    refine ⟨id, link, ring, hlink, aliased, rfl, fun other hother lt => ?_, leads⟩
    obtain ⟨⟨link', other⟩, hb, rfl⟩ := mem_before split hother lt
    obtain ⟨_, found'⟩ := good _ hb
    obtain ⟨a, found', _⟩ := bind_eq_ok.mp found'
    have listed' : (link', other) ∈ numberedAliases links := by
      rw [numberedAliases, split]
      exact List.mem_append_left _ hb
    obtain ⟨hlink', aliased'⟩ := mem_numberedAliases.mp listed'
    exact ⟨a, (resolve_eq_ok_iff inside hlink' aliased').mp found'⟩

end All

/-- What following all chains of aliases comes to. -/
structure ChainsFollowed (links : Array AliasLink) : Prop where
  /-- Every walk has its answer before its fuel runs out. -/
  walks : ∀ id ∈ aliases links, ∃ ended, ∀ fuel, followFuel links ≤ fuel →
    Graph.chase (target links) fuel id id 0 2 = some ended ∧ follow links fuel id id 0 2 = verdict links ended
  /-- So has the walk that lists the names of a circle. -/
  listings : ∀ first rest, Graph.Ring (target links) (first :: rest) → ∀ fuel, links.size ≤ fuel →
    Names links (circleFrom links first fuel (target links first)) rest
  succeeds : (∃ ends, resolveAll links = .ok ends) ↔ ∀ id ∈ aliases links, ∃ a, StandsFor links id a
  ends : ∀ ends, resolveAll links = .ok ends → ends.map (·.1) = aliases links ∧
    ∀ id a, (id, a) ∈ ends ↔ id ∈ aliases links ∧ StandsFor links id a
  circle : ∀ told location, resolveAll links = .error (.aliasCycle told, location) →
    ∃ id link ring, links[id]? = some link ∧ link.isAlias = true ∧ link.location = location ∧
      (∀ other ∈ aliases links, other < id → ∃ a, StandsFor links other a) ∧ LeadsIntoRing links id told ring

/-- Whatever the aliases are bound to, their chains are followed to the end: all walks end, aliases
are resolved when all chains end at a declaration that is no alias, each with that declaration, and a
report of a circle tells the names of one circle, each once. -/
theorem chains_followed (inside : Inside links) : ChainsFollowed links where
  walks id hid := by
    obtain ⟨link, hlink, _⟩ := mem_aliases.mp hid
    obtain ⟨ended, _, followed⟩ := exists_followed inside hlink
    exact ⟨ended, followed⟩
  listings first rest ring fuel enough := by
    have short : rest.length ≤ fuel :=
      Nat.le_trans (Nat.le_trans (Nat.le_succ _) (length_ring_le ring)) enough
    rw [ring.next_eq (List.nil_append _).symm]
    exact names_circleFrom ring [first] rfl (by simp) short
  succeeds := exists_ends_iff inside
  ends _ run := ends_spec inside run
  circle _ _ run := circle_spec inside run

/-- An alias of a type, and an alias that leads into a circle of two others. -/
def straying : Array AliasLink :=
  #[⟨"t", default, false, none⟩, ⟨"a", default, true, some 0⟩, ⟨"b", default, true, some 3⟩,
    ⟨"c", default, true, some 4⟩, ⟨"d", default, true, some 3⟩]

/-- The circle of two is told, and the alias that leads into it is not among its names. -/
theorem chains_followed_straying : Inside straying ∧ ∃ id link ring,
    straying[id]? = some link ∧ link.isAlias = true ∧ LeadsIntoRing straying id ["d", "c"] ring := by
  have inside : Inside straying := by
    have all : straying.all (fun link => link.actual.all (· < straying.size)) = true := by decide +kernel
    intro id link hlink a ha
    have known := Array.all_eq_true_iff_forall_mem.mp all link (Array.mem_of_getElem? hlink)
    simpa [ha] using known
  have run : resolveAll straying = .error (.aliasCycle ["d", "c"], default) := by rfl
  obtain ⟨id, link, ring, hlink, aliased, _, _, leads⟩ := (chains_followed inside).circle _ _ run
  exact ⟨inside, id, link, ring, hlink, aliased, leads⟩

end AliasLink

end CilPolicy
