import CilPolicy.Proofs.Database.Bindings

/-!
# The ends of aliases by name

Two registries in which the same names are bound to the same names may have their declarations
in different orders. The walk along a chain of aliases takes the same steps in both, so aliases
end at the same names.
-/

namespace CilPolicy

namespace Registry

variable {α : Type} {r r' : Registry α} {isAlias : α → Bool} {actual : α → Option Id}

theorem Distinct.id_eq (distinct : r.Distinct) {i j : Id} {name : String} (h : r.Named i name) (h' : r.Named j name) :
    i = j :=
  Option.some.inj ((distinct.find?_eq h).symm.trans (distinct.find?_eq h'))

theorem Distinct.eq_of_nameOf (distinct : r.Distinct) {i j : Nat} (hi : i < r.size) (hj : j < r.size)
    (same : r.nameOf i = r.nameOf j) : i = j :=
  distinct.id_eq (named_nameOf hi) (same ▸ named_nameOf hj)

theorem Distinct.nodup_names (distinct : r.Distinct) : r.names.Nodup := by
  rw [List.Nodup, List.pairwise_iff_getElem]
  intro i j hi hj less same
  rw [names, List.length_map] at hi hj
  have found : ∀ {n} (hn : n < r.toList.length), r.get? n = some r.toList[n] := fun hn =>
    Array.getElem?_toList.symm.trans (List.getElem?_eq_getElem hn)
  simp only [names, List.getElem_map] at same
  exact absurd (distinct i j _ _ (found hi) (found hj) same) (Nat.ne_of_lt less)

/-- The same names are aliases in both registries, and are bound to the same names. -/
structure Alike (isAlias : α → Bool) (actual : α → Option Id) (r r' : Registry α) : Prop where
  distinct : r.Distinct
  distinct' : r'.Distinct
  inside : r.All fun v => ∀ a ∈ actual v, a < r.size
  inside' : r'.All fun v => ∀ a ∈ actual v, a < r'.size
  kind (name : String) : (r.look name).map isAlias = (r'.look name).map isAlias
  bound (name : String) : r.bound actual r name = r'.bound actual r' name

/-- Two numbers of one name. -/
def Twin (r r' : Registry α) (i j : Id) : Prop :=
  ∃ name, r.Named i name ∧ r'.Named j name

namespace Alike

theorem symm (alike : Alike isAlias actual r r') : Alike isAlias actual r' r where
  distinct := alike.distinct'
  distinct' := alike.distinct
  inside := alike.inside'
  inside' := alike.inside
  kind name := (alike.kind name).symm
  bound name := (alike.bound name).symm

variable (alike : Alike isAlias actual r r')

include alike

/-- What is declared in one registry is declared in the other. -/
theorem named {i : Id} {name : String} (h : r.Named i name) : ∃ j, r'.Named j name := by
  obtain ⟨v, hv⟩ := exists_value? h.lt
  have found : (r'.look name).map isAlias = some (isAlias v) := by
    rw [← alike.kind, alike.distinct.look_eq h, hv, Option.map_some]
  obtain ⟨v', hv', _⟩ := Option.map_eq_some_iff.mp found
  obtain ⟨j, hj, _⟩ := Option.bind_eq_some_iff.mp hv'
  exact ⟨j, named_of_find? hj⟩

theorem twin {i : Nat} (h : i < r.size) : ∃ j, Twin r r' i j := by
  obtain ⟨j, hj⟩ := alike.named (named_nameOf h)
  exact ⟨j, _, named_nameOf h, hj⟩

/-- Both registries have as many declarations. -/
theorem size : r.size = r'.size := by
  rw [← length_names, ← length_names]
  refine List.Perm.length_eq
    ((List.perm_ext_iff_of_nodup alike.distinct.nodup_names alike.distinct'.nodup_names).mpr ?_)
  intro name
  rw [mem_names_iff, mem_names_iff, ← Option.isSome_map, alike.kind, Option.isSome_map]

/-- Numbers are equal when their twins are. -/
theorem eq_iff {i j a b : Id} (h : Twin r r' i j) (h' : Twin r r' a b) : i = a ↔ j = b := by
  obtain ⟨name, hi, hj⟩ := h
  obtain ⟨name', ha, hb⟩ := h'
  constructor
  · rintro rfl
    obtain rfl : name = name' := hi.nameOf.symm.trans ha.nameOf
    exact alike.distinct'.id_eq hj hb
  · rintro rfl
    obtain rfl : name = name' := hj.nameOf.symm.trans hb.nameOf
    exact alike.distinct.id_eq hi ha

/-- Twins are both aliases or both none, and what they are bound to are twins. -/
theorem links {i j : Id} (h : Twin r r' i j) : ∃ v v', r.value? i = some v ∧ r'.value? j = some v' ∧
    isAlias v = isAlias v' ∧ Option.Rel (Twin r r') (actual v) (actual v') := by
  obtain ⟨name, hi, hj⟩ := h
  obtain ⟨v, hv⟩ := exists_value? hi.lt
  obtain ⟨v', hv'⟩ := exists_value? hj.lt
  have kind := alike.kind name
  have bound := alike.bound name
  rw [alike.distinct.look_eq hi, alike.distinct'.look_eq hj, hv, hv', Option.map_some, Option.map_some] at kind
  rw [alike.distinct.bound_eq hi hv, alike.distinct'.bound_eq hj hv'] at bound
  refine ⟨v, v', hv, hv', Option.some.inj kind, ?_⟩
  cases ha : actual v with
  | none =>
    rw [ha] at bound
    rw [Option.map_eq_none_iff.mp bound.symm]
    exact .none
  | some a =>
    rw [ha] at bound
    obtain ⟨b, hb, same⟩ := Option.map_eq_some_iff.mp bound.symm
    rw [hb]
    exact .some ⟨_, named_nameOf (alike.inside i v hv a ha), same ▸ named_nameOf (alike.inside' j v' hv' b hb)⟩

end Alike

/-- The declarations as the chains of aliases see them. -/
def links (r : Registry α) (isAlias : α → Bool) (actual : α → Option Id) : Array AliasLink :=
  r.entries.map fun d => ⟨d.name, d.location, isAlias d.value, actual d.value⟩

theorem size_links (r : Registry α) (isAlias : α → Bool) (actual : α → Option Id) :
    (r.links isAlias actual).size = r.size :=
  Array.size_map ..

theorem exists_link (isAlias : α → Bool) (actual : α → Option Id) {i : Id} {v : α} (h : r.value? i = some v) :
    ∃ link, (r.links isAlias actual)[i]? = some link ∧ link.isAlias = isAlias v ∧ link.actual = actual v := by
  obtain ⟨d, hd, rfl⟩ := value?_eq_some.mp h
  refine ⟨⟨d.name, d.location, isAlias d.value, actual d.value⟩, ?_, rfl, rfl⟩
  rw [links, Array.getElem?_map]
  exact congrArg (Option.map _) hd

namespace Alike

variable (alike : Alike isAlias actual r r')

include alike

/-- The walk takes the same steps in both registries. -/
theorem tells_follow {fuel : Nat} {i j a b : Id} {steps limit : Nat} (here : Twin r r' i j) (anchor : Twin r r' a b) :
    Tells (Twin r r') (AliasLink.follow (r.links isAlias actual) fuel i a steps limit)
      (AliasLink.follow (r'.links isAlias actual) fuel j b steps limit) := by
  induction fuel generalizing i j a b steps limit with
  | zero => exact True.intro
  | succ fuel ih =>
    obtain ⟨v, v', hv, hv', kind, bound⟩ := alike.links here
    obtain ⟨link, hlink, isAlias_eq, actual_eq⟩ := exists_link isAlias actual hv
    obtain ⟨link', hlink', isAlias_eq', actual_eq'⟩ := exists_link isAlias actual hv'
    rw [AliasLink.follow, AliasLink.follow, hlink, hlink']
    simp only [isAlias_eq, isAlias_eq', actual_eq, actual_eq', kind]
    split
    · exact here
    · revert bound
      generalize actual v = o, actual v' = o'
      rintro (@⟨n, n', next⟩ | _)
      · dsimp only
        simp only [alike.eq_iff next anchor]
        split
        · exact True.intro
        · split
          · exact ih next next
          · exact ih next anchor
      · exact True.intro

theorem tells_resolve {i j : Id} {link link' : AliasLink} (here : Twin r r' i j)
    (h : (r.links isAlias actual)[i]? = some link) (h' : (r'.links isAlias actual)[j]? = some link') :
    Tells (Twin r r') (AliasLink.resolve (r.links isAlias actual) i link)
      (AliasLink.resolve (r'.links isAlias actual) j link') := by
  obtain ⟨v, v', hv, hv', kind, bound⟩ := alike.links here
  obtain ⟨_, hlink, -, actual_eq⟩ := exists_link isAlias actual hv
  obtain ⟨_, hlink', -, actual_eq'⟩ := exists_link isAlias actual hv'
  obtain rfl := Option.some.inj (h.symm.trans hlink)
  obtain rfl := Option.some.inj (h'.symm.trans hlink')
  have fuel : AliasLink.followFuel (r.links isAlias actual) = AliasLink.followFuel (r'.links isAlias actual) := by
    rw [AliasLink.followFuel, AliasLink.followFuel, size_links, size_links, alike.size]
  have walk : Tells (Twin r r')
      (AliasLink.follow (r.links isAlias actual) (AliasLink.followFuel (r'.links isAlias actual)) i i 0 2)
      (AliasLink.follow (r'.links isAlias actual) (AliasLink.followFuel (r'.links isAlias actual)) j j 0 2) :=
    alike.tells_follow here here
  rw [AliasLink.resolve, AliasLink.resolve, actual_eq, actual_eq', fuel]
  revert bound
  generalize actual v = o, actual v' = o'
  rintro (_ | _)
  · dsimp only
    revert walk
    generalize AliasLink.follow _ _ i i 0 2 = x, AliasLink.follow _ _ j j 0 2 = y
    intro walk
    cases x with
    | ok =>
      cases y with
      | ok => exact walk
      | error => exact walk.elim
    | error e =>
      cases y with
      | ok => exact walk.elim
      | error e' => cases e <;> cases e' <;> exact True.intro
  · exact True.intro

end Alike

theorem aliasEnds_eq_resolveAll {ends : List (Id × Id)} : Database.aliasEnds r isAlias actual = .ok ends ↔
    AliasLink.resolveAll (r.links isAlias actual) = .ok ends := by
  unfold Database.aliasEnds links
  dsimp only
  split
  · rename_i run
    rw [run]
    exact ⟨congrArg _ ∘ Except.ok.inj, congrArg _ ∘ Except.ok.inj⟩
  · rename_i run
    rw [run]
    constructor <;> rintro ⟨⟩

/-- What the walk finds: each alias once, with its end. -/
theorem aliasEnds_eq_ok {ends : List (Id × Id)} (run : Database.aliasEnds r isAlias actual = .ok ends) :
    (∀ i link, (r.links isAlias actual)[i]? = some link → link.isAlias = true →
      ∃ a, AliasLink.resolve (r.links isAlias actual) i link = .ok a) ∧
    ∀ i a, (i, a) ∈ ends → ∃ link, (r.links isAlias actual)[i]? = some link ∧ link.isAlias = true ∧
      AliasLink.resolve (r.links isAlias actual) i link = .ok a := by
  have found := aliasEnds_eq_resolveAll.mp run
  rw [AliasLink.resolveAll] at found
  constructor
  · intro i link hlink aliased
    have listed : (link, i) ∈ (r.links isAlias actual).toList.zipIdx.filter (·.1.isAlias) := by
      rw [List.mem_filter]
      exact ⟨List.mem_zipIdx_iff_getElem?.mpr (by simpa using hlink), aliased⟩
    obtain ⟨b, _, hrun⟩ := exists_of_mapM found listed
    obtain ⟨a, ha, _⟩ := bind_eq_ok.mp hrun
    exact ⟨a, ha⟩
  · intro i a hmem
    obtain ⟨⟨link, n⟩, listed, hrun⟩ := mem_of_mapM found hmem
    obtain ⟨stop, hstop, heq⟩ := bind_eq_ok.mp hrun
    cases heq
    obtain ⟨hzip, aliased⟩ := List.mem_filter.mp listed
    exact ⟨link, by simpa using List.mem_zipIdx_iff_getElem?.mp hzip, aliased, hstop⟩

/-- When every alias has an end, the walk finds them all. -/
theorem exists_aliasEnds (all : ∀ i link, (r.links isAlias actual)[i]? = some link → link.isAlias = true →
      ∃ a, AliasLink.resolve (r.links isAlias actual) i link = .ok a) :
    ∃ ends, Database.aliasEnds r isAlias actual = .ok ends := by
  have each : ∀ x ∈ (r.links isAlias actual).toList.zipIdx.filter (·.1.isAlias), ∃ b : Id × Id,
      (do return (x.2, ← AliasLink.resolve (r.links isAlias actual) x.2 x.1)) = .ok b := by
    rintro ⟨link, i⟩ listed
    obtain ⟨hzip, aliased⟩ := List.mem_filter.mp listed
    obtain ⟨a, ha⟩ := all i link (by simpa using List.mem_zipIdx_iff_getElem?.mp hzip) aliased
    exact ⟨(i, a), bind_eq_ok.mpr ⟨a, ha, rfl⟩⟩
  obtain ⟨ends, found⟩ := Except.exists_mapM each
  exact ⟨ends, aliasEnds_eq_resolveAll.mpr found⟩

/-- When every alias of one registry has an end, so has every alias of the other, and the ends
of twins are twins. -/
theorem Alike.ends (alike : Alike isAlias actual r r') {ends : List (Id × Id)}
    (run : Database.aliasEnds r isAlias actual = .ok ends) :
    ∃ ends', Database.aliasEnds r' isAlias actual = .ok ends' ∧
      ∀ i a j b, (i, a) ∈ ends → (j, b) ∈ ends' → Twin r r' i j → Twin r r' a b := by
  obtain ⟨all, each⟩ := aliasEnds_eq_ok run
  obtain ⟨ends', run'⟩ : ∃ ends', Database.aliasEnds r' isAlias actual = .ok ends' := by
    refine exists_aliasEnds fun j link' hlink' aliased => ?_
    have declared : j < r'.size := size_links r' isAlias actual ▸ (Array.getElem?_eq_some_iff.mp hlink').1
    obtain ⟨i, name, hj, hi⟩ := alike.symm.twin declared
    have here : Twin r r' i j := ⟨name, hi, hj⟩
    obtain ⟨v, v', hv, hv', kind, -⟩ := alike.links here
    obtain ⟨link, hlink, isAlias_eq, -⟩ := exists_link isAlias actual hv
    obtain ⟨_, hlink'', isAlias_eq', -⟩ := exists_link isAlias actual hv'
    obtain rfl := Option.some.inj (hlink'.symm.trans hlink'')
    obtain ⟨a, ha⟩ := all i link hlink (isAlias_eq.trans (kind.trans (isAlias_eq'.symm.trans aliased)))
    obtain ⟨b, hb, _⟩ := (alike.tells_resolve here hlink hlink').exists_right ha
    exact ⟨b, hb⟩
  refine ⟨ends', run', fun i a j b ha hb here => ?_⟩
  obtain ⟨link, hlink, -, hresolve⟩ := each i a ha
  obtain ⟨link', hlink', -, hresolve'⟩ := (aliasEnds_eq_ok run').2 j b hb
  obtain ⟨b', hb', twin⟩ := (alike.tells_resolve here hlink hlink').exists_right hresolve
  rw [hresolve'] at hb'
  cases hb'
  exact twin

/-! ### After the ends are entered -/

section Entered

variable {put : Id → α → α} {ends : List (Id × Id)}

theorem outline_enterEnds {β : Type} {f : α → β} (keeps : ∀ a v, f (put a v) = f v) (ends : List (Id × Id))
    (r : Registry α) : (Database.enterEnds put ends r).outline f = r.outline f := by
  induction ends generalizing r with
  | nil => rfl
  | cons first rest ih => exact (ih _).trans (outline_modify (keeps first.2) first.1)

theorem outline_enterEnds_unit :
    (Database.enterEnds put ends r).outline (fun _ => ()) = r.outline fun _ => () :=
  outline_enterEnds (f := fun _ => ()) (fun _ _ => by rfl) ends r

theorem named_enterEnds {i : Id} {name : String} : (Database.enterEnds put ends r).Named i name ↔ r.Named i name := by
  rw [← named_outline (fun _ => ()), outline_enterEnds_unit, named_outline]

theorem nameOf_enterEnds (n : Id) : (Database.enterEnds put ends r).nameOf n = r.nameOf n := by
  rw [← nameOf_outline (fun _ => ()), outline_enterEnds_unit, nameOf_outline]

theorem look_enterEnds {β : Type} {f : α → β} (keeps : ∀ a v, f (put a v) = f v) (name : String) :
    ((Database.enterEnds put ends r).look name).map f = (r.look name).map f := by
  rw [← look_outline, outline_enterEnds keeps, look_outline]

theorem Distinct.enterEnds (distinct : r.Distinct) : (Database.enterEnds put ends r).Distinct := by
  rw [← distinct_outline (fun _ => ()), outline_enterEnds_unit, distinct_outline]
  exact distinct

theorem size_enterEnds : (Database.enterEnds put ends r).size = r.size := by
  rw [← size_outline (fun _ => ()), outline_enterEnds_unit, size_outline]

/-- Only aliases have ends. -/
theorem isAlias_of_end (run : Database.aliasEnds r isAlias actual = .ok ends) {i a : Id} {v : α} (h : (i, a) ∈ ends)
    (hv : r.value? i = some v) : isAlias v = true := by
  obtain ⟨link, hlink, aliased, -⟩ := (aliasEnds_eq_ok run).2 i a h
  obtain ⟨_, hlink', isAlias_eq, -⟩ := exists_link isAlias actual hv
  obtain rfl := Option.some.inj (hlink.symm.trans hlink')
  exact isAlias_eq.symm.trans aliased

/-- In the end, aliases of one name stand for declarations of one name. -/
theorem Alike.bound_enterEnds (alike : Alike isAlias actual r r') (sets : ∀ a v, actual (put a v) = some a)
    {ends ends' : List (Id × Id)} (run : Database.aliasEnds r isAlias actual = .ok ends)
    (run' : Database.aliasEnds r' isAlias actual = .ok ends')
    (same : ∀ i a j b, (i, a) ∈ ends → (j, b) ∈ ends' → Twin r r' i j → Twin r r' a b) (name : String) :
    (Database.enterEnds put ends r).bound actual (Database.enterEnds put ends r) name =
      (Database.enterEnds put ends' r').bound actual (Database.enterEnds put ends' r') name := by
  cases hlook : r.look name with
  | none =>
    have absent : ∀ {s : Registry α} {es : List (Id × Id)}, s.look name = none →
        (Database.enterEnds put es s).look name = none := fun h =>
      Option.map_eq_none_iff.mp ((look_enterEnds (f := fun _ => ()) (fun _ _ => by rfl) name).trans (by rw [h]; rfl))
    have absent' : r'.look name = none := by
      have kind := alike.kind name
      rw [hlook] at kind
      exact Option.map_eq_none_iff.mp kind.symm
    rw [Registry.bound, Registry.bound, absent hlook, absent absent']
    rfl
  | some v₀ =>
    obtain ⟨i, hi, _⟩ := Option.bind_eq_some_iff.mp hlook
    have named := named_of_find? hi
    obtain ⟨j, named'⟩ := alike.named named
    have here : Twin r r' i j := ⟨name, named, named'⟩
    have inE : (Database.enterEnds put ends r).Named i name := named_enterEnds.mpr named
    have inE' : (Database.enterEnds put ends' r').Named j name := named_enterEnds.mpr named'
    obtain ⟨v, hv⟩ := exists_value? inE.lt
    obtain ⟨v', hv'⟩ := exists_value? inE'.lt
    rw [alike.distinct.enterEnds.bound_eq inE hv, alike.distinct'.enterEnds.bound_eq inE' hv']
    obtain ⟨w, hw, found⟩ := Database.value?_enterEnds sets hv
    obtain ⟨w', hw', found'⟩ := Database.value?_enterEnds sets hv'
    obtain ⟨_, _, hu, hu', kind, -⟩ := alike.links here
    obtain rfl := Option.some.inj (hw.symm.trans hu)
    obtain rfl := Option.some.inj (hw'.symm.trans hu')
    rw [funext nameOf_enterEnds, funext nameOf_enterEnds]
    -- A declaration has an end exactly when it is an alias, as its twin is.
    have bound := alike.bound name
    rw [alike.distinct.bound_eq named hw, alike.distinct'.bound_eq named' hw'] at bound
    rcases found with ⟨rfl, endless⟩ | ⟨a, ha, stands⟩
    · rcases found' with ⟨rfl, _⟩ | ⟨b, hb, _⟩
      · exact bound
      · obtain ⟨a, ha⟩ := (Database.aliasEnds_ok alike.inside run).1 i _ hw (kind.trans (isAlias_of_end run' hb hw'))
        exact absurd ha (endless a)
    · rcases found' with ⟨rfl, endless⟩ | ⟨b, hb, stands'⟩
      · obtain ⟨b, hb⟩ := (Database.aliasEnds_ok alike.inside' run').1 j _ hw'
          (kind.symm.trans (isAlias_of_end run ha hw))
        exact absurd hb (endless b)
      · obtain ⟨last, hlast, hlast'⟩ := same i a j b ha hb here
        rw [stands, stands', Option.map_some, Option.map_some, hlast.nameOf, hlast'.nameOf]

end Entered

end Registry

end CilPolicy
