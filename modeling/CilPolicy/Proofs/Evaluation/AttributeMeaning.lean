import CilPolicy.Proofs.Database.Permutation
import CilPolicy.Proofs.Verification.Circular

/-!
# What attributes stand for

The sets of an attribute say what its members are, in terms of declarations and of other attributes.
Without circles such equations have one solution, and evaluation comes to it. So the members of an
attribute are known from what the statements say by name, whatever the order of the declarations.
-/

namespace CilPolicy

/-! ### Denotations of one number -/

namespace Operator

variable {whole whole' : Nat → Prop} {n n' : Nat} {ps qs : List (Nat → Prop)}

/-- An operator asks its operands for one number only. -/
theorem denotes_congr (op : Operator) (wholes : whole n ↔ whole' n')
    (operands : List.Forall₂ (fun p q => p n ↔ q n') ps qs) :
    op.Denotes whole ps n ↔ op.Denotes whole' qs n' := by
  have union : (∃ p ∈ ps, p n) ↔ ∃ q ∈ qs, q n' := by
    induction operands with
    | nil => simp
    | cons first _ ih => simp only [List.mem_cons, or_and_right, exists_or, exists_eq_left, first, ih]
  cases op with
  | all => exact wholes
  | not =>
    rcases operands with _ | ⟨first, _ | ⟨second, others⟩⟩
    · exact union
    · exact and_congr wholes (not_congr first)
    · exact union
  | and =>
    rcases operands with _ | ⟨first, _ | ⟨second, _ | ⟨third, others⟩⟩⟩
    · exact union
    · exact union
    · exact and_congr first second
    · exact union
  | or =>
    rcases operands with _ | ⟨first, _ | ⟨second, _ | ⟨third, others⟩⟩⟩
    · exact union
    · exact union
    · exact or_congr first second
    · exact union
  | xor =>
    rcases operands with _ | ⟨first, _ | ⟨second, _ | ⟨third, others⟩⟩⟩
    · exact union
    · exact union
    · exact and_congr (not_congr (iff_congr first second)) wholes
    · exact union
  | range | eq | neq => exact union

theorem inside_of_denotes (op : Operator) (inside : ∀ p ∈ ps, p n → whole n) (h : op.Denotes whole ps n) :
    whole n := by
  have union : (∃ p ∈ ps, p n) → whole n := fun ⟨p, hp, hn⟩ => inside p hp hn
  cases op with
  | all => exact h
  | not =>
    match ps with
    | [_] => exact h.1
    | [] | _ :: _ :: _ => exact union h
  | and =>
    match ps with
    | [a, _] => exact inside a List.mem_cons_self h.1
    | [] | [_] | _ :: _ :: _ :: _ => exact union h
  | or =>
    match ps with
    | [a, b] => exact h.elim (inside a (by simp)) (inside b (by simp))
    | [] | [_] | _ :: _ :: _ :: _ => exact union h
  | xor =>
    match ps with
    | [_, _] => exact h.2
    | [] | [_] | _ :: _ :: _ :: _ => exact union h
  | range | eq | neq => exact union h

end Operator

namespace Expr

section

variable {γ : Type} {ν ν' : Id → γ} {whole whole' : Nat → Prop} {leaf leaf' : Id → Nat → Prop} {n n' : Nat}

mutual

/-- Expressions that are the same by name denote what they do by what their leaves denote. -/
theorem denotes_congr (wholes : whole n ↔ whole' n') : (e e' : Expr Id) → e.map ν = e'.map ν' →
    (∀ x ∈ e.leaves, ∀ x' ∈ e'.leaves, ν x = ν' x' → (leaf x n ↔ leaf' x' n')) →
    (e.Denotes whole leaf n ↔ e'.Denotes whole' leaf' n')
  | item x, item x', same, leaves => by
    simp only [map, item.injEq] at same
    exact leaves x (by simp [Expr.leaves]) x' (by simp [Expr.leaves]) same
  | list es, list fs, same, leaves => by
    simp only [map, list.injEq] at same
    exact Operator.denotes_congr .eq wholes (denotations_congr wholes es fs same leaves)
  | apply op es, apply op' fs, same, leaves => by
    simp only [map, apply.injEq] at same
    obtain ⟨rfl, same⟩ := same
    exact Operator.denotes_congr op wholes (denotations_congr wholes es fs same leaves)
  | item _, list _, same, _ | item _, apply _ _, same, _ | list _, item _, same, _ | list _, apply _ _, same, _
  | apply _ _, item _, same, _ | apply _ _, list _, same, _ => by simp [map] at same

theorem denotations_congr (wholes : whole n ↔ whole' n') : (es fs : List (Expr Id)) →
    mapAll ν es = mapAll ν' fs →
    (∀ x ∈ leavesAll es, ∀ x' ∈ leavesAll fs, ν x = ν' x' → (leaf x n ↔ leaf' x' n')) →
    List.Forall₂ (fun p q => p n ↔ q n') (denotations whole leaf es) (denotations whole' leaf' fs)
  | [], [], _, _ => .nil
  | e :: es, f :: fs, same, leaves => by
    simp only [mapAll, List.cons.injEq] at same
    exact .cons
      (denotes_congr wholes e f same.1 fun x hx x' hx' =>
        leaves x (List.mem_append_left _ hx) x' (List.mem_append_left _ hx'))
      (denotations_congr wholes es fs same.2 fun x hx x' hx' =>
        leaves x (List.mem_append_right _ hx) x' (List.mem_append_right _ hx'))
  | [], _ :: _, same, _ | _ :: _, [], same, _ => by simp [mapAll] at same

end

mutual

/-- What an expression denotes is in the whole if what its leaves denote is. -/
theorem inside_of_denotes : (e : Expr Id) → (∀ x ∈ e.leaves, leaf x n → whole n) →
    e.Denotes whole leaf n → whole n
  | item x, leaves, h => leaves x (by simp [Expr.leaves]) h
  | list es, leaves, ⟨p, hp, hn⟩ => inside_of_denotations es leaves p hp hn
  | apply op es, leaves, h => op.inside_of_denotes (inside_of_denotations es leaves) h

theorem inside_of_denotations : (es : List (Expr Id)) → (∀ x ∈ leavesAll es, leaf x n → whole n) →
    ∀ p ∈ denotations whole leaf es, p n → whole n
  | [], _, _, hp => absurd hp List.not_mem_nil
  | e :: es, leaves, p, hp => by
    rcases List.mem_cons.mp hp with rfl | hp
    · exact inside_of_denotes e fun x hx => leaves x (List.mem_append_left _ hx)
    · exact inside_of_denotations es (fun x hx => leaves x (List.mem_append_right _ hx)) p hp

end

theorem mem_denotations {es : List (Expr Id)} :
    (∃ p ∈ denotations whole leaf es, p n) ↔ ∃ e ∈ es, e.Denotes whole leaf n := by
  induction es with
  | nil => simp [denotations]
  | cons e es ih => simp [denotations, ih]

end

end Expr

/-! ### The equations of attributes -/

namespace Member

/-- What a name in a set stands for: a concrete declaration for itself, an attribute for its
members. -/
inductive Stands (r : Registry Member) (belongs : Id → Nat → Prop) : Id → Nat → Prop
  | itself {id : Id} (known : r.value? id = some concrete) : Stands r belongs id id
  | member {id : Id} {sets : List (Expr Id)} {n : Nat} (known : r.value? id = some (attr sets))
      (inside : belongs id n) : Stands r belongs id n

/-- The members of every attribute are what its sets denote within the concrete declarations. -/
def Solves (r : Registry Member) (belongs : Id → Nat → Prop) : Prop :=
  ∀ id sets, r.value? id = some (attr sets) → ∀ n, belongs id n ↔
    ∃ e ∈ sets, e.Denotes (fun n => r.value? n = some concrete) (Stands r belongs) n

variable {r r' : Registry Member} {belongs belongs' : Id → Nat → Prop} {layer : Id → Nat}

/-- The members of a registry as they are evaluated. -/
def ofRegistry (r : Registry Member) : Array Member :=
  r.entries.map (·.value)

theorem getElem?_ofRegistry (id : Nat) : (ofRegistry r)[id]? = r.value? id := by
  rw [ofRegistry, Array.getElem?_map]
  rfl

theorem stands_concrete {id : Id} {n : Nat} (known : r.value? id = some concrete) :
    Stands r belongs id n ↔ n = id := by
  constructor
  · rintro (_ | ⟨known', _⟩)
    · rfl
    · cases known.symm.trans known'
  · rintro rfl
    exact .itself known

theorem stands_attr {id : Id} {sets : List (Expr Id)} {n : Nat} (known : r.value? id = some (attr sets)) :
    Stands r belongs id n ↔ belongs id n := by
  constructor
  · rintro (known' | ⟨_, member⟩)
    · cases known.symm.trans known'
    · exact member
  · exact .member known

/-- The sets that attributes are evaluated to solve the equations. -/
theorem Layered.solves (layered : Layered (ofRegistry r) layer) :
    Solves r fun id n => n ∈ expand (ofRegistry r) (evaluate (ofRegistry r)) id := by
  have ww : (concretes (ofRegistry r)).WellFormed := BitSet.wellFormed_ofList _
  have bounded := within_expand (allWithin_evaluate (ofRegistry r))
  have whole : ∀ n, n ∈ concretes (ofRegistry r) ↔ r.value? n = some concrete := fun n => by
    rw [mem_concretes, getElem?_ofRegistry]
  intro id sets known n
  have known' : (ofRegistry r)[id]? = some (attr sets) := (getElem?_ofRegistry id).trans known
  obtain ⟨wf, evaluates⟩ := Expr.represents_evaluate ww (fun id => (bounded id).wellFormed) (.list sets)
  have leaf : ∀ e ∈ sets, ∀ x ∈ e.leaves, n ∈ expand (ofRegistry r) (evaluate (ofRegistry r)) x ↔
      Stands r (fun id n => n ∈ expand (ofRegistry r) (evaluate (ofRegistry r)) id) x n := by
    intro e he x hx
    cases hx' : r.value? x with
    | none =>
      refine iff_of_false ?_ ?_
      · rw [expand, getElem?_ofRegistry, hx']
        exact BitSet.not_mem_empty n
      · rintro (found | ⟨found, _⟩) <;> cases hx'.symm.trans found
    | some m =>
      cases m with
      | concrete =>
        rw [stands_concrete hx', expand, getElem?_ofRegistry, hx']
        exact BitSet.mem_singleton
      | aliasName actual =>
        exact absurd ((getElem?_ofRegistry x).trans hx') (layered.plain id sets known' e he x hx actual)
      | attr inner => rw [stands_attr hx']
  dsimp only
  rw [layered.expand_attr known', BitSet.mem_inter wf ww, evaluates]
  refine (and_iff_left_of_imp fun denoted => ?_).trans (Expr.mem_denotations.trans ?_)
  · exact Expr.inside_of_denotes (.list sets) (fun x _ => (bounded x).inside n) denoted
  · refine exists_congr fun e => and_congr_right fun he => ?_
    have plain : e.map (fun x : Id => x) = e.map fun x => x := rfl
    refine Expr.denotes_congr (whole n) e e plain fun x hx x' _ same => ?_
    cases same
    exact leaf e he x hx

/-! ### Solutions by name -/

/-- Declarations of one kind, whose sets are the same by name. -/
inductive Matches (ν ν' : Id → String) : Member → Member → Prop
  | concrete : Matches ν ν' concrete concrete
  | aliasName {actual actual' : Option Id} : Matches ν ν' (aliasName actual) (aliasName actual')
  | attr {sets sets' : List (Expr Id)} (same : (sets.map (·.map ν)).Perm (sets'.map (·.map ν'))) :
      Matches ν ν' (attr sets) (attr sets')

/-- Under each name, the registries have declarations that match. -/
def Alike (r r' : Registry Member) : Prop :=
  ∀ name, Option.Rel (Matches r.nameOf r'.nameOf) (r.look name) (r'.look name)

/-- What stands in the sets is declared. -/
def LeavesDeclared (r : Registry Member) : Prop :=
  ∀ id sets, r.value? id = some (attr sets) → ∀ e ∈ sets, ∀ x ∈ e.leaves, x < r.size

theorem alike_refl (r : Registry Member) : Alike r r := by
  intro name
  cases r.look name with
  | none => exact .none
  | some m =>
    refine .some ?_
    cases m with
    | concrete => exact .concrete
    | aliasName => exact .aliasName
    | attr => exact .attr (.refl _)

/-- What one registry declares under a name, the other declares too. -/
theorem Alike.exists_find? (alike : Alike r r') {x : Id} {name : String} (found : r.find? name = some x) :
    ∃ x', r'.find? name = some x' := by
  have rel := alike name
  obtain ⟨d, hd, _⟩ := Registry.named_of_find? found
  rw [Registry.look, found, Option.bind_some, Registry.value?, hd] at rel
  cases found' : r'.find? name with
  | none =>
    rw [Registry.look, found'] at rel
    cases rel
  | some x' => exact ⟨x', rfl⟩

section Alike

variable (distinct : r.Distinct) (distinct' : r'.Distinct) (alike : Alike r r') {x x' : Id} {name : String}
  (named : r.Named x name) (named' : r'.Named x' name)

include distinct distinct' alike named named'

theorem Alike.rel : Option.Rel (Matches r.nameOf r'.nameOf) (r.value? x) (r'.value? x') := by
  rw [← distinct.look_eq named, ← distinct'.look_eq named']
  exact alike name

theorem Alike.concrete_iff : r.value? x = some concrete ↔ r'.value? x' = some concrete := by
  generalize r.value? x = m, r'.value? x' = m', alike.rel distinct distinct' named named' = rel
  cases rel with
  | none => exact Iff.rfl
  | some same => cases same <;> simp

theorem Alike.sets {sets : List (Expr Id)} (known : r.value? x = some (attr sets)) :
    ∃ sets', r'.value? x' = some (attr sets') ∧
      (sets.map (·.map r.nameOf)).Perm (sets'.map (·.map r'.nameOf)) := by
  have rel := alike.rel distinct distinct' named named'
  rw [known] at rel
  generalize r'.value? x' = m' at rel
  cases rel with
  | some matched =>
    cases matched with
    | attr same => exact ⟨_, rfl, same⟩

end Alike

/-- Solutions of equations that are the same by name agree, when the sets of one lie in layers. -/
theorem Layered.solutions_agree (layered : Layered (ofRegistry r) layer) (distinct : r.Distinct)
    (distinct' : r'.Distinct) (alike : Alike r r') (declared : LeavesDeclared r) (declared' : LeavesDeclared r')
    (solves : Solves r belongs) (solves' : Solves r' belongs') {n n' : Nat}
    (wholes : r.value? n = some concrete ↔ r'.value? n' = some concrete)
    (one : ∀ x x' name, r.Named x name → r'.Named x' name → (n = x ↔ n' = x')) {id id' : Id} {name : String}
    (named : r.Named id name) (named' : r'.Named id' name) {sets : List (Expr Id)}
    (known : r.value? id = some (attr sets)) : belongs id n ↔ belongs' id' n' := by
  induction hl : layer id using Nat.strong_induction_on generalizing id id' name sets with
  | _ height ih =>
    subst hl
    obtain ⟨sets', known', same⟩ := alike.sets distinct distinct' named named' known
    have array : ∀ id, (ofRegistry r)[id]? = r.value? id := getElem?_ofRegistry
    have agree : ∀ e ∈ sets, ∀ e' ∈ sets', e.map r.nameOf = e'.map r'.nameOf →
        (e.Denotes (fun n => r.value? n = some concrete) (Stands r belongs) n ↔
          e'.Denotes (fun n => r'.value? n = some concrete) (Stands r' belongs') n') := by
      intro e he e' he' equal
      refine Expr.denotes_congr wholes e e' equal fun x hx x' hx' sameName => ?_
      have namedX := Registry.named_nameOf (declared id sets known e he x hx)
      have namedX' := Registry.named_nameOf (declared' id' sets' known' e' he' x' hx')
      rw [← sameName] at namedX'
      cases value : r.value? x with
      | none =>
        obtain ⟨d, hd, _⟩ := namedX
        rw [Registry.value?, hd] at value
        cases value
      | some m =>
        cases m with
        | concrete =>
          rw [stands_concrete value,
            stands_concrete ((alike.concrete_iff distinct distinct' namedX namedX').mp value)]
          exact one x x' _ namedX namedX'
        | aliasName actual =>
          exact absurd ((array x).trans value) (layered.plain id sets ((array id).trans known) e he x hx actual)
        | attr inner =>
          obtain ⟨inner', value', _⟩ := alike.sets distinct distinct' namedX namedX' value
          rw [stands_attr value, stands_attr value']
          exact ih _ (layered.below id sets ((array id).trans known) e he x hx inner ((array x).trans value))
            namedX namedX' value rfl
    rw [solves id sets known, solves' id' sets' known']
    constructor
    · rintro ⟨e, he, denotes⟩
      obtain ⟨e', he', equal⟩ := List.mem_map.mp (same.subset (List.mem_map_of_mem he))
      exact ⟨e', he', (agree e he e' he' equal.symm).mp denotes⟩
    · rintro ⟨e', he', denotes⟩
      obtain ⟨e, he, equal⟩ := List.mem_map.mp (same.symm.subset (List.mem_map_of_mem he'))
      exact ⟨e, he, (agree e he e' he' equal).mpr denotes⟩

/-- The equations have one solution. -/
theorem Layered.solution_unique (layered : Layered (ofRegistry r) layer) (distinct : r.Distinct)
    (declared : LeavesDeclared r) (solves : Solves r belongs) (solves' : Solves r belongs') {id : Id}
    {sets : List (Expr Id)} (known : r.value? id = some (attr sets)) (n : Nat) :
    belongs id n ↔ belongs' id n := by
  have named := Registry.named_nameOf (Registry.lt_of_value? known)
  refine layered.solutions_agree distinct distinct (alike_refl r) declared declared solves solves' Iff.rfl
    (fun x x' name h h' => ?_) named named known
  rw [distinct.id_eq h h']

end Member

/-! ### Databases -/

namespace Database

/-- The declarations that attributes of the kind are made of. -/
def groups (db : Database) : Entity → Registry Member
  | .type => db.types.outline asMember
  | .role => db.roles.outline fun r => if r.isAttribute then .attr r.sets else .concrete
  | .user => db.users.outline fun u => if u.isAttribute then .attr u.sets else .concrete

variable {db db' : Database} {kind : Entity}

theorem ofRegistry_types : Member.ofRegistry (db.groups .type) = db.typeMembers := by
  rw [Member.ofRegistry, groups, Registry.outline, Array.map_map]
  rfl

theorem ofRegistry_roles : Member.ofRegistry (db.groups .role) = db.roleMembers := by
  rw [Member.ofRegistry, groups, Registry.outline, Array.map_map]
  rfl

theorem ofRegistry_users : Member.ofRegistry (db.groups .user) = db.userMembers := by
  rw [Member.ofRegistry, groups, Registry.outline, Array.map_map]
  rfl

theorem exists_layered (closed : db.Closed) (faultless : db.preliminaryFaults = []) (kind : Entity) :
    ∃ layer, Member.Layered (Member.ofRegistry (db.groups kind)) layer := by
  simp only [preliminaryFaults, List.append_eq_nil_iff] at faultless
  obtain ⟨⟨⟨⟨_, types⟩, roles⟩, users⟩, _⟩ := faultless
  cases kind with
  | type =>
    rw [ofRegistry_types]
    exact exists_layered_types closed types
  | role =>
    rw [ofRegistry_roles]
    exact exists_layered_plain followsGroups_roles roles
  | user =>
    rw [ofRegistry_users]
    exact exists_layered_plain followsGroups_users users

theorem leavesDeclared_outline {α : Type} {r : Registry α} {member : α → Member} (sets : α → List (Expr Id))
    (attrs : ∀ a s, member a = .attr s → s = sets a)
    (inside : ∀ id a, r.value? id = some a → ∀ e ∈ sets a, ∀ x ∈ e.leaves, x < r.size) :
    Member.LeavesDeclared (r.outline member) := by
  intro id s known e he x hx
  rw [Registry.value?_outline] at known
  obtain ⟨a, value, attr⟩ := Option.map_eq_some_iff.mp known
  rw [Registry.size_outline]
  exact inside id a value e (attrs a s attr ▸ he) x hx

theorem sets_of_group {α : Type} {isGroup : α → Bool} {sets : α → List (Expr Id)} (a : α) (s : List (Expr Id))
    (h : (if isGroup a then Member.attr (sets a) else .concrete) = .attr s) : s = sets a := by
  split at h
  · cases h
    rfl
  · cases h

theorem sets_of_asMember (t : TypeInfo) (s : List (Expr Id)) (h : asMember t = .attr s) : s = t.sets := by
  rw [asMember] at h
  split at h <;> cases h
  rfl

theorem leavesDeclared_groups (closed : db.Closed) (kind : Entity) : Member.LeavesDeclared (db.groups kind) := by
  have declared : ∀ {α β : Type} {r : Registry α} {x : Id} {f : α → β} {b : β}, (r.value? x).map f = some b →
      x < r.size := fun h => by
    obtain ⟨_, value, _⟩ := Option.map_eq_some_iff.mp h
    exact Registry.lt_of_value? value
  cases kind with
  | type =>
    refine leavesDeclared_outline TypeInfo.sets sets_of_asMember fun id t value e he x hx => ?_
    obtain ⟨_, _, known, _⟩ := (closed.within.types id t value).sets e he x hx
    exact declared known
  | role =>
    refine leavesDeclared_outline RoleInfo.sets sets_of_group fun id r value e he x hx => ?_
    obtain ⟨_, known⟩ := (closed.within.roles id r value).sets e he x hx
    exact declared known
  | user =>
    refine leavesDeclared_outline UserInfo.sets sets_of_group fun id u value e he x hx => ?_
    obtain ⟨_, known⟩ := (closed.within.users id u value).sets e he x hx
    exact declared known

theorem distinct_groups (sound : db.skeleton.Sound) (kind : Entity) : (db.groups kind).Distinct := by
  cases kind with
  | type => exact (Registry.distinct_outline _).mpr ((Registry.distinct_outline _).mp sound.types)
  | role => exact (Registry.distinct_outline _).mpr ((Registry.distinct_outline _).mp sound.roles)
  | user => exact (Registry.distinct_outline _).mpr ((Registry.distinct_outline _).mp sound.users)

/-! ### Databases of the same statements -/

theorem sound_of_ofStatements {repeats : Bool} {ss : List Statement} (run : ofStatements repeats ss = .ok db) :
    db.skeleton.Sound := by
  obtain ⟨e, settled, run⟩ := ofStatements_eq_ok.mp run
  obtain ⟨held, -⟩ := binding_of_settle settled
  rw [(adds_statements held run).1]
  exact held.sound

/-- Declarations of one kind, of which the same sets are told, match. -/
theorem alike_outline {α κ : Type} {r r' : Registry α} {member : α → Member} (kindOf : α → κ)
    (sets : α → List (Expr Id)) (kinds : ∀ name, (r.look name).map kindOf = (r'.look name).map kindOf)
    (told : ∀ name, (r.tell (fun a => (sets a).map (·.map r.nameOf)) name).Perm
      (r'.tell (fun a => (sets a).map (·.map r'.nameOf)) name))
    (matched : ∀ a a', kindOf a = kindOf a' →
      ((sets a).map (·.map r.nameOf)).Perm ((sets a').map (·.map r'.nameOf)) →
        Member.Matches r.nameOf r'.nameOf (member a) (member a')) :
    Member.Alike (r.outline member) (r'.outline member) := by
  intro name
  have kind := kinds name
  have same := told name
  rw [Registry.look_outline, Registry.look_outline, funext (Registry.nameOf_outline (r := r) member),
    funext (Registry.nameOf_outline (r := r') member)]
  rw [Registry.tell, Registry.tell] at same
  cases look : r.look name with
  | none =>
    cases look' : r'.look name with
    | none => exact .none
    | some a' =>
      rw [look, look'] at kind
      cases kind
  | some a =>
    cases look' : r'.look name with
    | none =>
      rw [look, look'] at kind
      cases kind
    | some a' =>
      rw [look, look'] at kind same
      exact .some (matched a a' (Option.some.inj kind) same)

theorem matches_asMember {ν ν' : Id → String} (t t' : TypeInfo) (kind : t.kind = t'.kind)
    (same : (t.sets.map (·.map ν)).Perm (t'.sets.map (·.map ν'))) :
    Member.Matches ν ν' (asMember t) (asMember t') := by
  rw [asMember, asMember, ← kind]
  cases t.kind with
  | concrete => exact .concrete
  | aliasName => exact .aliasName
  | attr => exact .attr same

theorem matches_group {α : Type} {isGroup : α → Bool} {sets : α → List (Expr Id)} {ν ν' : Id → String} (a a' : α)
    (kind : isGroup a = isGroup a') (same : ((sets a).map (·.map ν)).Perm ((sets a').map (·.map ν'))) :
    Member.Matches ν ν' (if isGroup a then .attr (sets a) else .concrete)
      (if isGroup a' then .attr (sets a') else .concrete) := by
  rw [← kind]
  cases isGroup a with
  | true => exact .attr same
  | false => exact .concrete

/-- Statements in another order make attributes of the same sets. -/
theorem alike_groups {repeats : Bool} {ss ss' : List Statement} (perm : ss.Perm ss')
    (run : ofStatements repeats ss = .ok db) (run' : ofStatements repeats ss' = .ok db') (kind : Entity) :
    Member.Alike (db.groups kind) (db'.groups kind) := by
  obtain ⟨_, run'', names, agree⟩ := ofStatements_perm perm run
  cases run'.symm.trans run''
  cases kind with
  | type =>
    refine alike_outline TypeInfo.kind TypeInfo.sets (fun name => ?_) (fun name => ?_) matches_asMember
    · have same : db'.skeleton.names.types name = db.skeleton.names.types name := by rw [names]
      rw [names_types, names_types] at same
      have kinds := congrArg (Option.map Prod.fst) same.symm
      rwa [Option.map_map, Option.map_map] at kinds
    · have same := agree (.type name .sets) id
      simp only [Skeleton.said, Skeleton.typeFacts, skeleton, funext (Registry.nameOf_outline _)] at same
      exact same
  | role =>
    refine alike_outline RoleInfo.isAttribute RoleInfo.sets (fun name => ?_) (fun name => ?_) matches_group
    · rw [← names_roles, ← names_roles, names]
    · have same := agree (.role name .sets) id
      simp only [Skeleton.said, Skeleton.roleFacts, skeleton, funext (Registry.nameOf_outline _)] at same
      exact same
  | user =>
    refine alike_outline UserInfo.isAttribute UserInfo.sets (fun name => ?_) (fun name => ?_) matches_group
    · rw [← names_users, ← names_users, names]
    · have same := agree (.user name .sets) id
      simp only [Skeleton.said, Skeleton.userFacts, skeleton, funext (Registry.nameOf_outline _)] at same
      exact same

end Database

namespace EvaluatedDatabase

/-- What a declaration of the kind stands for. -/
def expand (db : EvaluatedDatabase) : Entity → Id → BitSet
  | .type => db.expandType
  | .role => db.expandRole
  | .user => db.expandUser

/-- The statements pass the checks before evaluation, and evaluation comes to the database. -/
def EvaluatedFrom (repeats : Bool) (ss : List Statement) (db : EvaluatedDatabase) : Prop :=
  ∃ resolved ordered, (Database.resolve repeats ss).outcome.1 = .ok resolved ∧
    resolved.order.outcome.1 = .ok ordered ∧ ordered.preVerify.outcome.1 = .ok () ∧
    (ordered.evaluate repeats).outcome.1 = .ok db

/-- By name, the attribute has the member. -/
def HasMember (db : EvaluatedDatabase) (kind : Entity) (group member : String) : Prop :=
  ∃ id sets n, (db.groups kind).find? group = some id ∧ (db.groups kind).value? id = some (.attr sets) ∧
    (db.groups kind).find? member = some n ∧ n ∈ db.expand kind id

variable {repeats : Bool} {ss ss' : List Statement} {db db' : EvaluatedDatabase} {kind : Entity}

theorem Evaluated.expand_eq (evaluated : db.Evaluated) (kind : Entity) (id : Id) :
    db.expand kind id = Member.expand (Member.ofRegistry (db.groups kind))
      (Member.evaluate (Member.ofRegistry (db.groups kind))) id := by
  cases kind with
  | type =>
    rw [Database.ofRegistry_types, ← Member.getD_expandAll, ← evaluated.types]
    rfl
  | role =>
    rw [Database.ofRegistry_roles, ← Member.getD_expandAll, ← evaluated.roles]
    rfl
  | user =>
    rw [Database.ofRegistry_users, ← Member.getD_expandAll, ← evaluated.users]
    rfl

/-- The attributes of an evaluated policy lie in layers, and what stands in their sets is declared. -/
structure LayeredSets (db : EvaluatedDatabase) (kind : Entity) : Prop where
  distinct : (db.groups kind).Distinct
  declared : Member.LeavesDeclared (db.groups kind)
  layered : ∃ layer, Member.Layered (Member.ofRegistry (db.groups kind)) layer
  solves : Member.Solves (db.groups kind) fun id n => n ∈ db.expand kind id

theorem EvaluatedFrom.exists_resolved (evaluated : EvaluatedFrom repeats ss db) (kind : Entity) : db.LayeredSets kind ∧
    ∃ resolved, Database.ofStatements repeats ss = .ok resolved ∧ db.groups kind = resolved.groups kind := by
  obtain ⟨resolved, ordered, resolve, order, checked, evaluate⟩ := evaluated
  have closed := Database.closed_of_resolve resolve
  rw [Database.outcome_resolve] at resolve
  obtain ⟨rfl, _⟩ := Database.order_spec (Report.yields_of_outcome order)
  obtain ⟨sets, same⟩ := OrderedDatabase.evaluate_spec (Report.yields_of_outcome evaluate)
  have groups : db.groups kind = ordered.groups kind := by
    rw [same]
    cases kind <;> rfl
  obtain ⟨layer, layered⟩ :=
    Database.exists_layered closed (Report.yields_reject (Report.yields_of_outcome checked)) kind
  rw [← groups] at layered
  refine ⟨⟨?_, ?_, ⟨layer, layered⟩, ?_⟩, _, resolve, groups⟩
  · exact groups ▸ Database.distinct_groups (Database.sound_of_ofStatements resolve) kind
  · exact groups ▸ Database.leavesDeclared_groups closed kind
  · simp only [sets.expand_eq]
    exact layered.solves

theorem HasMember.of_perm (evaluated : EvaluatedFrom repeats ss db) (evaluated' : EvaluatedFrom repeats ss' db')
    (perm : ss.Perm ss') {group member : String} (has : db.HasMember kind group member) :
    db'.HasMember kind group member := by
  obtain ⟨sets, resolved, run, groups⟩ := evaluated.exists_resolved kind
  obtain ⟨sets', resolved', run', groups'⟩ := evaluated'.exists_resolved kind
  have alike := Database.alike_groups perm run run' kind
  rw [← groups, ← groups'] at alike
  obtain ⟨layer, layered⟩ := sets.layered
  obtain ⟨id, exprs, n, found, known, foundMember, inside⟩ := has
  obtain ⟨id', found'⟩ := alike.exists_find? found
  obtain ⟨n', foundMember'⟩ := alike.exists_find? foundMember
  have named := Registry.named_of_find? found
  have named' := Registry.named_of_find? found'
  have namedMember := Registry.named_of_find? foundMember
  have namedMember' := Registry.named_of_find? foundMember'
  obtain ⟨exprs', known', _⟩ := alike.sets sets.distinct sets'.distinct named named' known
  have wholes := alike.concrete_iff sets.distinct sets'.distinct namedMember namedMember'
  have one : ∀ x x' name, (db.groups kind).Named x name → (db'.groups kind).Named x' name → (n = x ↔ n' = x') := by
    intro x x' name namedX namedX'
    constructor
    · rintro rfl
      obtain rfl : member = name := namedMember.nameOf.symm.trans namedX.nameOf
      exact sets'.distinct.id_eq namedMember' namedX'
    · rintro rfl
      obtain rfl : member = name := namedMember'.nameOf.symm.trans namedX'.nameOf
      exact sets.distinct.id_eq namedMember namedX
  exact ⟨id', exprs', n', found', known', foundMember',
    (layered.solutions_agree sets.distinct sets'.distinct alike sets.declared sets'.declared sets.solves
      sets'.solves wholes one named named' known).mp inside⟩

/-- After the checks before evaluation, the members of every attribute are what its sets denote. No
other members solve these equations, and by name the members are the same in whatever order the
statements are given. -/
theorem attributes_denoted (evaluated : EvaluatedFrom repeats ss db) (kind : Entity) :
    (Member.Solves (db.groups kind) fun id n => n ∈ db.expand kind id) ∧
    (∀ belongs, Member.Solves (db.groups kind) belongs → ∀ id sets, (db.groups kind).value? id = some (.attr sets) →
      ∀ n, belongs id n ↔ n ∈ db.expand kind id) ∧
    ∀ ss' db', ss.Perm ss' → EvaluatedFrom repeats ss' db' → ∀ group member,
      db.HasMember kind group member ↔ db'.HasMember kind group member := by
  obtain ⟨sets, _⟩ := evaluated.exists_resolved kind
  obtain ⟨layer, layered⟩ := sets.layered
  refine ⟨sets.solves, fun belongs solves id exprs known n => ?_, fun ss' db' perm evaluated' group member => ?_⟩
  · exact layered.solution_unique sets.distinct sets.declared solves sets.solves known n
  · exact ⟨fun has => has.of_perm evaluated evaluated' perm, fun has => has.of_perm evaluated' evaluated perm.symm⟩

/-- A policy with an attribute for what is in one of `both` and `a` only. -/
def nestedPolicy : List Statement :=
  smallPolicy ([.declare (.attr .type) "odd", .attributeSet .type "odd" (.apply .xor [.item "both", .item "a"]),
    .access .allow "odd" "a" (.given "file" (.list [.item "read"]))].map (Statement.plain {}))

theorem nestedPolicy_expands : lowersTo nestedPolicy {} (fun db _ _ =>
    (db.groups .type).find? "odd" == some 3 && (db.groups .type).find? "a" == some 0 &&
      (db.groups .type).find? "b" == some 1 && (db.expand .type 3).has 1 && !(db.expand .type 3).has 0 &&
      match (db.groups .type).value? 3 with
      | some (.attr _) => true
      | _ => false) = true := by
  decide +kernel

theorem nestedPolicy_reversed_lowers : lowersTo nestedPolicy.reverse {} (fun _ _ _ => true) = true := by
  decide +kernel

/-- In the nested policy and in its reverse `odd` has the member `b` and not the member `a`. -/
theorem attributes_denoted_nested : ∃ db db', EvaluatedFrom false nestedPolicy db ∧
    EvaluatedFrom false nestedPolicy.reverse db' ∧ db.HasMember .type "odd" "b" ∧ db'.HasMember .type "odd" "b" ∧
    ¬ db'.HasMember .type "odd" "a" := by
  obtain ⟨_, _, db, _, _, resolve, order, checked, evaluate, _, _, tested⟩ :=
    stages_of_lowersTo nestedPolicy_expands
  obtain ⟨_, _, db', _, _, resolve', order', checked', evaluate', _⟩ :=
    stages_of_lowersTo nestedPolicy_reversed_lowers
  have evaluated : EvaluatedFrom false nestedPolicy db := ⟨_, _, resolve, order, checked, evaluate⟩
  have reversed : EvaluatedFrom false nestedPolicy.reverse db' := ⟨_, _, resolve', order', checked', evaluate'⟩
  obtain ⟨_, _, sameMembers⟩ := attributes_denoted evaluated .type
  have same := sameMembers _ _ nestedPolicy.reverse_perm.symm reversed "odd"
  simp only [Bool.and_eq_true, beq_iff_eq, Bool.not_eq_true'] at tested
  obtain ⟨⟨⟨⟨⟨odd, a⟩, b⟩, inside⟩, outside⟩, tested⟩ := tested
  have has : db.HasMember .type "odd" "b" := by
    split at tested
    · exact ⟨3, _, 1, odd, ‹_›, b, inside⟩
    · cases tested
  refine ⟨db, db', evaluated, reversed, has, (same "b").mp has, fun has' => ?_⟩
  obtain ⟨id, _, n, found, _, foundMember, inside'⟩ := (same "a").mpr has'
  cases odd.symm.trans found
  cases a.symm.trans foundMember
  exact Bool.false_ne_true (outside.symm.trans inside')

end EvaluatedDatabase

end CilPolicy
