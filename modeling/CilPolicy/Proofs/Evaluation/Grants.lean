import CilPolicy.Proofs.Database.Origins
import CilPolicy.Proofs.Evaluation.AttributeMeaning

/-!
# What statements tell of members

Statements give sets to attributes, types to roles and roles to users. An attribute has just the
sets that it is given, with each name replaced by what it refers to, and a role or user is granted
just what statements grant to a name that refers to it.
-/

namespace CilPolicy

/-- What is granted: types to roles, and roles to users. -/
inductive Grant where
  | types
  | roles
deriving DecidableEq, Repr

namespace Grant

/-- To whom something is granted. -/
def owner : Grant → Entity
  | types => .role
  | roles => .user

/-- What is granted. -/
def granted : Grant → Entity
  | types => .type
  | roles => .role

/-- The clause that grants it. -/
def clause : Grant → (owner granted : String) → Clause
  | types => .roleType
  | roles => .userRole

end Grant

/-! ### By name -/

/-- The note on a set of an attribute. -/
def Entity.setNote (own : String) (set : Expr String) : Entity → SaidNote
  | type => ⟨.type own .sets, set⟩
  | role => ⟨.role own .sets, set⟩
  | user => ⟨.user own .sets, set⟩

def Grant.note (owner granted : String) : Grant → SaidNote
  | types => ⟨.role owner .types, granted⟩
  | roles => ⟨.user owner .roles, granted⟩

theorem Topic.keeping_of_isMembership {topic : Topic} (membership : topic.isMembership = true) :
    topic.keeping ≠ .latest := by
  cases topic with
  | type _ part | role _ part | user _ part => cases part <;> cases membership <;> rintro ⟨⟩
  | _ => cases membership

theorem Entity.isMembership_setNote (kind : Entity) (own : String) (set : Expr String) :
    (kind.setNote own set).1.isMembership = true := by
  cases kind <;> rfl

theorem Grant.isMembership_note (grant : Grant) (owner granted : String) :
    (grant.note owner granted).1.isMembership = true := by
  cases grant <;> rfl

namespace Names

variable (n : Names) {location : Location} {clause : Clause} {note : SaidNote}

/-- The name of what a name refers to. -/
def refer (kind : Entity) (name : String) : Except Unit String :=
  match kind with
  | .type => n.type name
  | .role => (fun _ => name) <$> need (n.roles name)
  | .user => (fun _ => name) <$> need (n.users name)

/-- What a clause tells of members. -/
inductive TellsMembers : Clause → SaidNote → Prop
  | set {kind : Entity} {name own : String} {members set : Expr String} (found : n.refer kind name = .ok own)
      (looked : members.traverse (n.refer kind) = .ok set) :
      TellsMembers (.attributeSet kind name members) (kind.setNote own set)
  | roleType {role type owner granted : String} (found : n.refer .role role = .ok owner)
      (looked : n.refer .type type = .ok granted) :
      TellsMembers (.roleType role type) (Grant.types.note owner granted)
  | userRole {user role owner granted : String} (found : n.refer .user user = .ok owner)
      (looked : n.refer .role role = .ok granted) :
      TellsMembers (.userRole user role) (Grant.roles.note owner granted)

variable {n}

theorem tells_set_iff {kind : Entity} {own : String} {set : Expr String} :
    n.TellsMembers clause (kind.setNote own set) ↔ ∃ name members, clause = .attributeSet kind name members ∧
      n.refer kind name = .ok own ∧ members.traverse (n.refer kind) = .ok set := by
  constructor
  · intro tells
    generalize same : kind.setNote own set = note at tells
    cases tells with
    | @set kind' _ _ _ _ found looked =>
      cases kind <;> cases kind' <;> cases same <;> exact ⟨_, _, rfl, found, looked⟩
    | roleType | userRole => cases kind <;> cases same
  · rintro ⟨name, members, rfl, found, looked⟩
    exact .set found looked

theorem tells_grant_iff {grant : Grant} {owner granted : String} :
    n.TellsMembers clause (grant.note owner granted) ↔ ∃ whom name, clause = grant.clause whom name ∧
      n.refer grant.owner whom = .ok owner ∧ n.refer grant.granted name = .ok granted := by
  constructor
  · intro tells
    generalize same : grant.note owner granted = note at tells
    cases tells with
    | @set kind => cases grant <;> cases kind <;> cases same
    | roleType found looked | userRole found looked =>
      cases grant <;> cases same
      exact ⟨_, _, rfl, found, looked⟩
  · rintro ⟨whom, name, rfl, found, looked⟩
    cases grant with
    | types => exact .roleType found looked
    | roles => exact .userRole found looked

/-- Clauses of other kinds tell of no members. -/
theorem notes_other (other : clause.isMembership = false) :
    Ensures (fun notes => ∀ p ∈ notes, p.1.isMembership = false) (n.clauseNotes location clause) := by
  cases replaces : clause.replaces with
  | none => exact fun notes run p hp => (n.ordinary_clauseNotes replaces other notes run p hp).1
  | some topic =>
    cases clause with
    | userLevel | userRange =>
      exact ensures_bind fun _ _ => ensures_bind fun _ _ => ensures_bind fun _ _ =>
        ensures_ok (by simp [Topic.isMembership])
    | categorySet | level | levelRange | context | extendedSet =>
      exact ensures_bind fun _ _ => ensures_bind fun _ _ => ensures_ok (by simp [Topic.isMembership])
    | _ => cases replaces

theorem notes_members (membership : clause.isMembership = true) : Ensures
    (fun notes => ∃ note, notes = [note] ∧ n.TellsMembers clause note) (n.clauseNotes location clause) := by
  cases clause with
  | attributeSet kind name members =>
    cases kind with
    | type =>
      exact ensures_bind fun _ found => ensures_bind fun _ _ => ensures_bind fun _ looked =>
        ensures_ok ⟨_, rfl, .set found looked⟩
    | role =>
      exact ensures_bind fun _ found => ensures_bind fun _ _ => ensures_bind fun _ looked =>
        ensures_ok ⟨_, rfl, .set (map_eq_ok.mpr ⟨_, found, rfl⟩) looked⟩
    | user =>
      exact ensures_bind fun _ found => ensures_bind fun _ _ => ensures_bind fun _ looked =>
        ensures_ok ⟨_, rfl, .set (map_eq_ok.mpr ⟨_, found, rfl⟩) looked⟩
  | roleType role type =>
    exact ensures_bind fun _ found => ensures_bind fun _ looked =>
      ensures_ok ⟨_, rfl, .roleType (map_eq_ok.mpr ⟨_, found, rfl⟩) looked⟩
  | userRole user role =>
    exact ensures_bind fun _ found => ensures_bind fun _ looked =>
      ensures_ok ⟨_, rfl, .userRole (map_eq_ok.mpr ⟨_, found, rfl⟩) (map_eq_ok.mpr ⟨_, looked, rfl⟩)⟩
  | _ => cases membership

/-- A clause tells one thing of members. -/
theorem TellsMembers.unique {other : SaidNote} (tells : n.TellsMembers clause note)
    (tells' : n.TellsMembers clause other) : note = other := by
  cases tells with
  | set found looked | roleType found looked | userRole found looked =>
    cases tells' with
    | _ found' looked' =>
      cases found.symm.trans found'
      cases looked.symm.trans looked'
      rfl

end Names

namespace Database

/-- Of members, just that is said which a statement tells. -/
theorem said_iff_told {repeats : Bool} {ss : List Statement} {db : Database} (run : ofStatements repeats ss = .ok db)
    {note : SaidNote} (membership : note.1.isMembership = true) : note.2 ∈ db.skeleton.said db note.1 ↔
      ∃ location clause, .plain location clause ∈ ss ∧ db.skeleton.names.TellsMembers clause note := by
  constructor
  · intro said
    obtain ⟨s, hs, notes, gives, noted⟩ := exists_note_of_said run said
    cases s with
    | conditional =>
      have other := (Names.ordinary_conditional _ _ _ _ notes gives _ noted).1
      exact absurd other (by simp [membership])
    | plain location clause =>
      cases own : clause.isMembership with
      | false =>
        have other := Names.notes_other own notes gives _ noted
        exact absurd other (by simp [membership])
      | true =>
        obtain ⟨note, rfl, tells⟩ := Names.notes_members own notes gives
        cases List.mem_singleton.mp noted
        exact ⟨location, clause, hs, tells⟩
  · rintro ⟨location, clause, hs, tells⟩
    obtain ⟨notes, gives⟩ := exists_notes run hs
    have own : clause.isMembership = true := by cases tells <;> rfl
    obtain ⟨note', rfl, tells'⟩ := Names.notes_members own notes gives
    cases tells.unique tells'
    exact said_of_note run hs gives (List.mem_singleton_self _) (Topic.keeping_of_isMembership membership)

end Database

/-! ### By number -/

/-- What a name in a statement refers to: an alias to what it stands for, another name to what is
declared under it. -/
def Member.refer (r : Registry Member) (name : String) : Except Unit Id := do
  let id ← need (r.find? name)
  match r.value? id with
  | some (.aliasName actual) => return actual.getD id
  | _ => return id

namespace Database

variable {repeats : Bool} {ss : List Statement} {db : Database} {kind : Entity} {name : String} {id : Id}

theorem tells_need {α β : Type} {r : Registry α} (f : α → β) :
    Tells (fun id v => r.Named id name ∧ ∃ a, r.value? id = some a ∧ v = f a) (need (r.find? name))
      (need ((r.look name).map f)) := by
  rw [Registry.look]
  cases found : r.find? name with
  | none => trivial
  | some id =>
    obtain ⟨a, value⟩ := Registry.exists_value? (Registry.lt_of_find? found)
    rw [Option.bind_some, value]
    exact ⟨Registry.named_of_find? found, a, value, rfl⟩

theorem tells_refer_group {α : Type} {r : Registry α} {isGroup : α → Bool} {sets : α → List (Expr Id)}
    {groups : Registry Member} (same : groups = r.outline fun a => if isGroup a then .attr (sets a) else .concrete) :
    Tells groups.Named (Member.refer groups name) ((fun _ => name) <$> need ((r.look name).map isGroup)) := by
  subst same
  rw [Member.refer, Registry.find?_outline, ← bind_pure_comp]
  refine (tells_need isGroup).bind ?_
  rintro id _ ⟨named, a, value, rfl⟩
  rw [Registry.value?_outline, value, Option.map_some]
  cases isGroup a <;> exact (Registry.named_outline _).mpr named

/-- References by number are those by name. -/
theorem tells_refer (sound : db.skeleton.Sound) (kind : Entity) (name : String) :
    Tells (db.groups kind).Named (Member.refer (db.groups kind) name) (db.skeleton.names.refer kind name) := by
  cases kind with
  | type =>
    rw [Names.refer, Names.type, names_types, Member.refer, groups, Registry.find?_outline]
    refine (tells_need _).bind ?_
    rintro id _ ⟨named, t, value, rfl⟩
    rw [Registry.value?_outline, value, Option.map_some, asMember]
    cases kind : t.kind with
    | concrete | attr => exact (Registry.named_outline _).mpr named
    | aliasName =>
      cases actual : t.actual with
      | none => exact (Registry.named_outline _).mpr named
      | some a =>
        have inside := sound.typeActual id t.link (by simp [skeleton, value]) a actual
        exact (Registry.named_outline _).mpr (Registry.named_nameOf (by simpa [skeleton] using inside))
  | role =>
    rw [Names.refer, names_roles]
    exact tells_refer_group rfl
  | user =>
    rw [Names.refer, names_users]
    exact tells_refer_group rfl

section Sound

variable (sound : db.skeleton.Sound)

include sound

theorem refer_eq_ok_iff : Member.refer (db.groups kind) name = .ok id ↔
    ∃ own, db.skeleton.names.refer kind name = .ok own ∧ (db.groups kind).Named id own := by
  constructor
  · exact (tells_refer sound kind name).exists_right
  · rintro ⟨own, found, named⟩
    obtain ⟨id', run, named'⟩ := (tells_refer sound kind name).exists_left found
    rw [run, (distinct_groups sound kind).id_eq named' named]

theorem traverse_refer_eq_ok_iff {members : Expr String} {e : Expr Id} :
    members.traverse (Member.refer (db.groups kind)) = .ok e ↔
      members.traverse (db.skeleton.names.refer kind) = .ok (e.map (db.groups kind).nameOf) ∧
        ∀ x ∈ e.leaves, x < (db.groups kind).size := by
  have each (name : String) : Tells (fun id own => (db.groups kind).nameOf id = own ∧ id < (db.groups kind).size)
      (Member.refer (db.groups kind) name) (db.skeleton.names.refer kind name) :=
    (tells_refer sound kind name).mono fun _ _ named => ⟨named.nameOf, named.lt⟩
  have tells := Expr.tells_traverse each members
  constructor
  · intro run
    obtain ⟨set, looked, rfl, inside⟩ := tells.exists_right run
    exact ⟨looked, inside⟩
  · rintro ⟨looked, inside⟩
    obtain ⟨e', run, called, inside'⟩ := tells.exists_left looked
    have apart := fun a ha b hb => (distinct_groups sound kind).eq_of_nameOf (inside' a ha) (inside b hb)
    rw [run, Expr.eq_of_map_eq e' e apart called]

end Sound

/-! ### Sets and grants -/

/-- What the statements of a database grant, by number. -/
def given (db : Database) (id : Id) : Grant → List Id
  | .types => ((db.roles.value? id).map (·.types)).getD []
  | .roles => ((db.users.value? id).map (·.roles)).getD []

/-- The names that a kind of declarations has in the skeleton. -/
theorem nameOf_outlines {α β γ : Type} {r : Registry α} (f : α → β) (g : α → γ) :
    (r.outline f).nameOf = (r.outline g).nameOf :=
  funext fun id => (Registry.nameOf_outline f id).trans (Registry.nameOf_outline g id).symm

theorem inside_outline {α β : Type} {r : Registry α} {f : α → β} {id : Nat} {a : α}
    (value : r.value? id = some a) : id < (r.outline f).size := by
  rw [Registry.size_outline]
  exact Registry.lt_of_value? value

section Said

variable (sound : db.skeleton.Sound) {own granted : String} {sets : List (Expr Id)} {set : Expr String}

include sound

/-- Under the name of an attribute its sets are said. -/
theorem said_set_iff (named : (db.groups kind).Named id own) (known : (db.groups kind).value? id = some (.attr sets)) :
    (kind.setNote own set).2 ∈ db.skeleton.said db (kind.setNote own set).1 ↔
      ∃ e ∈ sets, e.map (db.groups kind).nameOf = set := by
  have told {α : Type} {r : Registry α} {member : α → Member} {setsOf : α → List (Expr Id)}
      {nameOf : Id → String} (distinct : (r.outline member).Distinct) (attrs : ∀ a s, member a = .attr s → s = setsOf a)
      (named : (r.outline member).Named id own) (known : (r.outline member).value? id = some (.attr sets)) :
      set ∈ r.tell (fun a => (setsOf a).map (·.map nameOf)) own ↔ ∃ e ∈ sets, e.map nameOf = set := by
    rw [Registry.value?_outline] at known
    obtain ⟨a, value, attr⟩ := Option.map_eq_some_iff.mp known
    have distinct := (Registry.distinct_outline _).mp distinct
    rw [distinct.tell_eq ((Registry.named_outline _).mp named) value, attrs a sets attr, List.mem_map]
  have distinct := distinct_groups sound kind
  cases kind with
  | type =>
    have names : (db.groups .type).nameOf = db.skeleton.types.nameOf := nameOf_outlines _ _
    rw [names]
    exact told distinct sets_of_asMember named known
  | role =>
    have names : (db.groups .role).nameOf = db.skeleton.roles.nameOf := nameOf_outlines _ _
    rw [names]
    exact told distinct sets_of_group named known
  | user =>
    have names : (db.groups .user).nameOf = db.skeleton.users.nameOf := nameOf_outlines _ _
    rw [names]
    exact told distinct sets_of_group named known

/-- Under the name of a role or user its grants are said. -/
theorem said_grant_iff {grant : Grant} (named : (db.groups grant.owner).Named id own) :
    (grant.note own granted).2 ∈ db.skeleton.said db (grant.note own granted).1 ↔
      ∃ what ∈ db.given id grant, (db.groups grant.granted).nameOf what = granted := by
  have told {α β : Type} {r : Registry α} {member : α → β} {grants : α → List Id} {nameOf : Id → String}
      (distinct : (r.outline member).Distinct) (named : (r.outline member).Named id own) :
      granted ∈ r.tell (fun a => (grants a).map nameOf) own ↔
        ∃ what ∈ ((r.value? id).map grants).getD [], nameOf what = granted := by
    have distinct := (Registry.distinct_outline _).mp distinct
    have named := (Registry.named_outline _).mp named
    obtain ⟨a, value⟩ := Registry.exists_value? named.lt
    rw [distinct.tell_eq named value, value, List.mem_map]
    rfl
  have distinct := distinct_groups sound grant.owner
  cases grant with
  | types =>
    have names : (db.groups .type).nameOf = db.skeleton.types.nameOf := nameOf_outlines _ _
    rw [Grant.granted, names]
    exact told distinct named
  | roles =>
    have names : (db.groups .role).nameOf = db.skeleton.roles.nameOf := nameOf_outlines _ _
    rw [Grant.granted, names]
    exact told distinct named

end Said

/-- Grants are from and to declarations. -/
theorem given_inside (closed : db.Closed) {grant : Grant} {what : Id} (h : what ∈ db.given id grant) :
    id < (db.groups grant.owner).size ∧ what < (db.groups grant.granted).size := by
  cases grant with
  | types =>
    rw [given] at h
    cases value : db.roles.value? id with
    | none =>
      rw [value] at h
      cases h
    | some r =>
      rw [value] at h
      obtain ⟨_, _, known, _⟩ := (closed.within.roles id r value).types what h
      obtain ⟨_, value', _⟩ := Option.map_eq_some_iff.mp known
      exact ⟨inside_outline value, inside_outline value'⟩
  | roles =>
    rw [given] at h
    cases value : db.users.value? id with
    | none =>
      rw [value] at h
      cases h
    | some u =>
      rw [value] at h
      obtain ⟨_, known⟩ := (closed.within.users id u value).roles what h
      obtain ⟨_, value', _⟩ := Option.map_eq_some_iff.mp known
      exact ⟨inside_outline value, inside_outline value'⟩

theorem signature_of_aliasName {actual : Option Id} (aliased : (db.groups kind).value? id = some (.aliasName actual)) :
    db.signature.types id = some (.aliasName, actual) := by
  cases kind with
  | type =>
    rw [groups, Registry.value?_outline] at aliased
    obtain ⟨t, value, member⟩ := Option.map_eq_some_iff.mp aliased
    rw [asMember] at member
    split at member <;> cases member
    rename_i kind
    exact (congrArg (Option.map TypeInfo.link) value).trans (by rw [Option.map_some, TypeInfo.link, kind])
  | role | user =>
    rw [groups, Registry.value?_outline] at aliased
    obtain ⟨_, _, member⟩ := Option.map_eq_some_iff.mp aliased
    split at member <;> cases member

/-- What a name refers to is no alias. -/
theorem member_of_refer (run : ofStatements repeats ss = .ok db)
    (found : Member.refer (db.groups kind) name = .ok id) :
    (db.groups kind).value? id = some .concrete ∨ ∃ sets, (db.groups kind).value? id = some (.attr sets) := by
  obtain ⟨_, _, named⟩ := (refer_eq_ok_iff (sound_of_ofStatements run)).mp found
  obtain ⟨member, value⟩ := Registry.exists_value? named.lt
  obtain ⟨first, declared, found⟩ := bind_eq_ok.mp found
  cases member with
  | concrete => exact Or.inl value
  | attr sets => exact Or.inr ⟨sets, value⟩
  | aliasName actual =>
    exfalso
    split at found
    · rename_i actual' follows
      have ends := (closed_of_ofStatements run).aliases.types first actual' (signature_of_aliasName follows)
      obtain ⟨a, rfl, kind, _, known, plain⟩ := ends
      cases found
      have known' := signature_of_aliasName value
      rw [Option.getD_some, known] at known'
      cases known'
      exact plain rfl
    · rename_i plain
      cases found
      exact plain actual value

section Statements

variable (run : ofStatements repeats ss = .ok db)

include run

/-- An attribute has just the sets that statements give it. -/
theorem mem_sets_iff {sets : List (Expr Id)} (known : (db.groups kind).value? id = some (.attr sets)) {e : Expr Id} :
    e ∈ sets ↔ ∃ location name members, .plain location (.attributeSet kind name members) ∈ ss ∧
      Member.refer (db.groups kind) name = .ok id ∧ members.traverse (Member.refer (db.groups kind)) = .ok e := by
  have sound := sound_of_ofStatements run
  have declared := leavesDeclared_groups (closed_of_ofStatements run) kind id sets known
  have named := Registry.named_nameOf (Registry.lt_of_value? known)
  constructor
  · intro h
    have said := (said_set_iff sound named known).mpr ⟨e, h, rfl⟩
    obtain ⟨location, _, hs, tells⟩ := (said_iff_told run (kind.isMembership_setNote _ _)).mp said
    obtain ⟨name, members, rfl, found, looked⟩ := Names.tells_set_iff.mp tells
    exact ⟨location, name, members, hs, (refer_eq_ok_iff sound).mpr ⟨_, found, named⟩,
      (traverse_refer_eq_ok_iff sound).mpr ⟨looked, declared e h⟩⟩
  · rintro ⟨location, name, members, hs, found, looked⟩
    obtain ⟨own, found, named⟩ := (refer_eq_ok_iff sound).mp found
    obtain ⟨looked, inside⟩ := (traverse_refer_eq_ok_iff sound).mp looked
    have tells := Names.tells_set_iff.mpr ⟨name, members, rfl, found, looked⟩
    have said := (said_iff_told run (kind.isMembership_setNote _ _)).mpr ⟨location, _, hs, tells⟩
    obtain ⟨e', h, called⟩ := (said_set_iff sound named known).mp said
    -- The set that is kept has the same names, and names tell declarations apart.
    have apart := fun a ha b hb => (distinct_groups sound kind).eq_of_nameOf (declared e' h a ha) (inside b hb)
    exact Expr.eq_of_map_eq e' e apart called ▸ h

/-- A role or user is granted just what statements grant to it. -/
theorem mem_given_iff {grant : Grant} {what : Id} : what ∈ db.given id grant ↔
    ∃ location whom name, .plain location (grant.clause whom name) ∈ ss ∧
      Member.refer (db.groups grant.owner) whom = .ok id ∧
      Member.refer (db.groups grant.granted) name = .ok what := by
  have sound := sound_of_ofStatements run
  have inside {what : Id} (h : what ∈ db.given id grant) := given_inside (closed_of_ofStatements run) h
  constructor
  · intro h
    have named := Registry.named_nameOf (inside h).1
    have said := (said_grant_iff sound named).mpr ⟨what, h, rfl⟩
    obtain ⟨location, _, hs, tells⟩ := (said_iff_told run (grant.isMembership_note _ _)).mp said
    obtain ⟨whom, name, rfl, found, looked⟩ := Names.tells_grant_iff.mp tells
    exact ⟨location, whom, name, hs, (refer_eq_ok_iff sound).mpr ⟨_, found, named⟩,
      (refer_eq_ok_iff sound).mpr ⟨_, looked, Registry.named_nameOf (inside h).2⟩⟩
  · rintro ⟨location, whom, name, hs, found, looked⟩
    obtain ⟨own, found, named⟩ := (refer_eq_ok_iff sound).mp found
    obtain ⟨granted, looked, named'⟩ := (refer_eq_ok_iff sound).mp looked
    have tells := Names.tells_grant_iff.mpr ⟨whom, name, rfl, found, looked⟩
    have said := (said_iff_told run (grant.isMembership_note _ _)).mpr ⟨location, _, hs, tells⟩
    obtain ⟨what', h, called⟩ := (said_grant_iff sound named).mp said
    have named := Registry.named_nameOf (inside h).2
    rw [called] at named
    exact (distinct_groups sound grant.granted).id_eq named named' ▸ h

end Statements

end Database

/-! ### Evaluated databases -/

namespace EvaluatedDatabase

/-- What each owner is granted. -/
def granted (db : EvaluatedDatabase) : Grant → Array BitSet
  | .types => db.roleTypes
  | .roles => db.userRoles

variable {repeats : Bool} {ss : List Statement} {db : EvaluatedDatabase} {grant : Grant} {kind : Entity}
  {belongs : Entity → Id → Nat → Prop} {owner id n : Nat}

/-- What is granted goes from all that a grant names to all that it is granted to. -/
theorem Evaluated.mem_granted (evaluated : db.Evaluated) : n ∈ (db.granted grant).getD owner ∅ ↔
    ∃ giver, owner ∈ db.expand grant.owner giver ∧
      ∃ what ∈ db.given giver grant, n ∈ db.expand grant.granted what := by
  cases grant with
  | types =>
    have bounded : AllWithin _ db.typeSets := evaluated.types ▸ Member.allWithin_expandAll _
    rw [granted, evaluated.roleTypes, mem_spread_unionOf bounded]
    refine and_iff_right_of_imp fun ⟨giver, owned, _⟩ => ?_
    rw [evaluated.roles] at owned ⊢
    exact Member.lt_of_mem_expandAll owned
  | roles =>
    have bounded : AllWithin _ db.roleSets := evaluated.roles ▸ Member.allWithin_expandAll _
    rw [granted, evaluated.userRoles, mem_spread_unionOf bounded]
    refine and_iff_right_of_imp fun ⟨giver, owned, _⟩ => ?_
    rw [evaluated.users] at owned ⊢
    exact Member.lt_of_mem_expandAll owned

/-- Only concrete declarations are granted. -/
theorem Evaluated.concrete_of_granted (evaluated : db.Evaluated) (h : n ∈ (db.granted grant).getD id ∅) :
    (db.groups grant.granted).value? n = some .concrete := by
  rw [← Member.getElem?_ofRegistry, ← Member.mem_concretes]
  cases grant with
  | types => exact Database.ofRegistry_types ▸ (evaluated.within_roleTypes id).inside n h
  | roles => exact Database.ofRegistry_roles ▸ (evaluated.within_userRoles id).inside n h

/-- An evaluated database has what statements say of its declarations. -/
theorem EvaluatedFrom.exists_declared (evaluated : EvaluatedFrom repeats ss db) : db.Evaluated ∧
    ∃ resolved, Database.ofStatements repeats ss = .ok resolved ∧
      (∀ kind, db.groups kind = resolved.groups kind) ∧ ∀ id grant, db.given id grant = resolved.given id grant := by
  obtain ⟨resolved, ordered, resolve, order, checked, evaluate⟩ := evaluated
  rw [Database.outcome_resolve] at resolve
  obtain ⟨rfl, _⟩ := Database.order_spec (Report.yields_of_outcome order)
  obtain ⟨sets, same⟩ := OrderedDatabase.evaluate_spec (Report.yields_of_outcome evaluate)
  refine ⟨sets, _, resolve, fun kind => ?_, fun id grant => ?_⟩
  · rw [same]
    cases kind <;> rfl
  · rw [same]
    cases grant <;> rfl

/-- The members of every attribute are what the sets denote that statements give it. -/
def Membership (db : EvaluatedDatabase) (ss : List Statement) (belongs : Entity → Id → Nat → Prop) : Prop :=
  ∀ kind id sets, (db.groups kind).value? id = some (.attr sets) → ∀ n, belongs kind id n ↔
    ∃ location name members e, .plain location (.attributeSet kind name members) ∈ ss ∧
      Member.refer (db.groups kind) name = .ok id ∧ members.traverse (Member.refer (db.groups kind)) = .ok e ∧
      e.Denotes (fun n => (db.groups kind).value? n = some .concrete) (Member.Stands (db.groups kind) (belongs kind)) n

theorem EvaluatedFrom.membership_iff (evaluated : EvaluatedFrom repeats ss db) :
    db.Membership ss belongs ↔ ∀ kind, Member.Solves (db.groups kind) (belongs kind) := by
  obtain ⟨_, resolved, run, groups, _⟩ := evaluated.exists_declared
  have told {kind id sets} (known : (db.groups kind).value? id = some (.attr sets)) (n : Nat) :
      (∃ location name members e, Statement.plain location (.attributeSet kind name members) ∈ ss ∧
        Member.refer (db.groups kind) name = .ok id ∧ members.traverse (Member.refer (db.groups kind)) = .ok e ∧
        e.Denotes (fun n => (db.groups kind).value? n = some .concrete)
          (Member.Stands (db.groups kind) (belongs kind)) n) ↔
      ∃ e ∈ sets, e.Denotes (fun n => (db.groups kind).value? n = some .concrete)
        (Member.Stands (db.groups kind) (belongs kind)) n := by
    rw [groups kind] at known ⊢
    have given {e : Expr Id} := Database.mem_sets_iff run known (e := e)
    constructor
    · rintro ⟨location, name, members, e, hs, found, looked, denotes⟩
      exact ⟨e, given.mpr ⟨location, name, members, hs, found, looked⟩, denotes⟩
    · rintro ⟨e, he, denotes⟩
      obtain ⟨location, name, members, hs, found, looked⟩ := given.mp he
      exact ⟨location, name, members, e, hs, found, looked, denotes⟩
  refine forall_congr' fun kind => forall_congr' fun id => forall_congr' fun sets => forall_congr' fun known =>
    forall_congr' fun n => ?_
  rw [told known]

/-- What a name refers to has the members that the sets denote. -/
theorem EvaluatedFrom.mem_expand_iff (evaluated : EvaluatedFrom repeats ss db)
    (solves : Member.Solves (db.groups kind) (belongs kind)) {name : String}
    (found : Member.refer (db.groups kind) name = .ok id) :
    n ∈ db.expand kind id ↔ Member.Stands (db.groups kind) (belongs kind) id n := by
  obtain ⟨sets, _⟩ := evaluated.exists_resolved kind
  obtain ⟨declared, resolved, run, groups, _⟩ := evaluated.exists_declared
  rw [groups] at found
  have member := Database.member_of_refer run found
  rw [← groups] at member
  obtain value | ⟨exprs, value⟩ := member
  · rw [Member.stands_concrete value, declared.expand_eq, Member.expand, Member.getElem?_ofRegistry, value]
    exact BitSet.mem_singleton
  · obtain ⟨layer, layered⟩ := sets.layered
    rw [Member.stands_attr value]
    exact layered.solution_unique sets.distinct sets.declared sets.solves solves value n

/-- What statements grant, with the denotations of attributes for their members. -/
theorem EvaluatedFrom.mem_granted (evaluated : EvaluatedFrom repeats ss db)
    (solves : ∀ kind, Member.Solves (db.groups kind) (belongs kind)) : n ∈ (db.granted grant).getD owner ∅ ↔
      ∃ location whom name giver what, .plain location (grant.clause whom name) ∈ ss ∧
        Member.refer (db.groups grant.owner) whom = .ok giver ∧
        Member.refer (db.groups grant.granted) name = .ok what ∧
        Member.Stands (db.groups grant.owner) (belongs grant.owner) giver owner ∧
        Member.Stands (db.groups grant.granted) (belongs grant.granted) what n := by
  obtain ⟨declared, resolved, run, groups, given⟩ := evaluated.exists_declared
  rw [declared.mem_granted]
  constructor
  · rintro ⟨giver, owned, what, h, inside⟩
    rw [given, Database.mem_given_iff run, ← groups, ← groups] at h
    obtain ⟨location, whom, name, hs, found, looked⟩ := h
    exact ⟨location, whom, name, giver, what, hs, found, looked,
      (evaluated.mem_expand_iff (solves _) found).mp owned, (evaluated.mem_expand_iff (solves _) looked).mp inside⟩
  · rintro ⟨location, whom, name, giver, what, hs, found, looked, owned, inside⟩
    refine ⟨giver, (evaluated.mem_expand_iff (solves _) found).mpr owned, what, ?_,
      (evaluated.mem_expand_iff (solves _) looked).mpr inside⟩
    rw [given, Database.mem_given_iff run, ← groups, ← groups]
    exact ⟨location, whom, name, hs, found, looked⟩

end EvaluatedDatabase

end CilPolicy
