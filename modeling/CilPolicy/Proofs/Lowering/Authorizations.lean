import CilPolicy.Proofs.Evaluation.Grants
import CilPolicy.Proofs.Lowering.Contexts

/-!
# Authorizations of a kernel policy

A kernel policy has a bit for each type that a role may take, and for each role that a user may
take. A bit is set exactly when some statement grants what has its value, by a name that is or
contains it, to a name that is or contains the owner. Names contain what the sets of attributes
denote.
-/

namespace CilPolicy

namespace KernelPolicy

/-- The bits of what a role or user may take. -/
def authorized (k : KernelPolicy) (owner : String) : Grant → Option BitSet
  | .types => (k.roles.find? owner).map (·.types)
  | .roles => (k.users.find? owner).map (·.roles)

/-- The concrete type, or the role, has the value. -/
def HasValue (k : KernelPolicy) (name : String) (v : Nat) : Grant → Prop
  | .types => ∃ datum, k.types.find? name = some datum ∧ datum.flavor = .concrete ∧ datum.value = v
  | .roles => ∃ datum, k.roles.find? name = some datum ∧ datum.value = v

end KernelPolicy

namespace Lowering

variable {l : Lowering} {k : KernelPolicy} {grant : Grant} {owner name : String}

/-! ### Bits -/

/-- The numbering of a kind of declarations. -/
def numbering (l : Lowering) : Entity → Numbering
  | .type => l.types
  | .role => l.roles
  | .user => l.users

/-- The values of what is granted, each less one. -/
def grantBits (l : Lowering) (set : BitSet) : Grant → BitSet
  | .types => l.typeBits set
  | .roles => l.roleBits set

theorem mem_grantBits (evaluated : l.db.Evaluated) {id bit : Nat} :
    bit ∈ l.grantBits ((l.db.granted grant).getD id ∅) grant ↔
      ∃ n ∈ (l.db.granted grant).getD id ∅, (l.numbering grant.granted).value? n = some (bit + 1) := by
  cases grant with
  | types =>
    have within := evaluated.within_roleTypes id
    refine mem_bits_iff.trans (exists_congr fun n => and_congr_left fun _ => ?_)
    refine List.mem_filter.trans ((and_congr_left fun _ => BitSet.mem_toList within.wellFormed).trans ?_)
    exact and_iff_left_of_imp fun member => EvaluatedDatabase.mem_concretes_types.mp (within.inside n member)
  | roles =>
    refine mem_bits_iff.trans (exists_congr fun n => and_congr_left fun _ => ?_)
    exact BitSet.mem_toList (evaluated.within_userRoles id).wellFormed

/-! ### Symbols -/

/-- An owner has the bits of what it is granted. -/
theorem Built.authorized_iff (built : l.Built k) (numbered : l.Numbered) {bits : BitSet} :
    k.authorized owner grant = some bits ↔ ∃ id v, (l.db.groups grant.owner).Named id owner ∧
      (l.numbering grant.owner).value? id = some v ∧ bits = l.grantBits ((l.db.granted grant).getD id ∅) grant := by
  cases grant with
  | types =>
    refine Option.map_eq_some_iff.trans ((built.role_named_iff numbered (p := fun _ types => types = bits)).trans ?_)
    exact exists₂_congr fun id v => and_congr (Registry.named_outline _).symm (and_congr_right fun _ => eq_comm)
  | roles =>
    refine Option.map_eq_some_iff.trans ((built.user_named_iff numbered (p := fun _ roles => roles = bits)).trans ?_)
    exact exists₂_congr fun id v => and_congr (Registry.named_outline _).symm (and_congr_right fun _ => eq_comm)

theorem concrete_iff {db : EvaluatedDatabase} {id : Id} :
    (db.groups .type).value? id = some .concrete ↔ db.IsConcrete id := by
  rw [← Member.getElem?_ofRegistry, Database.ofRegistry_types, ← Member.mem_concretes]
  exact EvaluatedDatabase.mem_concretes_types

/-- What is no attribute has a value. -/
theorem exists_value?_iff {α : Type} {r : Registry α} {isGroup : α → Bool} {sets : α → List (Expr Id)}
    {id : Id} : (∃ v, (Numbering.ofRegistry r fun _ a => !isGroup a).value? id = some v) ↔
      (r.outline fun a => if isGroup a then Member.attr (sets a) else .concrete).value? id = some .concrete := by
  rw [Registry.value?_outline]
  constructor
  · rintro ⟨v, placed⟩
    obtain ⟨a, value, plain⟩ := Numbering.mem_ofRegistry.mp (Numbering.mem_of_id? (Numbering.id?_of_value? placed))
    rw [Bool.not_eq_true'] at plain
    rw [value, Option.map_some, plain]
    rfl
  · intro concrete
    obtain ⟨a, value, member⟩ := Option.map_eq_some_iff.mp concrete
    refine Numbering.exists_value? (Numbering.mem_ofRegistry.mpr ⟨a, value, ?_⟩)
    split at member
    · cases member
    · rename_i plain
      simpa using plain

theorem Numbered.exists_owner_iff (numbered : l.Numbered) {id : Id} :
    (∃ v, (l.numbering grant.owner).value? id = some v) ↔ (l.db.groups grant.owner).value? id = some .concrete := by
  cases grant with
  | types =>
    change (∃ v, l.roles.value? id = some v) ↔ _
    rw [numbered.roles]
    exact exists_value?_iff
  | roles =>
    change (∃ v, l.users.value? id = some v) ↔ _
    rw [numbered.users]
    exact exists_value?_iff

/-- The value of a name is that of the declaration which the name has. -/
theorem Built.hasValue_iff (built : l.Built k) (numbered : l.Numbered) {v : Nat} :
    k.HasValue name v grant ↔ ∃ id, (l.db.groups grant.granted).Named id name ∧
      (l.db.groups grant.granted).value? id = some .concrete ∧ (l.numbering grant.granted).value? id = some v := by
  cases grant with
  | types =>
    constructor
    · rintro ⟨t, found, flavor, rfl⟩
      have listed := (SymbolTable.find?_ofList built.types).mp found
      obtain ⟨⟨id, d⟩, declared, same⟩ := List.mem_filterMap.mp listed
      have declared := Registry.mem_indexed.mp declared
      obtain ⟨t, datum, same⟩ := Option.map_eq_some_iff.mp same
      cases same
      obtain ⟨v, value, rfl⟩ := Option.map_eq_some_iff.mp datum
      -- Only what is declared as concrete is recorded so; aliases have the value of another.
      have concrete : l.db.IsConcrete id := by
        refine Registry.test_iff.mpr ⟨d.value, Registry.value?_eq_some.mpr ⟨d, declared, rfl⟩, ?_⟩
        split at flavor
        · rename_i kind
          simp [kind]
        · cases flavor
        · cases flavor
      rw [typeValue?_concrete concrete] at value
      refine ⟨id, (Registry.named_outline _).mpr ⟨d, declared, rfl⟩, concrete_iff.mpr concrete, ?_⟩
      cases d.value.kind <;> exact value
    · rintro ⟨id, named, concrete, placed⟩
      have name : l.db.types.nameOf id = name := ((Registry.named_outline _).mp named).nameOf
      exact name ▸ find?_typeSymbols built.types (concrete_iff.mp concrete) placed
  | roles =>
    refine (built.role_named_iff numbered (p := fun w _ => w = v)).trans (exists_congr fun id => ?_)
    constructor
    · rintro ⟨w, named, placed, rfl⟩
      have concrete : (l.db.groups (Grant.owner .types)).value? id = some .concrete :=
        numbered.exists_owner_iff.mp ⟨w, placed⟩
      exact ⟨(Registry.named_outline _).mpr named, concrete, placed⟩
    · rintro ⟨named, _, placed⟩
      exact ⟨v, (Registry.named_outline _).mp named, placed, rfl⟩

end Lowering

namespace EvaluatedDatabase

variable {repeats : Bool} {ss : List Statement} {db : EvaluatedDatabase} {settings : Settings}
  {options : LoweringOptions} {k : KernelPolicy}

/-- The name in a statement is that of the declaration, or of an alias for it or an attribute that
has it for a member. -/
def Contains (db : EvaluatedDatabase) (belongs : Entity → Id → Nat → Prop) (kind : Entity)
    (written name : String) : Prop :=
  ∃ id n, Member.refer (db.groups kind) written = .ok id ∧ (db.groups kind).find? name = some n ∧
    Member.Stands (db.groups kind) (belongs kind) id n

/-- Just the roles and users that are no attributes have bits in the kernel policy. Whatever solves
the equations of all attributes, of which there is a solution, a bit is set exactly when a statement grants
what has its value. -/
theorem authorizations_exact (evaluated : EvaluatedFrom repeats ss db)
    (run : (db.lower settings options).outcome.1 = .ok k) :
    (∃ belongs, db.Membership ss belongs) ∧
    ∀ belongs, db.Membership ss belongs → ∀ grant owner,
      ((∃ bits, k.authorized owner grant = some bits) ↔ (db.groups grant.owner).look owner = some .concrete) ∧
      ∀ bits, k.authorized owner grant = some bits → ∀ bit, bit ∈ bits ↔
        ∃ name, k.HasValue name (bit + 1) grant ∧ ∃ location whom what,
          .plain location (grant.clause whom what) ∈ ss ∧
            db.Contains belongs grant.owner whom owner ∧ db.Contains belongs grant.granted what name := by
  have built := built_of_lower run
  have numbered := Lowering.numbered_new db settings options
  obtain ⟨declared, _⟩ := evaluated.exists_declared
  have sets := fun kind => (evaluated.exists_resolved kind).1
  refine ⟨⟨_, evaluated.membership_iff.mpr fun kind => (sets kind).solves⟩, ?_⟩
  intro belongs membership grant owner
  have solves := evaluated.membership_iff.mp membership
  constructor
  · constructor
    · rintro ⟨bits, h⟩
      obtain ⟨id, v, named, placed, _⟩ := (built.authorized_iff numbered).mp h
      exact ((sets _).distinct.look_eq named).trans (numbered.exists_owner_iff.mp ⟨v, placed⟩)
    · intro concrete
      obtain ⟨id, found, value⟩ := Option.bind_eq_some_iff.mp concrete
      obtain ⟨v, placed⟩ := numbered.exists_owner_iff.mpr value
      exact ⟨_, (built.authorized_iff numbered).mpr ⟨id, v, Registry.named_of_find? found, placed, rfl⟩⟩
  · intro bits h bit
    obtain ⟨id, v, named, placed, rfl⟩ := (built.authorized_iff numbered).mp h
    refine (Lowering.mem_grantBits declared).trans ?_
    constructor
    · rintro ⟨n, member, value⟩
      -- What is granted has a name, as it is declared, and the value is that of the name.
      have concrete := declared.concrete_of_granted member
      have called := Registry.named_nameOf (Registry.lt_of_value? concrete)
      obtain ⟨location, whom, what, giver, source, hs, found, looked, owned, inside⟩ :=
        (evaluated.mem_granted solves).mp member
      exact ⟨_, (built.hasValue_iff numbered).mpr ⟨n, called, concrete, value⟩, location, whom, what, hs,
        ⟨giver, id, found, (sets _).distinct.find?_eq named, owned⟩,
        ⟨source, n, looked, (sets _).distinct.find?_eq called, inside⟩⟩
    · rintro ⟨name, hasValue, location, whom, what, hs, ⟨giver, id', found, here, owned⟩,
        ⟨source, n', looked, there, inside⟩⟩
      -- Names are distinct, so what is named twice is one declaration.
      obtain ⟨n, called, _, value⟩ := (built.hasValue_iff numbered).mp hasValue
      obtain rfl := (sets _).distinct.id_eq named (Registry.named_of_find? here)
      obtain rfl := (sets _).distinct.id_eq called (Registry.named_of_find? there)
      exact ⟨n, (evaluated.mem_granted solves).mpr
        ⟨location, whom, what, giver, source, hs, found, looked, owned, inside⟩, value⟩

/-- A policy in which an attribute of roles is granted an alias of a type. -/
def grantingPolicy : List Statement :=
  smallPolicy ([.declare (.entity .role) "q", .declare (.attr .role) "some",
    .attributeSet .role "some" (.apply .and [.item "q", .apply .not [.item "r"]]),
    .declare (.aliasName .type) "c", .bindAlias .type "c" "b", .roleType "some" "c",
    .access .allow "a" "b" (.given "file" (.list [.item "read"]))].map (Statement.plain {}))

theorem grantingPolicy_lowers : lowersTo grantingPolicy {} (fun _ _ k =>
    match k.authorized "q" .types, k.types.find? "a" with
    | some bits, some a => bits.has 1 && !bits.has 0 && a.flavor == .concrete && a.value == 1
    | _, _ => false) = true := by
  decide +kernel

/-- In the granting policy a statement grants the second type to the role `q`, and none the
type `a`. -/
theorem authorizations_of_granting :
    ∃ (db : EvaluatedDatabase) (k : KernelPolicy) (belongs : Entity → Id → Nat → Prop),
    EvaluatedFrom false grantingPolicy db ∧ db.Membership grantingPolicy belongs ∧
    (∃ name, k.HasValue name 2 .types ∧ ∃ location whom what,
      .plain location (.roleType whom what) ∈ grantingPolicy ∧
      db.Contains belongs .role whom "q" ∧ db.Contains belongs .type what name) ∧
    k.HasValue "a" 1 .types ∧ ∀ location whom what, .plain location (.roleType whom what) ∈ grantingPolicy →
      db.Contains belongs .role whom "q" → ¬ db.Contains belongs .type what "a" := by
  obtain ⟨_, _, db, _, k, resolve, order, checked, evaluate, _, lower, tested⟩ :=
    stages_of_lowersTo grantingPolicy_lowers
  have evaluated : EvaluatedFrom false grantingPolicy db := ⟨_, _, resolve, order, checked, evaluate⟩
  obtain ⟨⟨belongs, membership⟩, exact⟩ := authorizations_exact evaluated lower
  obtain ⟨_, granted⟩ := exact belongs membership .types "q"
  split at tested
  · rename_i bits a authorized found
    simp only [Bool.and_eq_true, beq_iff_eq, Bool.not_eq_true'] at tested
    obtain ⟨⟨⟨second, first⟩, concrete⟩, value⟩ := tested
    have hasValue : k.HasValue "a" 1 .types := ⟨a, found, concrete, value⟩
    refine ⟨db, k, belongs, evaluated, membership, (granted bits authorized 1).mp second, hasValue, ?_⟩
    intro location whom what hs contains contains'
    have member : bits.has 0 = true :=
      (granted bits authorized 0).mpr ⟨"a", hasValue, location, whom, what, hs, contains, contains'⟩
    exact Bool.false_ne_true (first.symm.trans member)
  · cases tested

end EvaluatedDatabase

end CilPolicy
