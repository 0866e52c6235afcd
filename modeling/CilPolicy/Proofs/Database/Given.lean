import CilPolicy.Proofs.Database.Signature

/-!
# Names that are given

The name of a context, or of a set of extended permissions, is entered and given by one statement,
and no other statement touches the registry of its kind. So when all statements are resolved, every
such name stands for something.
-/

namespace CilPolicy

namespace Registry

variable {α : Type} {r : Registry α}

/-- No two declarations share a name. -/
def Distinct (r : Registry α) : Prop :=
  ∀ id id' d d', r.get? id = some d → r.get? id' = some d' → d.name = d'.name → id = id'

theorem distinct_empty : ({} : Registry α).Distinct := by
  intro id id' d d' h
  cases h

theorem get?_declare {r' : Registry α} {name : String} {location : Location} {v : α}
    (h : r.declare? name location v = some r') (n : Id) :
    r'.get? n = if n = r.size then some ⟨name, location, v⟩ else r.get? n := by
  rw [declare?] at h
  split at h
  · cases h
  · cases h
    simp only [get?, size, Array.getElem?_push]
    rfl

theorem find?_isSome {name : String} : (r.find? name).isSome = true ↔ ∃ id d, r.get? id = some d ∧ d.name = name := by
  rw [find?, Array.findIdx?_isSome, Array.any_eq_true]
  constructor
  · rintro ⟨i, hi, same⟩
    exact ⟨i, _, Array.getElem?_eq_getElem hi, by simpa using same⟩
  · rintro ⟨id, d, hd, rfl⟩
    obtain ⟨hi, rfl⟩ := Array.getElem?_eq_some_iff.mp hd
    exact ⟨id, hi, by simp⟩

theorem exists_get?_of_find? {name : String} {id : Id} (h : r.find? name = some id) :
    ∃ d, r.get? id = some d ∧ d.name = name := by
  obtain ⟨hi, same, _⟩ := Array.findIdx?_eq_some_iff_getElem.mp h
  exact ⟨_, Array.getElem?_eq_getElem hi, by simpa using same⟩

theorem Distinct.declare {r' : Registry α} {name : String} {location : Location} {v : α}
    (distinct : r.Distinct) (h : r.declare? name location v = some r') : r'.Distinct := by
  have fresh : ∀ id d, r.get? id = some d → d.name ≠ name := by
    intro id d hd same
    rw [declare?, if_pos (find?_isSome.mpr ⟨id, d, hd, same⟩)] at h
    cases h
  intro id id' d d' hd hd' same
  rw [get?_declare h] at hd hd'
  split at hd
  · cases hd
    split at hd'
    · rename_i first second
      rw [first, second]
    · exact absurd same.symm (fresh id' d' hd')
  · split at hd'
    · cases hd'
      exact absurd same (fresh id d hd)
    · exact distinct id id' d d' hd hd' same

theorem get?_modify (id : Id) (f : α → α) (n : Id) :
    (r.modify id f).get? n =
      if id = n then (r.get? n).map fun d => { d with value := f d.value } else r.get? n := by
  simp only [get?, modify, Array.getElem?_modify]

/-- A change of what is known keeps every name where it is. -/
theorem exists_get?_of_modify {id n : Id} {f : α → α} {d : Declared α}
    (h : (r.modify id f).get? n = some d) : ∃ old, r.get? n = some old ∧ old.name = d.name := by
  rw [get?_modify] at h
  split at h
  · obtain ⟨old, hold, rfl⟩ := Option.map_eq_some_iff.mp h
    exact ⟨old, hold, rfl⟩
  · exact ⟨d, h, rfl⟩

theorem Distinct.modify (distinct : r.Distinct) (id : Id) (f : α → α) : (r.modify id f).Distinct := by
  intro m n d e hd he same
  obtain ⟨d', hd', named⟩ := exists_get?_of_modify hd
  obtain ⟨e', he', named'⟩ := exists_get?_of_modify he
  exact distinct m n d' e' hd' he' (named.trans (same.trans named'.symm))

end Registry

theorem Resolve.find?_of_findId {α : Type} {r : Registry α} {kind name : String} {id : Id} {site : Citation}
    (h : findId r kind name site = .ok id) : r.find? name = some id := by
  obtain ⟨⟨found, v⟩, located, rfl⟩ := map_ok.mp h
  rw [Resolve.find] at located
  cases hname : r.find? name with
  | none =>
    rw [hname] at located
    exact absurd located not_unresolved
  | some other =>
    cases hvalue : r.value? other with
    | none =>
      simp only [hname, hvalue] at located
      exact absurd located not_unresolved
    | some w =>
      simp only [hname, hvalue] at located
      cases pure_ok located
      rfl

namespace Database

open Resolve

variable {db : Database}

/-- The kinds of names that one statement enters and gives. -/
inductive GivenKind where
  | context
  | extendedSet

namespace GivenKind

/-- What a name of the kind stands for. -/
abbrev Value : GivenKind → Type
  | context => ContextSpec Id
  | extendedSet => ExtendedSpec Id BitSet

def registry : (kind : GivenKind) → Database → Registry (Option kind.Value)
  | context, db => db.contexts
  | extendedSet, db => db.extendedSets

/-- The name of the kind that a clause gives. -/
def name? : GivenKind → Clause → Option String
  | context, .context name _ => some name
  | extendedSet, .extendedSet name _ => some name
  | _, _ => none

/-- The name of the kind that a statement gives. -/
def given? (kind : GivenKind) : Statement → Option String
  | .plain _ clause => kind.name? clause
  | .conditional .. => none

end GivenKind

variable {kind : GivenKind}

theorem registry_markUsed (rule : Rule) : kind.registry (db.markUsed rule) = kind.registry db := by
  unfold markUsed
  cases kind <;> split <;> rfl

theorem registry_rules (rules : List PlacedRule) : kind.registry { db with rules } = kind.registry db := by
  cases kind <;> rfl

/-- A clause that gives no name of the kind makes no change to the registry. -/
theorem registry_edit {db' : Database} {clause : Clause} {site : Citation} (other : kind.name? clause = none)
    (edit : db.Edit site clause db') : kind.registry db' = kind.registry db := by
  cases edit with
  | context =>
    cases kind with
    | context => cases other
    | extendedSet => rfl
  | extendedSet =>
    cases kind with
    | context => rfl
    | extendedSet => cases other
  | rule => exact (registry_rules _).trans (registry_markUsed _)
  | _ => cases kind <;> rfl

theorem registry_chain {db' : Database} {clause : Clause} {site : Citation} (other : kind.name? clause = none)
    (chain : Relation.ReflTransGen (Edit · site clause) db db') : kind.registry db' = kind.registry db := by
  induction chain with
  | refl => rfl
  | tail _ edit same => exact (registry_edit other edit).trans same

theorem registry_resolveBody {db' : Database} {body : List Statement} {rules : List PlacedRule}
    (run : db.resolveBody body = .ok (db', rules)) : kind.registry db' = kind.registry db := by
  refine foldlM_invariant (fun state : Database × List PlacedRule =>
    kind.registry state.1 = kind.registry db) ?_ rfl run
  rintro ⟨mid, rules⟩ s next _ held step
  cases s with
  | conditional location condition branches =>
    cases step
    exact held
  | plain location clause =>
    obtain ⟨r, _, step⟩ := bind_eq_ok.mp step
    cases r with
    | none =>
      cases step
      exact held
    | some rule =>
      cases step
      exact (registry_markUsed rule).trans held

/-- A statement that gives no name of the kind leaves the registry as it is. -/
theorem registry_resolveStatement {db' : Database} {s : Statement} (other : kind.given? s = none)
    (run : db.resolveStatement s = .ok db') : kind.registry db' = kind.registry db := by
  cases s with
  | plain location clause => exact registry_chain other (Edit.chain_of_clause run)
  | conditional location condition branches =>
    obtain ⟨_, _, run⟩ := bind_eq_ok.mp run
    obtain ⟨⟨marked, blocks⟩, arms, run⟩ := bind_eq_ok.mp run
    have kept : kind.registry marked = kind.registry db := by
      refine foldlM_invariant (fun state : Database × List Block =>
        kind.registry state.1 = kind.registry db) ?_ rfl arms
      rintro ⟨mid, blocks⟩ branch next _ held step
      obtain ⟨⟨after, rules⟩, body, step⟩ := bind_eq_ok.mp step
      cases step
      exact (registry_resolveBody body).trans held
    cases run
    cases kind <;> exact kept

/-! ### What is entered -/

/-- Some statement gives the name. -/
def Gives (kind : GivenKind) (statements : List Statement) (name : String) : Prop :=
  ∃ s ∈ statements, kind.given? s = some name

/-- The name is entered, or the registry stays. -/
theorem registry_entry {db' : Database} {s : Statement} (entry : db.Entry s db') :
    kind.registry db' = kind.registry db ∨ ∃ name location, kind.given? s = some name ∧
      (kind.registry db).declare? name location none = some (kind.registry db') := by
  cases entry with
  | context entered =>
    cases kind with
    | context => exact .inr ⟨_, _, rfl, entered⟩
    | extendedSet => exact .inl rfl
  | extendedSet entered =>
    cases kind with
    | context => exact .inl rfl
    | extendedSet => exact .inr ⟨_, _, rfl, entered⟩
  | _ => exact .inl (by cases kind <;> rfl)

/-- The names of the kind differ, and each is given by a statement. -/
structure Entered (kind : GivenKind) (statements : List Statement) (db : Database) : Prop where
  distinct : (kind.registry db).Distinct
  given : ∀ id d, (kind.registry db).get? id = some d → Gives kind statements d.name

theorem Entered.congr {db' : Database} {statements : List Statement} (entered : Entered kind statements db)
    (same : kind.registry db' = kind.registry db) : Entered kind statements db' := by
  obtain ⟨distinct, given⟩ := entered
  exact ⟨same ▸ distinct, same ▸ given⟩

theorem entered_of_declare {db' : Database} {repeats : Bool} {statements : List Statement} {s : Statement}
    (hs : s ∈ statements) (entered : Entered kind statements db) (run : db.declare repeats s = .ok db') :
    Entered kind statements db' := by
  rcases registry_entry (.of_declare run) with same | ⟨name, location, gives, declared⟩
  · exact entered.congr same
  · refine ⟨entered.distinct.declare declared, fun id d hd => ?_⟩
    rw [Registry.get?_declare declared] at hd
    split at hd
    · cases hd
      exact ⟨s, hs, gives⟩
    · exact entered.given id d hd

theorem registry_bond {db' : Database} {s : Statement} (bond : db.Bond s db') :
    kind.registry db' = kind.registry db := by
  cases bond <;> cases kind <;> rfl

theorem registry_followAliases {db' : Database} (run : db.followAliases = .ok db') :
    kind.registry db' = kind.registry db := by
  obtain ⟨_, _, run⟩ := bind_eq_ok.mp run
  obtain ⟨_, _, run⟩ := bind_eq_ok.mp run
  obtain ⟨_, _, run⟩ := bind_eq_ok.mp run
  cases run
  cases kind <;> rfl

/-! ### What is given -/

/-- The name stands for something. -/
def Filled (kind : GivenKind) (db : Database) (name : String) : Prop :=
  ∀ id d, (kind.registry db).get? id = some d → d.name = name → d.value.isSome = true

/-- The statement that gives a name fills it and no other. -/
theorem registry_of_given {db' : Database} {s : Statement} {name : String} (gives : kind.given? s = some name)
    (run : db.resolveStatement s = .ok db') : ∃ id d value, (kind.registry db).get? id = some d ∧
      d.name = name ∧ kind.registry db' = (kind.registry db).modify id fun _ => some value := by
  cases s with
  | conditional location condition branches => cases gives
  | plain location clause =>
    revert gives
    unfold GivenKind.given? GivenKind.name?
    dsimp only
    split
    all_goals
      intro gives
      cases gives
    all_goals
      obtain ⟨_, _, run⟩ := bind_ok.mp run
      obtain ⟨value, _, run⟩ := bind_ok.mp run
      obtain ⟨id, found, run⟩ := bind_ok.mp run
      obtain ⟨d, hd, named⟩ := Registry.exists_get?_of_find? (find?_of_findId found)
      cases pure_ok run
      exact ⟨id, d, value, hd, named, rfl⟩

theorem Entered.resolve {db' : Database} {statements : List Statement} {s : Statement}
    (entered : Entered kind statements db) (run : db.resolveStatement s = .ok db') :
    Entered kind statements db' := by
  cases gives : kind.given? s with
  | none => exact entered.congr (registry_resolveStatement gives run)
  | some name =>
    obtain ⟨id, d, value, _, _, same⟩ := registry_of_given gives run
    refine ⟨same ▸ entered.distinct.modify id _, fun n e he => ?_⟩
    rw [same] at he
    obtain ⟨old, hold, named⟩ := Registry.exists_get?_of_modify he
    exact named ▸ entered.given n old hold

/-- A name that stands for something goes on to do so. -/
theorem Filled.resolve {db' : Database} {name : String} {s : Statement} (filled : Filled kind db name)
    (run : db.resolveStatement s = .ok db') : Filled kind db' name := by
  cases gives : kind.given? s with
  | none =>
    rw [Filled, registry_resolveStatement gives run]
    exact filled
  | some name' =>
    obtain ⟨id, d, value, _, _, same⟩ := registry_of_given gives run
    intro n e he named
    rw [same, Registry.get?_modify] at he
    split at he
    · obtain ⟨old, _, rfl⟩ := Option.map_eq_some_iff.mp he
      rfl
    · exact filled n e he named

/-- The statement that gives a name fills it. -/
theorem filled_of_given {db' : Database} {statements : List Statement} {s : Statement} {name : String}
    (entered : Entered kind statements db) (gives : kind.given? s = some name)
    (run : db.resolveStatement s = .ok db') : Filled kind db' name := by
  obtain ⟨id, d, value, hd, rfl, same⟩ := registry_of_given gives run
  intro n e he named
  rw [same, Registry.get?_modify] at he
  split at he
  · obtain ⟨old, _, rfl⟩ := Option.map_eq_some_iff.mp he
    rfl
  · rename_i apart
    exact absurd (entered.distinct id n d e hd he named.symm) apart

/-- Every name of the kind stands for something once all statements are resolved. -/
theorem isSome_given (kind : GivenKind) {repeats : Bool} {statements : List Statement}
    (run : ofStatements repeats statements = .ok db) {id : Id} {value : Option kind.Value} (h : (kind.registry db).value? id = some value) :
    value.isSome = true := by
  obtain ⟨declared, first, run⟩ := bind_eq_ok.mp run
  obtain ⟨bound, second, run⟩ := bind_eq_ok.mp run
  obtain ⟨base, third, run⟩ := bind_eq_ok.mp run
  have start : Entered kind statements {} := by
    cases kind <;> exact ⟨Registry.distinct_empty, fun _ _ h => by cases h⟩
  have entered := foldlM_invariant (Entered kind statements)
    (fun _ s _ hs held step => entered_of_declare hs held step) start first
  have entered := foldlM_invariant (Entered kind statements)
    (fun _ _ _ _ held step => held.congr (registry_bond (.of_bind step))) entered second
  have entered := entered.congr (registry_followAliases third)
  obtain ⟨d, hd, rfl⟩ := Registry.value?_eq_some.mp h
  have last := foldlM_invariant (Entered kind statements) (fun _ _ _ _ held step => held.resolve step) entered run
  obtain ⟨s, hs, gives⟩ := last.given id d hd
  -- The statement splits the list: its name is filled there and stays filled behind it.
  obtain ⟨front, rest, rfl⟩ := List.append_of_mem hs
  rw [List.foldlM_append] at run
  obtain ⟨mid, before, run⟩ := bind_eq_ok.mp run
  rw [List.foldlM_cons] at run
  obtain ⟨after, here, behind⟩ := bind_eq_ok.mp run
  have reached := foldlM_invariant (Entered kind (front ++ _ :: rest))
    (fun _ _ _ _ held step => held.resolve step) entered before
  have filled := foldlM_invariant (Filled kind · d.name) (fun _ _ _ _ held step => held.resolve step)
    (filled_of_given reached gives here) behind
  exact filled id d hd rfl

/-- Every name of a context stands for a context. -/
theorem contexts_given {repeats : Bool} {statements : List Statement} (run : ofStatements repeats statements = .ok db)
    {id : Id} {context : Option (ContextSpec Id)} (h : db.contexts.value? id = some context) :
    context.isSome = true :=
  isSome_given .context run h

/-- Every name of extended permissions stands for a set of them. -/
theorem extendedSets_given {repeats : Bool} {statements : List Statement}
    (run : ofStatements repeats statements = .ok db) {id : Id} {spec : Option (ExtendedSpec Id BitSet)}
    (h : db.extendedSets.value? id = some spec) : spec.isSome = true :=
  isSome_given .extendedSet run h

end Database

end CilPolicy
