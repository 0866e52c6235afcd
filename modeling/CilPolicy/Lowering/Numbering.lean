import CilPolicy.Evaluation.Database
import CilPolicy.Kernel.Context
import CilPolicy.Verification.Policy

/-!
Kernel values. A declaration that goes into the kernel policy has a value, which is
its place, counted from one, among those that do. Types and kept attributes share
one sequence in the order of declaration; classes and sensitivities follow their
merged orders.
-/

namespace CilPolicy

/-- Declarations in the order of their kernel values. -/
structure Numbering where
  ids : List Id
deriving DecidableEq, Repr, Inhabited

namespace Numbering

/-- The kernel value of a declaration. -/
def value? (n : Numbering) (id : Id) : Option Nat :=
  (n.ids.idxOf? id).map (· + 1)

/-- The declaration with a kernel value. -/
def id? (n : Numbering) : Nat → Option Id
  | 0 => none
  | value + 1 => n.ids[value]?

/-- Number of values handed out. -/
def size (n : Numbering) : Nat :=
  n.ids.length

/-- Numbers the declarations that satisfy the test, in the order of declaration. -/
def ofRegistry (r : Registry α) (test : Id → α → Bool) : Numbering :=
  ⟨(r.indexed.filter fun (id, d) => test id d.value).map (·.1)⟩

end Numbering

/-- How a policy is lowered. -/
structure LoweringOptions where
  version : FormatVersion := .latest
  target : Target := .selinux
  checkNeverAllow : Bool := true
  /-- Attributes that no `neverallow` rule needs are replaced by their members. -/
  expandAttributes : Bool := false
deriving DecidableEq, Repr, Inhabited

/-- An evaluated policy with the numberings of its declarations. -/
structure Lowering where
  db : EvaluatedDatabase
  settings : Settings
  options : LoweringOptions
  classes : Numbering
  roles : Numbering
  types : Numbering
  users : Numbering
  booleans : Numbering
  sensitivities : Numbering

/-- The type is an attribute that has a kernel value of its own. -/
def EvaluatedDatabase.isKept (db : EvaluatedDatabase) (expand : Bool) (id : Id) : Bool :=
  db.types.test id (·.isAttribute) && db.attributeKept expand id

namespace Lowering

/-- Numbers all declarations. -/
def new (db : EvaluatedDatabase) (settings : Settings) (options : LoweringOptions) : Lowering where
  db := db
  settings := settings
  options := options
  classes := ⟨db.orders.classes.filter fun id => db.classes.test id (!·.isMap)⟩
  roles := .ofRegistry db.roles fun _ r => !r.isAttribute
  types := .ofRegistry db.types fun id t =>
    t.kind == .concrete || db.isKept options.expandAttributes id
  users := .ofRegistry db.users fun _ u => !u.isAttribute
  booleans := .ofRegistry db.booleans fun _ _ => true
  sensitivities := ⟨db.orders.sensitivities⟩

/-- The value of a type; an alias has that of its actual. -/
def typeValue? (l : Lowering) (id : Id) : Option Nat :=
  match l.db.types.value? id with
  | some { kind := .aliasName, actual, .. } => actual.bind l.types.value?
  | _ => l.types.value? id

/-- The name of the type with a value. -/
def typeName (l : Lowering) (value : Nat) : String :=
  ((l.types.id? value).map l.db.types.nameOf).getD ""

/-- The concrete types that a type value stands for. -/
def typeMembers? (l : Lowering) (value : Nat) : Option BitSet :=
  (l.types.id? value).map l.db.expandType

/-- The value of a class, zero when it has none. -/
def classNumber (l : Lowering) (id : Id) : Nat :=
  (l.classes.value? id).getD 0

def level (l : Lowering) (v : LevelValue) : Level :=
  ⟨(l.sensitivities.value? v.sensitivity).getD 0, v.categories⟩

def levelRange (l : Lowering) (r : LevelValue × LevelValue) : LevelRange :=
  ⟨l.level r.1, l.level r.2⟩

/-- The range in kernel values; a policy without levels has the default range alone. -/
def evalRange (l : Lowering) (range : RangeArg Id) : Except LevelFault LevelRange :=
  if l.settings.mls then l.levelRange <$> l.db.evalRange range else .ok default

def evalLevel (l : Lowering) (level : LevelArg Id) : Except LevelFault Level :=
  if l.settings.mls then l.level <$> l.db.evalLevel level else .ok default

/-- The values of the concrete types that a type stands for. -/
def concreteTypes (l : Lowering) (id : Id) : List Nat :=
  (l.db.expandType id).toList.filterMap l.types.value?

/-- The type values that an access rule has for a type: a kept attribute stands for
itself, anything else for its members. -/
def ruleTypes (l : Lowering) (id : Id) : List Nat :=
  if l.db.isKept l.options.expandAttributes id && !l.options.expandAttributes
      && !(l.db.expandType id).isEmpty then
    (l.types.value? id).toList
  else l.concreteTypes id

/-- Pairs of a source and a target, where `types` says which values a type has. -/
def pairsWith (l : Lowering) (types : Id → List Nat) (source : Id) : RuleTarget → List (Nat × Nat)
  | .self => (l.concreteTypes source).map fun s => (s, s)
  | .type target => (types source).flatMap fun s => (types target).map fun t => (s, t)

/-- The pairs of an access rule. -/
def rulePairs (l : Lowering) (source : Id) (target : RuleTarget) : List (Nat × Nat) :=
  l.pairsWith l.ruleTypes source target

/-- The pairs of a rule that is given for every concrete type. -/
def concretePairs (l : Lowering) (source : Id) (target : RuleTarget) : List (Nat × Nat) :=
  l.pairsWith l.concreteTypes source target

/-- The concrete types of a rule's target, none for `self`. -/
def targetTypes (l : Lowering) : RuleTarget → Option BitSet
  | .type target => some (l.db.expandType target)
  | .self => none

end Lowering

end CilPolicy
