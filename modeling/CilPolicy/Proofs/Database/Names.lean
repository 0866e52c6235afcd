import CilPolicy.Proofs.Board
import CilPolicy.Proofs.Database.Skeleton

/-!
# Resolving by name

References can be resolved by name alone, without numbers: an alias gives the name of what it
stands for, other names give themselves. The resolving of references to numbers comes to
these names, and it is refused exactly when there is no such name. So what references come to
does not depend on the order of the declarations.
-/

namespace CilPolicy

/-! ### Conditions -/

/-- What is there. -/
def need {α : Type} : Option α → Except Unit α
  | some a => .ok a
  | none => .error ()

/-- Goes on if the condition holds. -/
def require (condition : Bool) : Except Unit Unit :=
  if condition then .ok () else .error ()

theorem require_ok {condition : Bool} (h : condition = true) : require condition = .ok () :=
  if_pos h

theorem require_error {condition : Bool} (h : condition = false) : require condition = .error () :=
  if_neg (Bool.eq_false_iff.mp h)

namespace Resolve

variable {α β α' β' : Type} {R : α → β → Prop} {Q : α' → β' → Prop} {site : Citation}

theorem tells_bind {m : Resolve α} {f : α → Resolve α'} {y : Except Unit β} {g : β → Except Unit β'}
    (h : Tells R (m site) y) (next : ∀ a b, R a b → Tells Q (f a site) (g b)) :
    Tells Q ((m >>= f) site) (y >>= g) :=
  Tells.bind h next

/-- A condition is checked on both sides. -/
theorem tells_check {c : Prop} [Decidable c] {condition : Bool} {refusal next : Resolve α'}
    {g : Unit → Except Unit β'}
    (refused : ∃ e, refusal site = .error e) (same : c ↔ condition = false) (h : Tells Q (next site) (g ())) :
    Tells Q ((if c then refusal else next) site) (require condition >>= g) := by
  unfold require
  cases condition with
  | true =>
    rw [if_neg (by simp [same])]
    exact h
  | false =>
    obtain ⟨e, he⟩ := refused
    rw [if_pos (by simp [same]), he]
    trivial

theorem tells_find {r : Registry α} {kind name : String} (f : α → β) :
    Tells (fun x v => r.Named x.1 name ∧ r.value? x.1 = some x.2 ∧ v = f x.2) (find r kind name site)
      (need ((r.look name).map f)) := by
  rw [find, Registry.look]
  cases hname : r.find? name with
  | none => trivial
  | some id =>
    cases hvalue : r.value? id with
    | none =>
      simp only [hvalue, Option.bind_some]
      trivial
    | some v =>
      simp only [hvalue, Option.bind_some, Option.map_some]
      exact ⟨Registry.named_of_find? hname, hvalue, rfl⟩

theorem tells_findId {r : Registry α} {kind name : String} (f : α → β) :
    Tells (fun id _ => r.Named id name) (findId r kind name site) (need ((r.outline f).look name)) := by
  rw [Registry.look_outline]
  exact Tells.map_left ((tells_find f).mono fun _ _ h => h.1)

theorem tells_mapM {γ : Type} {ν : β → β'} {f : γ → Resolve β} {g : γ → Except Unit β'}
    (each : ∀ a, Tells (fun b c => ν b = c) (f a site) (g a)) (items : List γ) :
    Tells (fun bs cs => bs.map ν = cs) (items.mapM f site) (items.mapM g) := by
  induction items with
  | nil => exact (rfl : [].map ν = [])
  | cons a rest ih =>
    rw [List.mapM_cons, List.mapM_cons]
    refine tells_bind (each a) ?_
    rintro b _ rfl
    refine tells_bind ih ?_
    rintro bs _ rfl
    exact (rfl : (b :: bs).map ν = _)

section Records

variable {σ K : Type} {F : K → Type} [DecidableEq K] [∀ k, DecidableEq (F k)] {keeping : (k : K) → Keeping (F k)}
  {Inv : σ → Prop} {said : σ → Board F} {s : σ} {notes : Except Unit (List (Note F))}

theorem records_bind {m : Resolve α} {f : α → Resolve σ} {y : Except Unit β} {g : β → Except Unit (List (Note F))}
    (h : Tells R (m site) y) (next : ∀ a b, R a b → Board.Records keeping Inv said s (f a site) (g b)) :
    Board.Records keeping Inv said s ((m >>= f) site) (y >>= g) :=
  Board.records_of_tells h next

/-- The place of a statement is known. -/
theorem records_read {f : Citation → Resolve σ} (next : Board.Records keeping Inv said s (f site site) notes) :
    Board.Records keeping Inv said s ((read >>= f) site) notes :=
  next

variable {c : Prop} [Decidable c] {refusal next : Resolve σ}

theorem records_check {condition : Bool} {g : Unit → Except Unit (List (Note F))}
    (refused : ∃ e, refusal site = .error e) (same : c ↔ condition = false)
    (h : Board.Records keeping Inv said s (next site) (g ())) :
    Board.Records keeping Inv said s ((if c then refusal else next) site) (require condition >>= g) := by
  unfold require
  cases condition with
  | true =>
    rw [if_neg (by simp [same])]
    exact h
  | false =>
    obtain ⟨e, he⟩ := refused
    rw [if_pos (by simp [same]), he]
    exact rfl

/-- A key under which one note is given once. -/
theorem records_once {k : K} {note : F k} {kept : Option (F k)} (refused : ∃ e, refusal site = .error e)
    (once : keeping k = .one fun _ => false) (told : said s k = kept.toList) (given : c ↔ kept.isSome)
    (free : (keeping k).add kept.toList note = .ok [note] →
      Board.Records keeping Inv said s (next site) (.ok [⟨k, note⟩])) :
    Board.Records keeping Inv said s ((if c then refusal else next) site) (.ok [⟨k, note⟩]) := by
  rw [once, Keeping.add_once] at free
  split
  · rename_i taken
    obtain ⟨e, he⟩ := refused
    rw [he]
    refine Board.records_refusal ?_
    rw [told, once, Keeping.add_once, if_pos (given.mp taken)]
  · rename_i absent
    exact free (if_neg fun taken => absent (given.mpr taken))

/-- A key under which the same note may be given again, but no other. -/
theorem records_settled {k : K} {note : F k} {kept : Option (F k)} (refused : ∃ e, refusal site = .error e)
    (settled : keeping k = .one fun _ => true) (told : said s k = kept.toList) (conflict : c ↔ kept.any (· != note))
    (free : (keeping k).add kept.toList note = .ok [note] →
      Board.Records keeping Inv said s (next site) (.ok [⟨k, note⟩])) :
    Board.Records keeping Inv said s ((if c then refusal else next) site) (.ok [⟨k, note⟩]) := by
  rw [settled, Keeping.add_settled] at free
  split
  · rename_i taken
    obtain ⟨e, he⟩ := refused
    rw [he]
    refine Board.records_refusal ?_
    rw [told, settled, Keeping.add_settled, if_pos (conflict.mp taken)]
  · rename_i absent
    exact free (if_neg fun taken => absent (conflict.mpr taken))

end Records

end Resolve

/-! ### Expressions -/

namespace Expr

variable {α β γ ε ε' : Type} {find : α → Except ε β} {find' : α → Except ε' γ} {ν : β → γ} {P : β → Prop}

mutual

theorem tells_traverse (each : ∀ a, Tells (fun b c => ν b = c ∧ P b) (find a) (find' a)) : (e : Expr α) →
    Tells (fun x y => x.map ν = y ∧ ∀ b ∈ x.leaves, P b) (e.traverse find) (e.traverse find')
  | item a => (each a).map fun b c h => ⟨congrArg item h.1, by simpa [leaves] using h.2⟩
  | list members => (tells_traverseAll each members).map fun _ _ h => ⟨congrArg list h.1, h.2⟩
  | apply op operands => (tells_traverseAll each operands).map fun _ _ h => ⟨congrArg (apply op) h.1, h.2⟩

theorem tells_traverseAll (each : ∀ a, Tells (fun b c => ν b = c ∧ P b) (find a) (find' a)) : (es : List (Expr α)) →
    Tells (fun xs ys => mapAll ν xs = ys ∧ ∀ b ∈ leavesAll xs, P b) (traverseAll find es) (traverseAll find' es)
  | [] => ⟨rfl, by simp [leavesAll]⟩
  | e :: es => (tells_traverse each e).bind fun x y h => (tells_traverseAll each es).bind fun xs ys hs => by
      refine ⟨by rw [mapAll, h.1, hs.1], fun b hb => ?_⟩
      rcases List.mem_append.mp hb with hb | hb
      · exact h.2 b hb
      · exact hs.2 b hb

end

end Expr

/-! ### The resolver -/

namespace Names

variable (n : Names)

/-- The name of a type or type attribute; an alias gives its type. -/
def type (name : String) : Except Unit String := do
  let t ← need (n.types name)
  return if t.1 = .aliasName then t.2.getD name else name

def isAttribute (type : String) : Bool :=
  (n.types type).any fun t => t.1 == .attr

def target (name : String) : Except Unit NamedTarget := do
  if name == "self" then return .self else return .type (← n.type name)

/-- The class is one of the kernel. -/
def kernelClass (name : String) : Except Unit Unit := do
  let c ← need (n.classes name)
  require !c.isMap

def sensitivity (name : String) : Except Unit String := do
  let s ← need (n.sensitivities name)
  return s.2.getD name

def category (name : String) : Except Unit String := do
  let c ← need (n.categories name)
  return if c.1 = .aliasName then c.2.getD name else name

def isRangeSet : Expr String → Bool
  | .item name => (n.categories name).any fun c => c.1 == .set
  | _ => true

mutual

def rangesFit : Expr String → Bool
  | .item _ => true
  | .list members => rangesFitAll members
  | .apply .range operands => !operands.any n.isRangeSet
  | .apply _ operands => rangesFitAll operands

def rangesFitAll : List (Expr String) → Bool
  | [] => true
  | e :: es => rangesFit e && rangesFitAll es

end

def categoryExpr (e : Expr String) : Except Unit (Expr String) := do
  let e ← e.traverse n.category
  require (n.rangesFit e)
  return e

/-- The class has the permission, itself or from its common. -/
def hasPermission (c : ClassNames) (permission : String) : Bool :=
  c.permissions.contains permission || (c.common.bind n.commons).any (·.contains permission)

def classPerms : ClassPerms String → Except Unit (ClassPerms String)
  | .named set => do
    let _ ← need (n.classPermissions set)
    return .named set
  | .given cls permissions => do
    let c ← need (n.classes cls)
    let permissions ← permissions.traverse fun p => do
      require (n.hasPermission c p)
      return p
    return .given cls permissions

def levelSpec (l : LevelSpec String) : Except Unit (LevelSpec String) := do
  let sensitivity ← n.sensitivity l.sensitivity
  match l.categories with
  | none => return ⟨sensitivity, none⟩
  | some e => return ⟨sensitivity, some (← n.categoryExpr e)⟩

def levelArg : LevelArg String → Except Unit (LevelArg String)
  | .named name => do
    let _ ← need (n.levels name)
    return .named name
  | .given spec => do return .given (← n.levelSpec spec)

def rangeSpec (r : RangeSpec String) : Except Unit (RangeSpec String) := do
  return ⟨← n.levelArg r.low, ← n.levelArg r.high⟩

def rangeArg : RangeArg String → Except Unit (RangeArg String)
  | .named name => do
    let _ ← need (n.ranges name)
    return .named name
  | .given spec => do return .given (← n.rangeSpec spec)

def contextSpec (c : ContextSpec String) : Except Unit (ContextSpec String) := do
  let user ← need (n.users c.user)
  require !user
  let role ← need (n.roles c.role)
  require !role
  let type ← n.type c.type
  require !n.isAttribute type
  return ⟨c.user, c.role, type, ← n.rangeArg c.range⟩

def contextArg : ContextArg String → Except Unit (ContextArg String)
  | .named name => do
    let _ ← need (n.contexts name)
    return .named name
  | .given spec => do return .given (← n.contextSpec spec)

def extendedSpec (x : ExtendedSpec String (Expr String)) : Except Unit (ExtendedSpec String BitSet) := do
  n.kernelClass x.cls
  match x.numbers.extendedNumbers with
  | .ok numbers => return ⟨x.cls, numbers⟩
  | .error _ => .error ()

def extendedArg : ExtendedArg String (Expr String) → Except Unit (ExtendedArg String BitSet)
  | .named name => do
    let _ ← need (n.extendedSets name)
    return .named name
  | .given spec => do return .given (← n.extendedSpec spec)

def addressArg : AddressArg → Except Unit IpAddress
  | .named name => need (n.addresses name)
  | .given address => .ok address

/-- The rule that a clause states, if it states one. -/
def rule? : Clause → Except Unit (Option NamedRule)
  | .access kind source target permissions => do
    let source ← n.type source
    let target ← n.target target
    return some (.access kind source target (← n.classPerms permissions))
  | .extended kind source target permissions => do
    let source ← n.type source
    let target ← n.target target
    return some (.extended kind source target (← n.extendedArg permissions))
  | .typeRule kind source target cls result => do
    let result ← n.type result
    require !n.isAttribute result
    let source ← n.type source
    let target ← n.target target
    n.kernelClass cls
    return some (.type kind source target cls result)
  | .namedTransition source target cls name result => do
    let result ← n.type result
    require !n.isAttribute result
    let source ← n.type source
    let target ← n.target target
    n.kernelClass cls
    return some (.namedTransition source target cls name result)
  | .roleTransition source target cls result => do
    let isAttribute ← need (n.roles result)
    require !isAttribute
    let _ ← need (n.roles source)
    let target ← n.type target
    n.kernelClass cls
    return some (.roleTransition source target cls result)
  | .roleAllow source target => do
    let _ ← need (n.roles source)
    let _ ← need (n.roles target)
    return some (.roleAllow source target)
  | .rangeTransition source target cls range => do
    let source ← n.type source
    let target ← n.type target
    n.kernelClass cls
    return some (.rangeTransition source target cls (← n.rangeArg range))
  | _ => return none

end Names

/-! ### Both resolvers agree -/

namespace Database

open Resolve

variable {db : Database} {site : Citation}

/-! The names of the declarations, each from its registry. -/

section Fields

variable (db : Database) (name : String)

theorem names_types : db.skeleton.names.types name =
    (db.types.look name).map fun t => (t.kind, t.actual.map db.types.nameOf) := by
  simp only [Skeleton.names, skeleton, Registry.look_outline, Option.map_map, funext (Registry.nameOf_outline _)]
  rfl

theorem names_roles : db.skeleton.names.roles name = (db.roles.look name).map (·.isAttribute) :=
  Registry.look_outline _ _

theorem names_users : db.skeleton.names.users name = (db.users.look name).map (·.isAttribute) :=
  Registry.look_outline _ _

theorem names_sensitivities : db.skeleton.names.sensitivities name =
    (db.sensitivities.look name).map fun s => (s.isAlias, s.actual.map db.sensitivities.nameOf) := by
  simp only [Skeleton.names, skeleton, Registry.look_outline, Option.map_map, funext (Registry.nameOf_outline _)]
  rfl

theorem names_categories : db.skeleton.names.categories name =
    (db.categories.look name).map fun c => (c.kind, c.actual.map db.categories.nameOf) := by
  simp only [Skeleton.names, skeleton, Registry.look_outline, Option.map_map, funext (Registry.nameOf_outline _)]
  rfl

theorem names_classes : db.skeleton.names.classes name =
    (db.classes.look name).map fun c => ⟨c.isMap, c.permissions.names, c.common.map db.commons.nameOf⟩ := by
  simp only [Skeleton.names, skeleton, Registry.look_outline, Option.map_map]
  congr 1
  funext c
  simp only [Function.comp, ClassInfo.outline, Registry.names_outline]

end Fields

section Lookups

variable {name : String}

theorem tells_findRole : Tells
    (fun x v => db.roles.Named x.1 name ∧ db.roles.value? x.1 = some x.2 ∧ v = x.2.isAttribute)
    (db.findRole name site) (need (db.skeleton.names.roles name)) := by
  rw [names_roles]
  exact tells_find _

theorem tells_findUser : Tells
    (fun x v => db.users.Named x.1 name ∧ db.users.value? x.1 = some x.2 ∧ v = x.2.isAttribute)
    (db.findUser name site) (need (db.skeleton.names.users name)) := by
  rw [names_users]
  exact tells_find _

theorem tells_findClass : Tells (fun x v => db.classes.Named x.1 name ∧ db.classes.value? x.1 = some x.2 ∧
      v = ⟨x.2.isMap, x.2.permissions.names, x.2.common.map db.commons.nameOf⟩)
    (db.findClass name site) (need (db.skeleton.names.classes name)) := by
  rw [names_classes]
  exact tells_find _

theorem tells_findKernelClass :
    Tells (fun id _ => db.classes.Named id name) (db.findKernelClass name site)
      (db.skeleton.names.kernelClass name) := by
  rw [findKernelClass, Names.kernelClass]
  refine tells_bind tells_findClass ?_
  rintro ⟨id, info⟩ _ ⟨named, value, rfl⟩
  dsimp only
  rw [require]
  cases info.isMap with
  | true => trivial
  | false => exact named

theorem tells_findType (sound : db.skeleton.Sound) :
    Tells db.types.Named (db.findType name site) (db.skeleton.names.type name) := by
  rw [findType, Names.type, names_types]
  refine tells_bind (tells_find _) ?_
  rintro ⟨id, info⟩ _ ⟨named, value, rfl⟩
  dsimp only
  by_cases aliased : info.kind = .aliasName
  · rw [if_pos (by simpa [TypeInfo.isAlias] using aliased), if_pos aliased]
    cases hactual : info.actual with
    | none => exact named
    | some a =>
      have inside := sound.typeActual id info.link (by simp [skeleton, value]) a hactual
      exact Registry.named_nameOf (by simpa [skeleton] using inside)
  · rw [if_neg (by simpa [TypeInfo.isAlias] using aliased), if_neg aliased]
    exact named

theorem isTypeAttribute_eq (sound : db.skeleton.Sound) {id : Id} (named : db.types.Named id name) :
    db.isTypeAttribute id = db.skeleton.names.isAttribute name := by
  have distinct := (Registry.distinct_outline _).mp sound.types
  rw [isTypeAttribute, Names.isAttribute, names_types, distinct.look_eq named, Registry.test]
  cases db.types.value? id <;> rfl

/-- The numbers of targets are those of their names. -/
def TargetNamed (db : Database) : RuleTarget → NamedTarget → Prop
  | .type id, .type name => db.types.Named id name
  | .self, .self => True
  | _, _ => False

theorem TargetNamed.eq {target : RuleTarget} {named : NamedTarget} (h : db.TargetNamed target named) :
    db.skeleton.target target = named := by
  match target, named, h with
  | .type id, .type name, h => exact congrArg NamedTarget.type ((Registry.nameOf_outline _ _).trans h.nameOf)
  | .self, .self, _ => rfl

theorem tells_findTarget (sound : db.skeleton.Sound) :
    Tells db.TargetNamed (db.findTarget name site) (db.skeleton.names.target name) := by
  rw [findTarget, Names.target]
  split
  · exact True.intro
  · exact tells_bind (tells_findType sound) fun _ _ named => named

theorem tells_findSensitivity (sound : db.skeleton.Sound) :
    Tells db.sensitivities.Named (db.findSensitivity name site) (db.skeleton.names.sensitivity name) := by
  rw [findSensitivity, Names.sensitivity, names_sensitivities]
  refine tells_bind (tells_find _) ?_
  rintro ⟨id, info⟩ _ ⟨named, value, rfl⟩
  dsimp only
  cases hactual : info.actual with
  | none => exact named
  | some a =>
    have inside := sound.sensitivityActual id info.link (by simp [skeleton, value]) a hactual
    exact Registry.named_nameOf (by simpa [skeleton] using inside)

theorem tells_findCategory (sound : db.skeleton.Sound) :
    Tells db.categories.Named (db.findCategory name site) (db.skeleton.names.category name) := by
  rw [findCategory, Names.category, names_categories]
  refine tells_bind (tells_find _) ?_
  rintro ⟨id, info⟩ _ ⟨named, value, rfl⟩
  dsimp only
  by_cases aliased : info.kind = .aliasName
  · rw [if_pos (by simpa using aliased), if_pos aliased]
    cases hactual : info.actual with
    | none => exact named
    | some a =>
      have inside := sound.categoryActual id info.link (by simp [skeleton, value]) a hactual
      exact Registry.named_nameOf (by simpa [skeleton] using inside)
  · rw [if_neg (by simpa using aliased), if_neg aliased]
    exact named

end Lookups

end Database

end CilPolicy
