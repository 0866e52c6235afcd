import CilPolicy.Proofs.Database.Said

/-!
# What each statement says

Every statement adds notes to the board of a database. The notes depend on the declarations
only, so they are found by name, and a statement is refused when its references are or when the
board does not take its notes.
-/

namespace CilPolicy

/-- A note on what a statement says. -/
abbrev SaidNote : Type :=
  Note Topic.Fact

/-! ### The notes of a statement -/

namespace Names

variable (n : Names)

/-- Attributes have no bounds, and are none. -/
def boundable (parentAttr childAttr : Bool) : Except Unit Unit :=
  require (!parentAttr && !childAttr)

def boundNotes (parent child : String) : Entity → Except Unit (List SaidNote)
  | .type => do
    let parent ← n.type parent
    let child ← n.type child
    boundable (n.isAttribute parent) (n.isAttribute child)
    return [⟨.type child .bounds, parent⟩]
  | .role => do
    let parentAttr ← need (n.roles parent)
    let childAttr ← need (n.roles child)
    boundable parentAttr childAttr
    return [⟨.role child .bounds, parent⟩]
  | .user => do
    let parentAttr ← need (n.users parent)
    let childAttr ← need (n.users child)
    boundable parentAttr childAttr
    return [⟨.user child .bounds, parent⟩]

def setNotes (name : String) (members : Expr String) : Entity → Except Unit (List SaidNote)
  | .type => do
    let name ← n.type name
    require (n.isAttribute name)
    return [⟨.type name .sets, ← members.traverse n.type⟩]
  | .role => do
    let isAttribute ← need (n.roles name)
    require isAttribute
    return [⟨.role name .sets, ← members.traverse fun m => (fun _ => m) <$> need (n.roles m)⟩]
  | .user => do
    let isAttribute ← need (n.users name)
    require isAttribute
    return [⟨.user name .sets, ← members.traverse fun m => (fun _ => m) <$> need (n.users m)⟩]

/-- An item of an order is declared, and it is the thing itself. -/
def orderItem (name : String) : OrderKind → Except Unit String
  | .cls => do
    let c ← need (n.classes name)
    require !c.isMap
    return name
  | .sid => (fun _ => name) <$> need (n.sids name)
  | .sensitivity => do
    let s ← need (n.sensitivities name)
    require !s.1
    return name
  | .category => do
    let c ← need (n.categories name)
    require (c.1 == .category)
    return name

def orderNotes (location : Location) (kind : OrderKind) (items : List String) : Except Unit (List SaidNote) :=
  match kind, items with
  | .cls, "unordered" :: names => do
    return [⟨.pile .unorderedClasses, (location, ← names.mapM (n.orderItem · .cls))⟩]
  | kind, names => do
    let items ← names.mapM (n.orderItem · kind)
    return match kind with
      | .cls => [⟨.pile .classOrder, (location, items)⟩]
      | .sid => [⟨.pile .sidOrder, (location, items)⟩]
      | .sensitivity => [⟨.pile .sensitivityOrder, (location, items)⟩]
      | .category => [⟨.pile .categoryOrder, (location, items)⟩]

def defaultNotes (part : ClassPart) (fact : part.Fact) (cls : String) : Except Unit (List SaidNote) := do
  n.kernelClass cls
  return [⟨.cls cls part, fact⟩]

/-- The note on a label whose context is named or given. -/
def labelNotes {σ : Type} (location : Location) (selector : σ) (context : ContextArg String)
    (note : Label σ (ContextArg String) → SaidNote) : Except Unit (List SaidNote) := do
  return [note ⟨location, selector, ← n.contextArg context⟩]

def clauseLabel (location : Location) : Clause → Except Unit (List SaidNote)
  | .fileContext selector none => return [⟨.pile .files, ⟨location, selector, none⟩⟩]
  | .fileContext selector (some context) => do
    return [⟨.pile .files, ⟨location, selector, some (← n.contextArg context)⟩⟩]
  | .filesystemUse selector context => n.labelNotes location selector context (⟨.pile .filesystems, ·⟩)
  | .genfs selector context => n.labelNotes location selector context (⟨.pile .genfs, ·⟩)
  | .port selector context => n.labelNotes location selector context (⟨.pile .ports, ·⟩)
  | .node address mask context => do
    let address ← n.addressArg address
    let mask ← n.addressArg mask
    require (address.isV4 == mask.isV4)
    n.labelNotes location (⟨address, mask⟩ : NodeSelector) context (⟨.pile .nodes, ·⟩)
  | .interface name interface packet => do
    let interface ← n.contextArg interface
    let packet ← n.contextArg packet
    return [⟨.pile .interfaces, ⟨location, name, (interface, packet)⟩⟩]
  | .partitionKey text keys context => do
    let address ← need (IpAddress.parseV6? text)
    n.labelNotes location (⟨text, address.octets.take 8, keys.low, keys.high⟩ : PartitionKeySelector) context
      (⟨.pile .partitionKeys, ·⟩)
  | .endPort selector context => n.labelNotes location selector context (⟨.pile .endPorts, ·⟩)
  | .interrupt irq context => n.labelNotes location irq context (⟨.pile .interrupts, ·⟩)
  | .ioMemory addresses context => n.labelNotes location addresses context (⟨.pile .ioMemory, ·⟩)
  | .ioPort ports context => n.labelNotes location ports context (⟨.pile .ioPorts, ·⟩)
  | .pciDevice device context => n.labelNotes location device context (⟨.pile .pciDevices, ·⟩)
  | .deviceTree path context => n.labelNotes location path context (⟨.pile .deviceTrees, ·⟩)
  | _ => return []

/-- A type attribute in a rule is marked. -/
def mark (kind : AccessKind) (type : String) : List SaidNote :=
  if !n.isAttribute type then []
  else if kind == .neverAllow then [⟨.type type .usedByNeverAllow, ()⟩]
  else [⟨.type type .usedByAccess, ()⟩]

/-- The marks that a rule makes. -/
def marks : NamedRule → List SaidNote
  | .access kind source (.type target) _ | .extended kind source (.type target) _ =>
    n.mark kind source ++ n.mark kind target
  | _ => []

def clauseNotes (location : Location) (clause : Clause) : Except Unit (List SaidNote) :=
  match clause with
  | .attributeSet kind name members => n.setNotes name members kind
  | .bounds kind parent child => n.boundNotes parent child kind
  | .typePermissive type => do
    let type ← n.type type
    require !n.isAttribute type
    return [⟨.type type .permissive, ()⟩]
  | .roleType role type => do
    let _ ← need (n.roles role)
    return [⟨.role role .types, ← n.type type⟩]
  | .userRole user role => do
    let _ ← need (n.users user)
    let _ ← need (n.roles role)
    return [⟨.user user .roles, role⟩]
  | .userLevel user level => do
    let isAttribute ← need (n.users user)
    require !isAttribute
    return [⟨.user user .level, ← n.levelArg level⟩]
  | .userRange user range => do
    let isAttribute ← need (n.users user)
    require !isAttribute
    return [⟨.user user .range, ← n.rangeArg range⟩]
  | .order kind items => n.orderNotes location kind items
  | .classPermissionSet name permissions => do
    let _ ← need (n.classPermissions name)
    return [⟨.classPermission name, ← n.classPerms permissions⟩]
  | .classMapping map permission permissions => do
    let c ← need (n.classes map)
    require c.isMap
    require (c.permissions.contains permission)
    return [⟨.cls map (.mapping permission), ← n.classPerms permissions⟩]
  | .defaults kind classes object => Board.allNotes (n.defaultNotes (.default kind) object) classes
  | .defaultRange classes range => Board.allNotes (n.defaultNotes .defaultRange range) classes
  | .categorySet name categories => do
    let name ← n.category name
    return [⟨.category name, ← n.categoryExpr categories⟩]
  | .sensitivityCategory sensitivity categories => do
    let sensitivity ← n.sensitivity sensitivity
    return [⟨.sensitivity sensitivity, ← n.categoryExpr categories⟩]
  | .level name spec => do
    let spec ← n.levelSpec spec
    let _ ← need (n.levels name)
    return [⟨.level name, spec⟩]
  | .levelRange name spec => do
    let spec ← n.rangeSpec spec
    let _ ← need (n.ranges name)
    return [⟨.range name, spec⟩]
  | .extendedSet name spec => do
    let spec ← n.extendedSpec spec
    let _ ← need (n.extendedSets name)
    return [⟨.extendedSet name, spec⟩]
  | .context name spec => do
    let spec ← n.contextSpec spec
    let _ ← need (n.contexts name)
    return [⟨.context name, spec⟩]
  | .sidContext sid context => do
    let _ ← need (n.sids sid)
    return [⟨.sid sid, ← n.contextArg context⟩]
  | .handleUnknown value => return [⟨.pile .handleUnknown, (location, value)⟩]
  | .mls value => return [⟨.pile .mls, (location, value)⟩]
  | .capability name => return [⟨.pile .capabilities, (location, name)⟩]
  | other => do
    match ← n.rule? other with
    | some rule => return n.marks rule ++ [⟨.pile .rules, ⟨location, rule⟩⟩]
    | none => n.clauseLabel location other

/-- The rules of an arm of a conditional. -/
def body : List Statement → Except Unit (List PlacedNamedRule)
  | [] => return []
  | .plain location clause :: rest => do
    match ← n.rule? clause with
    | some rule => return ⟨location, rule⟩ :: (← body rest)
    | none => body rest
  | .conditional .. :: rest => body rest

def block (b : Branch) : Except Unit NamedBlock := do
  return ⟨b.location, b.kind, ← n.body b.body⟩

/-- What a statement says. -/
def notes : Statement → Except Unit (List SaidNote)
  | .plain location clause => n.clauseNotes location clause
  | .conditional location condition branches => do
    let condition ← condition.traverse fun b => (fun _ => b) <$> need (n.booleans b)
    let blocks ← branches.mapM n.block
    return (blocks.flatMap fun b => b.rules.flatMap fun r => n.marks r.rule) ++
      [⟨.pile .conditionals, ⟨location, condition, blocks⟩⟩]

end Names

/-! ### The notes are added -/

namespace Database

open Resolve

variable {db db' : Database} {k : Skeleton} {site : Citation}

/-- Resolving adds the notes to what is said in the database. -/
abbrev Adds (k : Skeleton) (db : Database) (result : Except Diagnostic Database)
    (notes : Except Unit (List SaidNote)) : Prop :=
  Board.Records Topic.keeping (fun db => db.skeleton = k) k.said db result notes

theorem adds_push (pile : Pile) (entry : pile.Entry) :
    Adds db.skeleton db (.ok (db.push pile entry)) (.ok [⟨.pile pile, db.skeleton.entry pile entry⟩]) := by
  have same : (db.push pile entry).skeleton = db.skeleton := by cases pile <;> rfl
  refine Board.records_note same ?_ ?_
  · change Except.ok (List.map _ _ ++ _) = Except.ok (List.map _ _)
    rw [pile_push_self, List.map_append]
    rfl
  · intro topic differ
    cases topic with
    | pile other =>
      exact congrArg (List.map _) (pile_push_other db (fun h => differ (congrArg Topic.pile h)) entry)
    | _ => cases pile <;> rfl

/-! ### Statements about declarations -/

/-- What is known of one declaration changes, and only one part of what is said of it. -/
theorem adds_part {α κ : Type} {r : Registry α} (topic : String → κ → Topic)
    {facts : ∀ name part, α → List (topic name part).Fact} {id : Id} {name : String} {part : κ} {v : α} {f : α → α}
    {fact : (topic name part).Fact} (distinct : r.Distinct) (named : r.Named id name) (value : r.value? id = some v)
    (same : db'.skeleton = db.skeleton)
    (before : ∀ name part, db.skeleton.said db (topic name part) = r.tell (facts name part) name)
    (after : ∀ name part, db.skeleton.said db' (topic name part) = (r.modify id f).tell (facts name part) name)
    (fits : (topic name part).keeping.add (facts name part v) fact = .ok (facts name part (f v)))
    (parts : ∀ v other, other ≠ part → r.value? id = some v → facts name other (f v) = facts name other v)
    (others : ∀ other, (∀ name part, other ≠ topic name part) →
      db.skeleton.said db' other = db.skeleton.said db other) :
    Adds db.skeleton db (.ok db') (.ok [⟨topic name part, fact⟩]) := by
  refine Board.records_note same ?_ fun other differ => ?_
  · rw [before, after, distinct.tell_eq named value, distinct.tell_modify_self named value]
    exact fits
  · by_cases declared : ∃ name part, other = topic name part
    · obtain ⟨name', part', rfl⟩ := declared
      rw [before, after]
      refine distinct.tell_modify_other named fun same v known => ?_
      subst same
      exact parts v part' (fun same => differ (congrArg _ same)) known
    · exact others other fun name part same => declared ⟨name, part, same⟩

/-- What is known of one declaration changes, and all of it is said in one place. -/
theorem adds_value {α : Type} {r : Registry α} (topic : String → Topic)
    {facts : ∀ name, α → List (topic name).Fact} {id : Id} {name : String} {f : α → α} {fact : (topic name).Fact}
    (distinct : r.Distinct) (named : r.Named id name) (same : db'.skeleton = db.skeleton)
    (before : ∀ name, db.skeleton.said db (topic name) = r.tell (facts name) name)
    (after : ∀ name, db.skeleton.said db' (topic name) = (r.modify id f).tell (facts name) name)
    (fits : ∀ v, r.value? id = some v → (topic name).keeping.add (facts name v) fact = .ok (facts name (f v)))
    (others : ∀ other, (∀ name, other ≠ topic name) → db.skeleton.said db' other = db.skeleton.said db other) :
    Adds db.skeleton db (.ok db') (.ok [⟨topic name, fact⟩]) := by
  obtain ⟨v, value⟩ := Registry.exists_value? named.lt
  exact adds_part (fun name (_ : Unit) => topic name) distinct named value same (fun name _ => before name)
    (fun name _ => after name) (fits v value) (fun _ other differ => absurd (Subsingleton.elim other ()) differ)
    fun other differ => others other fun name => differ name ()

section Parts

variable (sound : db.skeleton.Sound) {id : Id} {name : String}

include sound

theorem adds_type {t : TypeInfo} {part : TypePart} {fact : part.Fact} {f : TypeInfo → TypeInfo}
    (named : db.types.Named id name) (value : db.types.value? id = some t) (link : ∀ v, (f v).link = v.link)
    (others : ∀ v other, other ≠ part → db.skeleton.typeFacts (f v) other = db.skeleton.typeFacts v other)
    (fits : (Topic.type name part).keeping.add (db.skeleton.typeFacts t part) fact =
      .ok (db.skeleton.typeFacts (f t) part)) :
    Adds db.skeleton db (.ok { db with types := db.types.modify id f }) (.ok [⟨.type name part, fact⟩]) := by
  refine adds_part .type ((Registry.distinct_outline _).mp sound.types) named value ?_ (fun _ _ => rfl)
    (fun _ _ => rfl) fits (fun v other differ _ => others v other differ) fun other differ => ?_
  · simp only [skeleton, Registry.outline_modify link]
  · cases other <;> first | rfl | exact absurd rfl (differ _ _)

theorem adds_role {r : RoleInfo} {part : RolePart} {fact : part.Fact} {f : RoleInfo → RoleInfo}
    (named : db.roles.Named id name) (value : db.roles.value? id = some r)
    (kept : ∀ v, (f v).isAttribute = v.isAttribute)
    (others : ∀ v other, other ≠ part → db.skeleton.roleFacts (f v) other = db.skeleton.roleFacts v other)
    (fits : (Topic.role name part).keeping.add (db.skeleton.roleFacts r part) fact =
      .ok (db.skeleton.roleFacts (f r) part)) :
    Adds db.skeleton db (.ok { db with roles := db.roles.modify id f }) (.ok [⟨.role name part, fact⟩]) := by
  refine adds_part .role ((Registry.distinct_outline _).mp sound.roles) named value ?_ (fun _ _ => rfl)
    (fun _ _ => rfl) fits (fun v other differ _ => others v other differ) fun other differ => ?_
  · simp only [skeleton, Registry.outline_modify kept]
  · cases other <;> first | rfl | exact absurd rfl (differ _ _)

theorem adds_user {u : UserInfo} {part : UserPart} {fact : part.Fact} {f : UserInfo → UserInfo}
    (named : db.users.Named id name) (value : db.users.value? id = some u)
    (kept : ∀ v, (f v).isAttribute = v.isAttribute)
    (others : ∀ v other, other ≠ part → db.skeleton.userFacts (f v) other = db.skeleton.userFacts v other)
    (fits : (Topic.user name part).keeping.add (db.skeleton.userFacts u part) fact =
      .ok (db.skeleton.userFacts (f u) part)) :
    Adds db.skeleton db (.ok { db with users := db.users.modify id f }) (.ok [⟨.user name part, fact⟩]) := by
  refine adds_part .user ((Registry.distinct_outline _).mp sound.users) named value ?_ (fun _ _ => rfl)
    (fun _ _ => rfl) fits (fun v other differ _ => others v other differ) fun other differ => ?_
  · simp only [skeleton, Registry.outline_modify kept]
  · cases other <;> first | rfl | exact absurd rfl (differ _ _)

theorem adds_class {c : ClassInfo} {part : ClassPart} {fact : part.Fact} {f : ClassInfo → ClassInfo}
    (named : db.classes.Named id name) (value : db.classes.value? id = some c) (kept : ∀ v, (f v).outline = v.outline)
    (others : ∀ v other, other ≠ part → db.classes.value? id = some v →
      db.skeleton.classFacts (f v) other = db.skeleton.classFacts v other)
    (fits : (Topic.cls name part).keeping.add (db.skeleton.classFacts c part) fact =
      .ok (db.skeleton.classFacts (f c) part)) :
    Adds db.skeleton db (.ok { db with classes := db.classes.modify id f }) (.ok [⟨.cls name part, fact⟩]) := by
  refine adds_part .cls ((Registry.distinct_outline _).mp sound.classes) named value ?_ (fun _ _ => rfl)
    (fun _ _ => rfl) fits others fun other differ => ?_
  · simp only [skeleton, Registry.outline_modify kept]
  · cases other <;> first | rfl | exact absurd rfl (differ _ _)

end Parts

/-! ### Bounds -/

theorem tells_checkBounds {parent child : String} (parentAttr childAttr : Bool) :
    Tells (fun _ _ => True) (checkBounds parent child parentAttr childAttr site)
      (Names.boundable parentAttr childAttr) := by
  cases parentAttr <;> cases childAttr <;> exact True.intro

theorem adds_bounds (sound : db.skeleton.Sound) (parent child : String) (kind : Entity) :
    Adds db.skeleton db (db.resolveBounds parent child kind site)
      (db.skeleton.names.boundNotes parent child kind) := by
  cases kind with
  | type =>
    refine records_bind (tells_findType sound) ?_
    intro p parentName namedParent
    refine records_bind (tells_findType sound) ?_
    intro c childName namedChild
    rw [isTypeAttribute_eq sound namedParent, isTypeAttribute_eq sound namedChild]
    refine records_bind (tells_checkBounds _ _) ?_
    rintro _ _ -
    obtain ⟨t, value⟩ := Registry.exists_value? namedChild.lt
    have told : db.skeleton.said db (.type childName .bounds) = (t.bounds.map db.skeleton.types.nameOf).toList :=
      ((Registry.distinct_outline _).mp sound.types).tell_eq namedChild value
    refine records_once ⟨_, rfl⟩ rfl told ?_ fun fits => ?_
    · rw [Registry.test, value]
      simp
    · refine adds_type sound namedChild value (fun _ => rfl) (fun v other differ => ?_) ?_
      · cases other <;> first | rfl | exact absurd rfl differ
      · obtain rfl := namedParent.nameOf_outline (·.link)
        exact fits
  | role =>
    refine records_bind tells_findRole ?_
    rintro ⟨p, parentInfo⟩ _ ⟨namedParent, -, rfl⟩
    refine records_bind tells_findRole ?_
    rintro ⟨c, r⟩ _ ⟨namedChild, value, rfl⟩
    refine records_bind (tells_checkBounds _ _) ?_
    rintro _ _ -
    have told : db.skeleton.said db (.role child .bounds) = (r.bounds.map db.skeleton.roles.nameOf).toList :=
      ((Registry.distinct_outline _).mp sound.roles).tell_eq namedChild value
    refine records_once ⟨_, rfl⟩ rfl told (by simp) fun fits => ?_
    refine adds_role sound namedChild value (fun _ => rfl) (fun v other differ => ?_) ?_
    · cases other <;> first | rfl | exact absurd rfl differ
    · obtain rfl := namedParent.nameOf_outline (·.isAttribute)
      exact fits
  | user =>
    refine records_bind tells_findUser ?_
    rintro ⟨p, parentInfo⟩ _ ⟨namedParent, -, rfl⟩
    refine records_bind tells_findUser ?_
    rintro ⟨c, u⟩ _ ⟨namedChild, value, rfl⟩
    refine records_bind (tells_checkBounds _ _) ?_
    rintro _ _ -
    have told : db.skeleton.said db (.user child .bounds) = (u.bounds.map db.skeleton.users.nameOf).toList :=
      ((Registry.distinct_outline _).mp sound.users).tell_eq namedChild value
    refine records_once ⟨_, rfl⟩ rfl told (by simp) fun fits => ?_
    refine adds_user sound namedChild value (fun _ => rfl) (fun v other differ => ?_) ?_
    · cases other <;> first | rfl | exact absurd rfl differ
    · obtain rfl := namedParent.nameOf_outline (·.isAttribute)
      exact fits

/-! ### Sets of attributes -/

theorem adds_attributeSet (sound : db.skeleton.Sound) (name : String) (members : Expr String) (kind : Entity) :
    Adds db.skeleton db (db.resolveAttributeSet name members kind site)
      (db.skeleton.names.setNotes name members kind) := by
  cases kind with
  | type =>
    refine records_bind (tells_findType sound) ?_
    intro id _ named
    refine records_check ⟨_, rfl⟩ (by simp [isTypeAttribute_eq sound named]) ?_
    refine records_bind (m := expr members _) (Expr.tells_traverse (ν := db.skeleton.types.nameOf) (P := fun _ => True)
      (fun m => (tells_findType sound).mono fun _ _ h => ⟨h.nameOf_outline _, trivial⟩) members) ?_
    rintro e _ ⟨rfl, -⟩
    obtain ⟨t, value⟩ := Registry.exists_value? named.lt
    refine adds_type sound named value (fun _ => rfl) (fun v other differ => ?_) ?_
    · cases other <;> first | rfl | exact absurd rfl differ
    · exact Keeping.add_map (·.map db.skeleton.types.nameOf) t.sets e
  | role =>
    refine records_bind tells_findRole ?_
    rintro ⟨id, r⟩ _ ⟨named, value, rfl⟩
    refine records_check ⟨_, rfl⟩ (by simp) ?_
    refine records_bind (m := expr members _) (Expr.tells_traverse (ν := db.skeleton.roles.nameOf) (P := fun _ => True)
      (fun m => tells_findRole.map fun _ _ h => ⟨h.1.nameOf_outline _, trivial⟩) members) ?_
    rintro e _ ⟨rfl, -⟩
    refine adds_role sound named value (fun _ => rfl) (fun v other differ => ?_) ?_
    · cases other <;> first | rfl | exact absurd rfl differ
    · exact Keeping.add_map (·.map db.skeleton.roles.nameOf) r.sets e
  | user =>
    refine records_bind tells_findUser ?_
    rintro ⟨id, u⟩ _ ⟨named, value, rfl⟩
    refine records_check ⟨_, rfl⟩ (by simp) ?_
    refine records_bind (m := expr members _) (Expr.tells_traverse (ν := db.skeleton.users.nameOf) (P := fun _ => True)
      (fun m => tells_findUser.map fun _ _ h => ⟨h.1.nameOf_outline _, trivial⟩) members) ?_
    rintro e _ ⟨rfl, -⟩
    refine adds_user sound named value (fun _ => rfl) (fun v other differ => ?_) ?_
    · cases other <;> first | rfl | exact absurd rfl differ
    · exact Keeping.add_map (·.map db.skeleton.users.nameOf) u.sets e

/-! ### Orders -/

theorem tells_orderItems (kind : OrderKind) (names : List String) :
    Tells (fun ids names => ids.map (db.skeleton.orderNames kind) = names) (db.orderItems names kind site)
      (names.mapM (db.skeleton.names.orderItem · kind)) := by
  cases kind with
  | cls =>
    refine tells_mapM (fun name => ?_) names
    refine tells_bind tells_findClass ?_
    rintro ⟨id, info⟩ _ ⟨named, -, rfl⟩
    cases hmap : info.isMap <;> simp only [hmap]
    · exact named.nameOf_outline _
    · exact True.intro
  | sid =>
    exact tells_mapM (fun name =>
      Tells.map_right ((tells_findId fun _ => ()).mono fun _ _ h => h.nameOf_outline _)) names
  | sensitivity =>
    refine tells_mapM (fun name => ?_) names
    change Tells _ _ (need (db.skeleton.names.sensitivities name) >>= _)
    rw [names_sensitivities]
    refine tells_bind (tells_find _) ?_
    rintro ⟨id, info⟩ _ ⟨named, -, rfl⟩
    cases halias : info.isAlias <;> simp only [halias]
    · exact named.nameOf_outline _
    · exact True.intro
  | category =>
    refine tells_mapM (fun name => ?_) names
    change Tells _ _ (need (db.skeleton.names.categories name) >>= _)
    rw [names_categories]
    refine tells_bind (tells_find _) ?_
    rintro ⟨id, info⟩ _ ⟨named, -, rfl⟩
    cases hkind : info.kind <;> simp only [hkind]
    · exact named.nameOf_outline _
    · exact True.intro
    · exact True.intro

theorem adds_order (kind : OrderKind) (items : List String) :
    Adds db.skeleton db (db.resolveOrder kind items site)
      (db.skeleton.names.orderNotes site.location kind items) := by
  rw [resolveOrder]
  refine records_read ?_
  dsimp only
  split
  · rw [Names.orderNotes]
    refine records_bind (tells_orderItems .cls _) ?_
    rintro ids _ rfl
    exact adds_push .unorderedClasses ⟨site.location, ids⟩
  · rename_i whole
    rw [Names.orderNotes]
    · refine records_bind (tells_orderItems kind items) ?_
      rintro ids _ rfl
      cases kind with
      | cls => exact adds_push .classOrder ⟨site.location, ids⟩
      | sid => exact adds_push .sidOrder ⟨site.location, ids⟩
      | sensitivity => exact adds_push .sensitivityOrder ⟨site.location, ids⟩
      | category => exact adds_push .categoryOrder ⟨site.location, ids⟩
    · exact whole

/-! ### Classes -/

theorem adds_default (sound : db.skeleton.Sound) (kind : DefaultKind) (object : DefaultObject) (cls : String) :
    Adds db.skeleton db (resolveDefault kind object db cls site)
      (db.skeleton.names.defaultNotes (.default kind) object cls) := by
  refine records_bind tells_findKernelClass ?_
  intro id _ named
  obtain ⟨c, value⟩ := Registry.exists_value? named.lt
  have told : db.skeleton.said db (.cls cls (.default kind)) = (classDefault kind c).toList :=
    ((Registry.distinct_outline _).mp sound.classes).tell_eq named value
  refine records_settled ⟨_, rfl⟩ rfl told ?_ fun fits => ?_
  · simp only [Registry.test, value, Option.any_some]
  · refine adds_class sound named value (fun _ => by cases kind <;> rfl) (fun v other differ _ => ?_) ?_
    · cases other with
      | default kind' => cases kind <;> cases kind' <;> first | rfl | exact absurd rfl differ
      | _ => cases kind <;> rfl
    · refine fits.trans (congrArg Except.ok ?_)
      cases kind <;> rfl

theorem adds_defaultRange (sound : db.skeleton.Sound) (range : DefaultRange) (cls : String) :
    Adds db.skeleton db (resolveDefaultRange range db cls site)
      (db.skeleton.names.defaultNotes .defaultRange range cls) := by
  refine records_bind tells_findKernelClass ?_
  intro id _ named
  obtain ⟨c, value⟩ := Registry.exists_value? named.lt
  have told : db.skeleton.said db (.cls cls .defaultRange) = c.defaultRange.toList :=
    ((Registry.distinct_outline _).mp sound.classes).tell_eq named value
  refine records_settled ⟨_, rfl⟩ rfl told ?_ fun fits => ?_
  · simp only [Registry.test, value, Option.any_some]
  · refine adds_class sound named value (fun _ => rfl) (fun v other differ _ => ?_) fits
    cases other <;> first | rfl | exact absurd rfl differ

theorem tells_mapPermission {info : ClassInfo} {permission : String} :
    Tells (fun own _ => info.permissions.Named own permission)
      (findId info.permissions "map permission" permission site)
      (require (info.permissions.names.contains permission)) := by
  have found : Tells _ (findId info.permissions "map permission" permission site) _ := tells_findId fun _ => ()
  rw [Registry.look] at found
  have contains : info.permissions.names.contains permission = (info.permissions.find? permission).isSome := by
    rw [Bool.eq_iff_iff, List.contains_iff_mem, Registry.mem_names, Option.isSome_iff_exists]
  rw [contains]
  cases hname : info.permissions.find? permission with
  | none =>
    rw [Registry.find?_outline, hname] at found
    exact found
  | some own =>
    obtain ⟨v, hv⟩ := Registry.exists_value? (Registry.lt_of_find? hname)
    rw [Registry.find?_outline, hname, Option.bind_some, Registry.value?_outline, hv] at found
    exact found

theorem adds_mapping (sound : db.skeleton.Sound) (map permission : String) (perms : ClassPerms String) :
    Adds db.skeleton db (db.resolveMapping map permission perms site)
      (db.skeleton.names.clauseNotes site.location (.classMapping map permission perms)) := by
  refine records_bind tells_findClass ?_
  rintro ⟨id, info⟩ _ ⟨named, value, rfl⟩
  refine records_check ⟨_, rfl⟩ (by simp) ?_
  refine records_bind tells_mapPermission ?_
  intro own _ namedOwn
  refine records_bind (tells_classPerms sound perms) ?_
  rintro p _ rfl
  have distinct : info.permissions.Distinct := (Registry.distinct_outline _).mp
    (sound.permissions id info.outline (by simpa [skeleton] using ⟨info, value, rfl⟩))
  obtain ⟨kept, known⟩ := Registry.exists_value? namedOwn.lt
  refine adds_class sound named value (fun v => ?_) (fun v other differ isInfo => ?_) ?_
  · exact congrArg (ClassOutline.mk v.isMap · v.common) 
      (Registry.outline_modify (f := fun _ => ()) (g := (· ++ [p])) (fun _ => rfl) own)
  · obtain rfl := Option.some.inj (value.symm.trans isInfo)
    cases other with
    | mapping other => exact distinct.tell_modify_other namedOwn fun same => absurd (congrArg _ same) differ
    | _ => rfl
  · change Keeping.all.add (info.permissions.tell _ permission) _ = .ok (Registry.tell _ _ permission)
    rw [distinct.tell_eq namedOwn known, distinct.tell_modify_self namedOwn known]
    exact Keeping.add_map db.skeleton.classPerms kept p

/-! ### Labels -/

theorem adds_label (sound : db.skeleton.Sound) {σ : Type} {put : Label σ (ContextArg Id) → Labels} {selector : σ}
    {context : ContextArg String} {note : Label σ (ContextArg String) → SaidNote}
    (added : ∀ l, Adds db.skeleton db (.ok { db with labels := put l }) (.ok [note (db.skeleton.label l)])) :
    Adds db.skeleton db (db.label context selector put site)
      (db.skeleton.names.labelNotes site.location selector context note) := by
  refine records_read (records_bind (tells_contextArg sound context) ?_)
  rintro c _ rfl
  exact added ⟨site.location, selector, c⟩

theorem adds_clauseLabel (sound : db.skeleton.Sound) (clause : Clause) :
    Adds db.skeleton db (db.resolveLabel clause site) (db.skeleton.names.clauseLabel site.location clause) := by
  cases clause with
  | fileContext selector context =>
    refine records_read ?_
    cases context with
    | none => exact adds_push .files ⟨site.location, selector, none⟩
    | some context =>
      refine records_bind (m := some <$> db.contextArg context) (R := fun c y => c.map db.skeleton.contextArg = some y)
        (Tells.map_left ((tells_contextArg sound context).mono fun _ _ same => congrArg some same)) ?_
      intro c y same
      dsimp only
      rw [← same]
      exact adds_push .files ⟨site.location, selector, c⟩
  | filesystemUse selector context => exact adds_label sound fun l => adds_push .filesystems l
  | genfs selector context => exact adds_label sound fun l => adds_push .genfs l
  | port selector context => exact adds_label sound fun l => adds_push .ports l
  | node address mask context =>
    refine records_bind (tells_addressArg address) ?_
    rintro a _ rfl
    refine records_bind (tells_addressArg mask) ?_
    rintro m _ rfl
    refine records_check ⟨_, rfl⟩ (by simp) ?_
    exact adds_label sound fun l => adds_push .nodes l
  | interface name interface packet =>
    refine records_read ?_
    refine records_bind (tells_contextArg sound interface) ?_
    rintro i _ rfl
    refine records_bind (tells_contextArg sound packet) ?_
    rintro p _ rfl
    exact adds_push .interfaces ⟨site.location, name, (i, p)⟩
  | partitionKey text keys context =>
    -- no equation of their cases is used: the last case would need one premise for each other clause
    unfold resolveLabel Names.clauseLabel
    dsimp only
    cases IpAddress.parseV6? text with
    | none => exact rfl
    | some address => exact adds_label sound fun l => adds_push .partitionKeys l
  | endPort selector context => exact adds_label sound fun l => adds_push .endPorts l
  | interrupt irq context => exact adds_label sound fun l => adds_push .interrupts l
  | ioMemory addresses context => exact adds_label sound fun l => adds_push .ioMemory l
  | ioPort ports context => exact adds_label sound fun l => adds_push .ioPorts l
  | pciDevice device context => exact adds_label sound fun l => adds_push .pciDevices l
  | deviceTree path context => exact adds_label sound fun l => adds_push .deviceTrees l
  | _ => exact ⟨rfl, rfl⟩

/-! ### Rules -/

theorem adds_markType (sound : db.skeleton.Sound) (kind : AccessKind) {id : Id} {name : String}
    (named : db.types.Named id name) :
    Adds db.skeleton db (.ok { db with types := markType kind db.types id })
      (.ok (db.skeleton.names.mark kind name)) := by
  obtain ⟨t, value⟩ := Registry.exists_value? named.lt
  have isAttribute : db.skeleton.names.isAttribute name = t.isAttribute := by
    rw [← isTypeAttribute_eq sound named, isTypeAttribute, Registry.test, value, Option.any_some]
  rw [Names.mark, isAttribute]
  cases attr : t.isAttribute with
  | false =>
    have unmarked : markType kind db.types id = db.types := by
      refine Registry.modify_eq_self fun v known => ?_
      obtain rfl := Option.some.inj (value.symm.trans known)
      rw [attr]
      rfl
    rw [unmarked]
    exact ⟨rfl, rfl⟩
  | true =>
    cases never : kind == .neverAllow with
    | true =>
      have shape : markType kind db.types id = db.types.modify id fun t =>
          if !t.isAttribute then t else { t with usedByNeverAllow := true } := by
        simp only [markType, never, if_true]
      rw [shape]
      refine adds_type sound named value (fun v => ?_) (fun v other differ => ?_) ?_
      · split <;> rfl
      · split
        · rfl
        · cases other <;> first | rfl | exact absurd rfl differ
      · rw [if_neg (by simp [attr])]
        exact Keeping.add_flag _
    | false =>
      have shape : markType kind db.types id = db.types.modify id fun t =>
          if !t.isAttribute then t else { t with usedByAccess := true } := by
        simp only [markType, never, Bool.false_eq_true, if_false]
      rw [shape]
      refine adds_type sound named value (fun v => ?_) (fun v other differ => ?_) ?_
      · split <;> rfl
      · split
        · rfl
        · cases other <;> first | rfl | exact absurd rfl differ
      · rw [if_neg (by simp [attr])]
        exact Keeping.add_flag _

/-- A rule marks the type attributes it uses. -/
theorem adds_marks (sound : db.skeleton.Sound) {rule : Rule} {named : NamedRule} (h : db.RuleNamed rule named) :
    Adds db.skeleton db (.ok (db.markUsed rule)) (.ok (db.skeleton.names.marks named)) := by
  obtain ⟨rfl, types⟩ := h
  have both : ∀ kind {source target : Id} {source' target' : String}, db.types.Named source source' →
      db.types.Named target target' →
      Adds db.skeleton db (.ok { db with types := markType kind (markType kind db.types source) target })
        (.ok (db.skeleton.names.mark kind source' ++ db.skeleton.names.mark kind target')) := by
    intro kind source target source' target' namedSource namedTarget
    have first := adds_markType sound kind namedSource
    have same := first.1
    have second : Adds _ { db with types := markType kind db.types source } _ _ :=
      adds_markType (same ▸ sound) kind (namedTarget.modify _)
    rw [same] at second
    exact first.append second
  cases rule with
  | access kind source target permissions =>
    cases target with
    | type target => exact both kind types.1 types.2
    | self => exact ⟨rfl, rfl⟩
  | extended kind source target permissions =>
    cases target with
    | type target => exact both kind types.1 types.2
    | self => exact ⟨rfl, rfl⟩
  | _ => exact ⟨rfl, rfl⟩

/-- What a clause says if it is none of those that have their own words. -/
theorem adds_rule (sound : db.skeleton.Sound) (clause : Clause) :
    Adds db.skeleton db
      ((db.rule? clause >>= fun
        | some rule => pure { db.markUsed rule with rules := db.rules ++ [⟨site.location, rule⟩] }
        | none => db.resolveLabel clause : Resolve Database) site)
      (db.skeleton.names.rule? clause >>= fun
        | some rule => pure (db.skeleton.names.marks rule ++ [⟨.pile .rules, ⟨site.location, rule⟩⟩])
        | none => db.skeleton.names.clauseLabel site.location clause) := by
  refine records_bind (tells_rule? sound clause) ?_
  rintro _ _ (@⟨rule, named, h⟩ | _)
  · have marked := adds_marks sound h
    have same := marked.1
    have rules : (db.markUsed rule).rules = db.rules := by
      unfold markUsed
      split <;> rfl
    have pushed : Adds _ (db.markUsed rule) _ _ := adds_push .rules ⟨site.location, rule⟩
    rw [same, push, rules] at pushed
    obtain ⟨rfl, -⟩ := h
    exact marked.append pushed
  · exact adds_clauseLabel sound clause

/-- Resolving a clause adds what it says by name. -/
theorem adds_clause (sound : db.skeleton.Sound) (clause : Clause) :
    Adds db.skeleton db (db.resolveClause clause site) (db.skeleton.names.clauseNotes site.location clause) := by
  refine records_read ?_
  cases clause with
  | attributeSet kind name members => exact adds_attributeSet sound name members kind
  | bounds kind parent child => exact adds_bounds sound parent child kind
  | typePermissive type =>
    refine records_bind (tells_findType sound) ?_
    intro id _ named
    refine records_check ⟨_, rfl⟩ (by simp [isTypeAttribute_eq sound named]) ?_
    obtain ⟨t, value⟩ := Registry.exists_value? named.lt
    refine adds_type sound named value (fun _ => rfl) (fun v other differ => ?_) (Keeping.add_flag _)
    cases other <;> first | rfl | exact absurd rfl differ
  | roleType role type =>
    refine records_bind tells_findRole ?_
    rintro ⟨id, r⟩ _ ⟨named, value, rfl⟩
    refine records_bind (tells_findType sound) ?_
    intro t typeName namedType
    obtain rfl := namedType.nameOf_outline (·.link)
    refine adds_role sound named value (fun _ => rfl) (fun v other differ => ?_)
      (Keeping.add_map db.skeleton.types.nameOf r.types t)
    cases other <;> first | rfl | exact absurd rfl differ
  | userRole user role =>
    refine records_bind tells_findUser ?_
    rintro ⟨id, u⟩ _ ⟨named, value, rfl⟩
    refine records_bind tells_findRole ?_
    rintro ⟨r, _⟩ _ ⟨namedRole, -, rfl⟩
    obtain rfl := namedRole.nameOf_outline (·.isAttribute)
    refine adds_user sound named value (fun _ => rfl) (fun v other differ => ?_)
      (Keeping.add_map db.skeleton.roles.nameOf u.roles r)
    cases other <;> first | rfl | exact absurd rfl differ
  | userLevel user level =>
    refine records_bind tells_findUser ?_
    rintro ⟨id, u⟩ _ ⟨named, value, rfl⟩
    refine records_check ⟨_, rfl⟩ (by simp) ?_
    refine records_bind (tells_levelArg sound level) ?_
    rintro l _ rfl
    refine adds_user sound named value (fun _ => rfl) (fun v other differ => ?_) rfl
    cases other <;> first | rfl | exact absurd rfl differ
  | userRange user range =>
    refine records_bind tells_findUser ?_
    rintro ⟨id, u⟩ _ ⟨named, value, rfl⟩
    refine records_check ⟨_, rfl⟩ (by simp) ?_
    refine records_bind (tells_rangeArg sound range) ?_
    rintro r _ rfl
    refine adds_user sound named value (fun _ => rfl) (fun v other differ => ?_) rfl
    cases other <;> first | rfl | exact absurd rfl differ
  | order kind items => exact adds_order kind items
  | classPermissionSet name permissions =>
    refine records_bind (tells_findId fun _ => ()) ?_
    intro id _ named
    refine records_bind (tells_classPerms sound permissions) ?_
    rintro p _ rfl
    refine adds_value .classPermission ((Registry.distinct_outline _).mp sound.classPermissions) named ?_
      (fun _ => rfl) (fun _ => rfl) (fun kept _ => Keeping.add_map db.skeleton.classPerms kept p)
      fun other differ => ?_
    · simp only [skeleton, Registry.outline_modify_unit]
    · cases other <;> first | rfl | exact absurd rfl (differ _)
  | classMapping map permission permissions => exact adds_mapping sound map permission permissions
  | defaults kind classes object =>
    dsimp only
    rw [foldlM_apply]
    refine Board.records_foldlM (fun d same cls _ => ?_) rfl
    rw [← same]
    exact adds_default (same ▸ sound) kind object cls
  | defaultRange classes range =>
    dsimp only
    rw [foldlM_apply]
    refine Board.records_foldlM (fun d same cls _ => ?_) rfl
    rw [← same]
    exact adds_defaultRange (same ▸ sound) range cls
  | categorySet name categories =>
    refine records_bind (tells_findCategory sound) ?_
    intro id _ named
    refine records_bind (tells_categoryExpr sound) ?_
    rintro e _ rfl
    refine adds_value .category ((Registry.distinct_outline _).mp sound.categories) named ?_
      (fun _ => rfl) (fun _ => rfl) (fun _ _ => rfl) fun other differ => ?_
    · simp only [skeleton]
      congr 1
      refine Registry.outline_modify (fun _ => ?_) id
      rfl
    · cases other <;> first | rfl | exact absurd rfl (differ _)
  | sensitivityCategory sensitivity categories =>
    refine records_bind (tells_findSensitivity sound) ?_
    intro id _ named
    refine records_bind (tells_categoryExpr sound) ?_
    rintro e _ rfl
    refine adds_value .sensitivity ((Registry.distinct_outline _).mp sound.sensitivities) named ?_
      (fun _ => rfl) (fun _ => rfl)
      (fun kept _ => Keeping.add_map (Expr.map db.skeleton.categories.nameOf) kept.categories e)
      fun other differ => ?_
    · simp only [skeleton]
      congr 1
      refine Registry.outline_modify (fun _ => ?_) id
      rfl
    · cases other <;> first | rfl | exact absurd rfl (differ _)
  | level name spec =>
    refine records_bind (tells_levelSpec sound spec) ?_
    rintro x _ rfl
    refine records_bind (tells_findId fun _ => ()) ?_
    intro id _ named
    refine adds_value .level ((Registry.distinct_outline _).mp sound.levels) named ?_
      (fun _ => rfl) (fun _ => rfl) (fun _ _ => rfl) fun other differ => ?_
    · simp only [skeleton, Registry.outline_modify_unit]
    · cases other <;> first | rfl | exact absurd rfl (differ _)
  | levelRange name spec =>
    refine records_bind (tells_rangeSpec sound spec) ?_
    rintro x _ rfl
    refine records_bind (tells_findId fun _ => ()) ?_
    intro id _ named
    refine adds_value .range ((Registry.distinct_outline _).mp sound.ranges) named ?_
      (fun _ => rfl) (fun _ => rfl) (fun _ _ => rfl) fun other differ => ?_
    · simp only [skeleton, Registry.outline_modify_unit]
    · cases other <;> first | rfl | exact absurd rfl (differ _)
  | extendedSet name spec =>
    refine records_bind (tells_extendedSpec spec) ?_
    rintro x _ rfl
    refine records_bind (tells_findId fun _ => ()) ?_
    intro id _ named
    refine adds_value .extendedSet ((Registry.distinct_outline _).mp sound.extendedSets) named ?_
      (fun _ => rfl) (fun _ => rfl) (fun _ _ => rfl) fun other differ => ?_
    · simp only [skeleton, Registry.outline_modify_unit]
    · cases other <;> first | rfl | exact absurd rfl (differ _)
  | context name spec =>
    refine records_bind (tells_contextSpec sound spec) ?_
    rintro x _ rfl
    refine records_bind (tells_findId fun _ => ()) ?_
    intro id _ named
    refine adds_value .context ((Registry.distinct_outline _).mp sound.contexts) named ?_
      (fun _ => rfl) (fun _ => rfl) (fun _ _ => rfl) fun other differ => ?_
    · simp only [skeleton, Registry.outline_modify_unit]
    · cases other <;> first | rfl | exact absurd rfl (differ _)
  | sidContext sid context =>
    have found : Tells _ (find db.sids "sid" sid site) _ := tells_find fun _ => ()
    rw [← Registry.look_outline] at found
    refine records_bind found ?_
    rintro ⟨id, kept⟩ _ ⟨named, value, -⟩
    refine records_bind (tells_contextArg sound context) ?_
    rintro c _ rfl
    have distinct := (Registry.distinct_outline _).mp sound.sids
    have told : db.skeleton.said db (.sid sid) = (kept.map db.skeleton.contextArg).toList :=
      distinct.tell_eq named value
    refine records_once ⟨_, rfl⟩ rfl told (by simp) fun fits => ?_
    refine adds_value .sid distinct named ?_ (fun _ => rfl) (fun _ => rfl) (fun v known => ?_) fun other differ => ?_
    · simp only [skeleton, Registry.outline_modify_unit]
    · obtain rfl := Option.some.inj (value.symm.trans known)
      exact fits
    · cases other <;> first | rfl | exact absurd rfl (differ _)
  | handleUnknown value => exact adds_push .handleUnknown (site.location, value)
  | mls value => exact adds_push .mls (site.location, value)
  | capability name => exact adds_push .capabilities (site.location, name)
  | _ => exact adds_rule sound _

/-! ### Conditionals -/

/-- One rule of an arm, after those that are there already. -/
def bodyStep (x : Database × List PlacedRule) (s : Statement) : Except Diagnostic (Database × List PlacedRule) :=
  match s with
  | .plain location clause => do
    match ← x.1.rule? clause s.citation with
    | some rule => return (x.1.markUsed rule, x.2 ++ [⟨location, rule⟩])
    | none => return x
  | .conditional .. => return x

theorem resolveBody_eq (body : List Statement) : db.resolveBody body = body.foldlM bodyStep (db, []) :=
  rfl

/-- The marks that rules make. -/
abbrev marksOf (k : Skeleton) (rules : List PlacedNamedRule) : List SaidNote :=
  rules.flatMap fun r => k.names.marks r.rule

/-- The rules of an arm by name, with the attributes they mark. -/
theorem tells_body (sound : k.Sound) (body : List Statement) :
    ∀ (db : Database) (rules : List PlacedRule), db.skeleton = k →
    Tells (fun (x : Database × List PlacedRule) named => Adds k db (.ok x.1) (.ok (marksOf k named)) ∧
        x.2.map k.placedRule = rules.map k.placedRule ++ named)
      (body.foldlM bodyStep (db, rules)) (k.names.body body) := by
  induction body with
  | nil => exact fun db rules same => ⟨⟨same, rfl⟩, (List.append_nil _).symm⟩
  | cons s rest ih =>
    rintro db rules rfl
    rw [List.foldlM_cons]
    cases s with
    | conditional => exact ih db rules rfl
    | plain location clause =>
      rw [bodyStep, Names.body, bind_assoc]
      refine Tells.bind (tells_rule? sound clause) ?_
      rintro _ _ (@⟨rule, named, h⟩ | _)
      · have marked := adds_marks sound h
        dsimp only
        rw [bind_pure_comp]
        refine Tells.map_right ((ih (db.markUsed rule) (rules ++ [⟨location, rule⟩]) marked.1).mono ?_)
        rintro x more ⟨added, held⟩
        refine ⟨marked.append added, ?_⟩
        rw [held, List.map_append, List.append_assoc]
        obtain ⟨rfl, -⟩ := h
        rfl
      · exact ih db rules rfl

/-- One arm of a conditional, after those that are there already. -/
def blockStep (x : Database × List Block) (b : Branch) : Except Diagnostic (Database × List Block) := do
  let (db, rules) ← resolveBody x.1 b.body
  return (db, x.2 ++ [⟨b.location, b.kind, rules⟩])

/-- The arms of a conditional by name, with the attributes they mark. -/
theorem tells_blocks (sound : k.Sound) (branches : List Branch) :
    ∀ (db : Database) (blocks : List Block), db.skeleton = k →
    Tells (fun (x : Database × List Block) named =>
        Adds k db (.ok x.1) (.ok (named.flatMap fun b => marksOf k b.rules)) ∧
        x.2.map k.block = blocks.map k.block ++ named)
      (branches.foldlM blockStep (db, blocks)) (branches.mapM k.names.block) := by
  induction branches with
  | nil => exact fun db blocks same => ⟨⟨same, rfl⟩, (List.append_nil _).symm⟩
  | cons b rest ih =>
    intro db blocks same
    rw [List.foldlM_cons, List.mapM_cons, blockStep, Names.block, bind_assoc, bind_assoc, resolveBody_eq]
    refine Tells.bind (tells_body sound b.body db [] same) ?_
    rintro ⟨db', rules⟩ named ⟨marked, held⟩
    rw [pure_bind, pure_bind, bind_pure_comp]
    refine Tells.map_right ((ih db' _ marked.1).mono ?_)
    rintro x more ⟨added, held'⟩
    refine ⟨marked.append added, ?_⟩
    rw [held', List.map_append, List.append_assoc]
    have arm : k.block ⟨b.location, b.kind, rules⟩ = ⟨b.location, b.kind, named⟩ :=
      congrArg (NamedBlock.mk b.location b.kind) held
    rw [List.map_singleton, arm]
    rfl

/-- Resolving a statement adds what it says by name. -/
theorem adds_statement (sound : db.skeleton.Sound) (s : Statement) :
    Adds db.skeleton db (db.resolveStatement s) (db.skeleton.names.notes s) := by
  cases s with
  | plain location clause =>
    change Adds _ _ (db.resolveClause clause ⟨clause.keyword, location⟩) _
    exact adds_clause sound clause
  | conditional location condition branches =>
    have booleans : ∀ name, Tells (fun id n => db.skeleton.booleans.nameOf id = n ∧ True)
        (findId db.booleans "boolean" name (Statement.conditional location condition branches).citation)
        ((fun _ => name) <$> need (db.skeleton.names.booleans name)) := by
      intro name
      have found : Tells _
        (find db.booleans "boolean" name (Statement.conditional location condition branches).citation) _ :=
        tells_find id
      rw [Option.map_id_apply] at found
      exact Tells.map found fun _ _ h => ⟨h.1.nameOf, trivial⟩
    refine Board.records_of_tells (Expr.tells_traverse booleans condition) ?_
    rintro c _ ⟨rfl, -⟩
    refine Board.records_of_tells (tells_blocks sound branches db [] rfl) ?_
    rintro ⟨db', blocks⟩ named ⟨marked, held⟩
    have pushed : Adds _ db' _ _ := adds_push .conditionals ⟨location, c, blocks⟩
    rw [marked.1] at pushed
    obtain rfl : blocks.map db.skeleton.block = named := held
    exact marked.append pushed

end Database

end CilPolicy
