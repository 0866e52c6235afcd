import CilPolicy.Proofs.Database.AliasEnds

/-!
# What is settled before statements are resolved

The declarations of a policy are entered, then bound, and then aliases are followed to their
ends. When the statements are permuted these steps go on to succeed, and the declarations are
the same by name.
-/

namespace CilPolicy

namespace Registry

variable {α β κ : Type} {r r' : Registry α} {name : String}

theorem tell_eq_nil {facts : α → List β} (blank : r.All fun v => facts v = []) (name : String) :
    r.tell facts name = [] := by
  rw [tell]
  cases found : r.look name with
  | none => rfl
  | some v =>
    obtain ⟨id, _, value⟩ := Option.bind_eq_some_iff.mp found
    exact blank id v value

/-- A declaration with what it is bound to is known when both are. -/
theorem look_bound {γ : Type} {f : α → κ} {actual : α → Option Id} {s s' : Registry γ}
    (kinds : (r.look name).map f = (r'.look name).map f) (bound : r.bound actual s name = r'.bound actual s' name) :
    (r.look name).map (fun v => (f v, (actual v).map s.nameOf)) =
      (r'.look name).map fun v => (f v, (actual v).map s'.nameOf) := by
  rw [Registry.bound, Registry.bound] at bound
  revert kinds bound
  generalize r.look name = o, r'.look name = o'
  intro kinds bound
  cases o with
  | none =>
    cases o' with
    | none => rfl
    | some => cases kinds
  | some v =>
    cases o' with
    | none => cases kinds
    | some v' => exact congrArg some (Prod.ext (Option.some.inj kinds) bound)

section Ends

variable {isAlias : α → Bool} {actual : α → Option Id} {put : Id → α → α} {ends ends' : List (Id × Id)}

/-- After the ends are entered, declarations are bound to ones that are there. -/
theorem inside_enterEnds (sets : ∀ a v, actual (put a v) = some a)
    (inside : r.All fun v => ∀ a ∈ actual v, a < r.size)
    (run : Database.aliasEnds r isAlias actual = .ok ends) :
    (Database.enterEnds put ends r).All fun v => ∀ a ∈ actual v, a < (Database.enterEnds put ends r).size := by
  intro id v value a bound
  rw [size_enterEnds]
  obtain ⟨v₀, value₀, ⟨rfl, -⟩ | ⟨stop, found, stands⟩⟩ := Database.value?_enterEnds sets value
  · exact inside id v value₀ a bound
  · obtain ⟨w, there, -⟩ := (Database.aliasEnds_ok inside run).2 id stop found
    obtain rfl := Option.some.inj (stands.symm.trans bound)
    exact lt_of_value? there

/-- After their ends are entered the registries are still alike. -/
theorem Alike.enterEnds (alike : Alike isAlias actual r r') (sets : ∀ a v, actual (put a v) = some a)
    (keeps : ∀ a v, isAlias (put a v) = isAlias v) (run : Database.aliasEnds r isAlias actual = .ok ends) :
    ∃ ends', Database.aliasEnds r' isAlias actual = .ok ends' ∧
      Alike isAlias actual (Database.enterEnds put ends r) (Database.enterEnds put ends' r') := by
  obtain ⟨ends', run', same⟩ := alike.ends run
  refine ⟨ends', run', ?_⟩
  exact {
    distinct := alike.distinct.enterEnds
    distinct' := alike.distinct'.enterEnds
    inside := inside_enterEnds sets alike.inside run
    inside' := inside_enterEnds sets alike.inside' run'
    kind name := by rw [look_enterEnds keeps, look_enterEnds keeps, alike.kind]
    bound name := alike.bound_enterEnds sets run run' same name }

end Ends

end Registry

namespace Database

variable {declarations : (kind : RegistryKind) → String → Option kind.Fact} {db db' e : Database}

/-! ### New declarations -/

theorem Bare.unsaid (bare : db.Bare) (k : Skeleton) (topic : Topic) : k.said db topic = [] := by
  cases topic with
  | type name part =>
    refine Registry.tell_eq_nil (fun id t value => ?_) name
    rw [bare.new .type id t value]
    cases part <;> rfl
  | role name part =>
    refine Registry.tell_eq_nil (fun id r value => ?_) name
    rw [bare.new .role id r value]
    cases part <;> rfl
  | user name part =>
    refine Registry.tell_eq_nil (fun id u value => ?_) name
    rw [bare.new .user id u value]
    cases part <;> rfl
  | cls name part =>
    refine Registry.tell_eq_nil (fun id c value => ?_) name
    obtain ⟨new, -, blank⟩ := bare.new .cls id c value
    cases part with
    | mapping permission =>
      refine Registry.tell_eq_nil (fun id perms value => ?_) permission
      rw [blank id perms value]
      rfl
    | default kind =>
      rw [new]
      cases kind <;> rfl
    | defaultRange =>
      rw [new]
      rfl
  | sensitivity name =>
    refine Registry.tell_eq_nil (fun id s value => ?_) name
    rw [bare.new .sensitivity id s value]
    rfl
  | category name =>
    refine Registry.tell_eq_nil (fun id c value => ?_) name
    rw [bare.new .category id c value]
    rfl
  | classPermission name =>
    exact Registry.tell_eq_nil (fun id v value => congrArg _ (bare.new .classPermission id v value)) name
  | sid name =>
    refine Registry.tell_eq_nil (fun id v value => ?_) name
    rw [bare.new .sid id v value]
    rfl
  | level name =>
    refine Registry.tell_eq_nil (fun id v value => ?_) name
    rw [bare.new .level id v value]
    rfl
  | range name =>
    refine Registry.tell_eq_nil (fun id v value => ?_) name
    rw [bare.new .range id v value]
    rfl
  | context name =>
    refine Registry.tell_eq_nil (fun id v value => ?_) name
    rw [bare.new .context id v value]
    rfl
  | extendedSet name =>
    refine Registry.tell_eq_nil (fun id v value => ?_) name
    rw [bare.new .extendedSet id v value]
    rfl
  | pile pile => exact congrArg (List.map _) (bare.piles pile)

theorem Bare.sound (bare : db.Bare) : db.skeleton.Sound where
  types := (Registry.distinct_outline _).mpr (bare.distinct .type)
  roles := (Registry.distinct_outline _).mpr (bare.distinct .role)
  users := (Registry.distinct_outline _).mpr (bare.distinct .user)
  sensitivities := (Registry.distinct_outline _).mpr (bare.distinct .sensitivity)
  categories := (Registry.distinct_outline _).mpr (bare.distinct .category)
  commons := bare.distinct .common
  classes := (Registry.distinct_outline _).mpr (bare.distinct .cls)
  permissions := (Registry.all_outline _).mpr fun id c value =>
    (Registry.distinct_outline _).mpr (bare.new .cls id c value).2.1
  classPermissions := (Registry.distinct_outline _).mpr (bare.distinct .classPermission)
  sids := (Registry.distinct_outline _).mpr (bare.distinct .sid)
  levels := (Registry.distinct_outline _).mpr (bare.distinct .level)
  ranges := (Registry.distinct_outline _).mpr (bare.distinct .range)
  contexts := (Registry.distinct_outline _).mpr (bare.distinct .context)
  extendedSets := (Registry.distinct_outline _).mpr (bare.distinct .extendedSet)
  typeActual := (Registry.all_outline _).mpr fun id t value a bound => by
    rw [bare.new .type id t value] at bound
    cases bound
  sensitivityActual := (Registry.all_outline _).mpr fun id s value a bound => by
    rw [bare.new .sensitivity id s value] at bound
    cases bound
  categoryActual := (Registry.all_outline _).mpr fun id c value a bound => by
    rw [bare.new .category id c value] at bound
    cases bound
  common := (Registry.all_outline _).mpr fun id c value a bound => by
    rw [(bare.new .cls id c value).1] at bound
    cases bound

theorem Bare.binding (bare : db.Bare) : db.Binding db.declaration :=
  ⟨bare.unsaid, bare.sound, rfl⟩

theorem Bare.unbound (bare : db.Bare) : db.bindings = fun _ => [] := by
  have free {α : Type} {r : Registry α} {actual : α → Option Id} {names : Id → String}
      (unbound : r.All fun v => actual v = none) (name : String) :
      (((r.look name).bind actual).map names).toList = [] := by
    cases found : r.look name with
    | none => rfl
    | some v =>
      obtain ⟨id, _, value⟩ := Option.bind_eq_some_iff.mp found
      rw [Option.bind_some, unbound id v value]
      rfl
  funext ⟨kind, name⟩
  cases kind with
  | type => exact free (fun id t value => by rw [bare.new .type id t value]) name
  | sensitivity => exact free (fun id s value => by rw [bare.new .sensitivity id s value]) name
  | category => exact free (fun id c value => by rw [bare.new .category id c value]) name
  | cls => exact free (fun id c value => by rw [(bare.new .cls id c value).1]) name

/-! ### Names -/

/-- Declarations and bindings are all that the names are made of. -/
theorem Binding.names_eq (held : db.Binding declarations) (held' : db'.Binding declarations)
    (same : db.binding = db'.binding) : db.skeleton.names = db'.skeleton.names := by
  have declared (kind : RegistryKind) (name : String) : db.declaration kind name = db'.declaration kind name := by
    rw [held.declarations, held'.declarations]
  have bound (kind : BindingKind) (name : String) : db.binding name kind = db'.binding name kind := by rw [same]
  have plain {α : Type} {f : α → α} (fixed : ∀ v, f v = v) {o o' : Option α} (h : o.map f = o'.map f) : o = o' := by
    rwa [funext fixed, Option.map_id_fun', id, id] at h
  ext1 <;> funext name
  case types =>
    rw [names_types, names_types]
    exact Registry.look_bound (declared .type name) (bound .type name)
  case sensitivities =>
    rw [names_sensitivities, names_sensitivities]
    exact Registry.look_bound (declared .sensitivity name) (bound .sensitivity name)
  case categories =>
    rw [names_categories, names_categories]
    exact Registry.look_bound (declared .category name) (bound .category name)
  case classes =>
    rw [names_classes, names_classes]
    have found := congrArg (Option.map fun c => (⟨c.1.1, c.1.2, c.2⟩ : ClassNames))
      (Registry.look_bound (declared .cls name) (bound .cls name))
    rw [Option.map_map, Option.map_map] at found
    exact found
  case roles => exact (names_roles ..).trans ((declared .role name).trans (names_roles ..).symm)
  case users => exact (names_users ..).trans ((declared .user name).trans (names_users ..).symm)
  case commons => exact declared .common name
  case booleans => exact plain (fun _ => by rfl) (declared .boolean name)
  case addresses => exact plain (fun _ => by rfl) (declared .address name)
  case classPermissions =>
    exact (Registry.look_outline ..).trans ((declared .classPermission name).trans (Registry.look_outline ..).symm)
  case sids => exact (Registry.look_outline ..).trans ((declared .sid name).trans (Registry.look_outline ..).symm)
  case levels => exact (Registry.look_outline ..).trans ((declared .level name).trans (Registry.look_outline ..).symm)
  case ranges => exact (Registry.look_outline ..).trans ((declared .range name).trans (Registry.look_outline ..).symm)
  case contexts =>
    exact (Registry.look_outline ..).trans ((declared .context name).trans (Registry.look_outline ..).symm)
  case extendedSets =>
    exact (Registry.look_outline ..).trans ((declared .extendedSet name).trans (Registry.look_outline ..).symm)

/-! ### Aliases that are followed -/

/-- The database in which aliases stand for their ends. -/
def withEnds (db : Database) (types sensitivities categories : List (Id × Id)) : Database :=
  { db with
    types := enterEnds TypeInfo.standFor types db.types
    sensitivities := enterEnds SensitivityInfo.standFor sensitivities db.sensitivities
    categories := enterEnds CategoryInfo.standFor categories db.categories }

theorem followAliases_eq_ok : db.followAliases = .ok e ↔ ∃ types sensitivities categories,
    aliasEnds db.types (·.isAlias) (·.actual) = .ok types ∧
    aliasEnds db.sensitivities (·.isAlias) (·.actual) = .ok sensitivities ∧
    aliasEnds db.categories (·.kind == .aliasName) (·.actual) = .ok categories ∧
    e = db.withEnds types sensitivities categories := by
  constructor
  · intro run
    obtain ⟨types, htypes, run⟩ := bind_eq_ok.mp run
    obtain ⟨sensitivities, hsensitivities, run⟩ := bind_eq_ok.mp run
    obtain ⟨categories, hcategories, run⟩ := bind_eq_ok.mp run
    cases run
    exact ⟨types, sensitivities, categories, htypes, hsensitivities, hcategories, rfl⟩
  · rintro ⟨types, sensitivities, categories, htypes, hsensitivities, hcategories, rfl⟩
    exact bind_eq_ok.mpr ⟨types, htypes, bind_eq_ok.mpr ⟨sensitivities, hsensitivities,
      bind_eq_ok.mpr ⟨categories, hcategories, rfl⟩⟩⟩

section Follow

variable (held : db.Binding declarations)

include held

/-- The ends of aliases are bindings. -/
theorem Binding.followAliases (run : db.followAliases = .ok e) : e.Binding declarations := by
  obtain ⟨types, sensitivities, categories, htypes, hsensitivities, hcategories, rfl⟩ := followAliases_eq_ok.mp run
  refine ⟨fun k topic => ?_, ?_, ?_⟩
  · rw [← held.unsaid k topic]
    cases topic with
    | type name part =>
      exact congrArg (Option.getD · []) (Registry.look_enterEnds (fun _ _ => by cases part <;> rfl) name)
    | sensitivity name => exact congrArg (Option.getD · []) (Registry.look_enterEnds (fun _ _ => by rfl) name)
    | category name => exact congrArg (Option.getD · []) (Registry.look_enterEnds (fun _ _ => by rfl) name)
    | _ => rfl
  · have inside : Registry.All (enterEnds TypeInfo.standFor types db.types) _ :=
      Registry.inside_enterEnds (fun _ _ => by rfl) held.inside_types htypes
    have inside' : Registry.All (enterEnds SensitivityInfo.standFor sensitivities db.sensitivities) _ :=
      Registry.inside_enterEnds (fun _ _ => by rfl) held.inside_sensitivities hsensitivities
    have inside'' : Registry.All (enterEnds CategoryInfo.standFor categories db.categories) _ :=
      Registry.inside_enterEnds (fun _ _ => by rfl) held.inside_categories hcategories
    rw [← Registry.size_outline TypeInfo.link] at inside
    rw [← Registry.size_outline SensitivityInfo.link] at inside'
    rw [← Registry.size_outline CategoryInfo.link] at inside''
    exact { held.sound with
      types := (Registry.distinct_outline _).mpr ((Registry.distinct_outline _).mp held.sound.types).enterEnds
      sensitivities := (Registry.distinct_outline _).mpr
        ((Registry.distinct_outline _).mp held.sound.sensitivities).enterEnds
      categories := (Registry.distinct_outline _).mpr
        ((Registry.distinct_outline _).mp held.sound.categories).enterEnds
      typeActual := (Registry.all_outline _).mpr inside
      sensitivityActual := (Registry.all_outline _).mpr inside'
      categoryActual := (Registry.all_outline _).mpr inside'' }
  · rw [← held.declarations]
    funext kind name
    cases kind with
    | type => exact Registry.look_enterEnds (fun _ _ => by rfl) name
    | sensitivity => exact Registry.look_enterEnds (fun _ _ => by rfl) name
    | category => exact Registry.look_enterEnds (fun _ _ => by rfl) name
    | _ => rfl

/-- Aliases that are bound to the same names come to stand for the same names. -/
theorem Binding.followAliases_alike (held' : db'.Binding declarations) (same : db.binding = db'.binding)
    (run : db.followAliases = .ok e) :
    ∃ e', db'.followAliases = .ok e' ∧ e'.Binding declarations ∧ e.binding = e'.binding := by
  obtain ⟨types, sensitivities, categories, htypes, hsensitivities, hcategories, rfl⟩ := followAliases_eq_ok.mp run
  have declared (kind : RegistryKind) (name : String) : db.declaration kind name = db'.declaration kind name := by
    rw [held.declarations, held'.declarations]
  have bound (kind : BindingKind) (name : String) : db.binding name kind = db'.binding name kind := by rw [same]
  have alikeTypes : Registry.Alike (·.isAlias) (·.actual) db.types db'.types := {
    distinct := (Registry.distinct_outline _).mp held.sound.types
    distinct' := (Registry.distinct_outline _).mp held'.sound.types
    inside := held.inside_types
    inside' := held'.inside_types
    kind name := by
      have kinds := congrArg (Option.map (· == TypeKind.aliasName)) (declared .type name)
      rw [declaration, declaration, Option.map_map, Option.map_map] at kinds
      exact kinds
    bound := bound .type }
  have alikeSensitivities : Registry.Alike (·.isAlias) (·.actual) db.sensitivities db'.sensitivities := {
    distinct := (Registry.distinct_outline _).mp held.sound.sensitivities
    distinct' := (Registry.distinct_outline _).mp held'.sound.sensitivities
    inside := held.inside_sensitivities
    inside' := held'.inside_sensitivities
    kind := declared .sensitivity
    bound := bound .sensitivity }
  have alikeCategories : Registry.Alike (·.kind == .aliasName) (·.actual) db.categories db'.categories := {
    distinct := (Registry.distinct_outline _).mp held.sound.categories
    distinct' := (Registry.distinct_outline _).mp held'.sound.categories
    inside := held.inside_categories
    inside' := held'.inside_categories
    kind name := by
      have kinds := congrArg (Option.map (· == CategoryKind.aliasName)) (declared .category name)
      rw [declaration, declaration, Option.map_map, Option.map_map] at kinds
      exact kinds
    bound := bound .category }
  obtain ⟨types', htypes', alikeTypes⟩ : ∃ types', _ ∧ Registry.Alike _ _ (enterEnds TypeInfo.standFor types db.types)
      (enterEnds TypeInfo.standFor types' db'.types) :=
    alikeTypes.enterEnds (fun _ _ => by rfl) (fun _ _ => by rfl) htypes
  obtain ⟨sensitivities', hsensitivities', alikeSensitivities⟩ : ∃ sensitivities', _ ∧ Registry.Alike _ _
      (enterEnds SensitivityInfo.standFor sensitivities db.sensitivities)
      (enterEnds SensitivityInfo.standFor sensitivities' db'.sensitivities) :=
    alikeSensitivities.enterEnds (fun _ _ => by rfl) (fun _ _ => by rfl) hsensitivities
  obtain ⟨categories', hcategories', alikeCategories⟩ : ∃ categories', _ ∧ Registry.Alike _ _
      (enterEnds CategoryInfo.standFor categories db.categories)
      (enterEnds CategoryInfo.standFor categories' db'.categories) :=
    alikeCategories.enterEnds (fun _ _ => by rfl) (fun _ _ => by rfl) hcategories
  have run' : db'.followAliases = .ok (db'.withEnds types' sensitivities' categories') :=
    followAliases_eq_ok.mpr ⟨types', sensitivities', categories', htypes', hsensitivities', hcategories', rfl⟩
  refine ⟨_, run', held'.followAliases run', ?_⟩
  funext name kind
  cases kind with
  | type => exact alikeTypes.bound name
  | sensitivity => exact alikeSensitivities.bound name
  | category => exact alikeCategories.bound name
  | cls => exact bound .cls name

end Follow

/-! ### The statements settle their declarations -/

section Settle

variable {repeats : Bool} {ss ss' : List Statement}

/-- The database before statements are resolved. -/
def settle (repeats : Bool) (ss : List Statement) : Except Diagnostic Database := do
  let db ← ss.foldlM (declare repeats) {}
  let db ← ss.foldlM bind db
  db.followAliases

theorem settle_eq_ok : settle repeats ss = .ok e ↔ ∃ declared bound, ss.foldlM (declare repeats) {} = .ok declared ∧
    ss.foldlM bind declared = .ok bound ∧ bound.followAliases = .ok e := by
  simp only [settle, bind_eq_ok, exists_and_left]

theorem ofStatements_eq_ok : ofStatements repeats ss = .ok db ↔
    ∃ e, settle repeats ss = .ok e ∧ ss.foldlM resolveStatement e = .ok db := by
  simp only [ofStatements, settle, bind_eq_ok]
  constructor
  · rintro ⟨declared, first, bound, second, e, third, run⟩
    exact ⟨e, ⟨declared, first, bound, second, third⟩, run⟩
  · rintro ⟨e, ⟨declared, first, bound, second, third⟩, run⟩
    exact ⟨declared, first, bound, second, e, third, run⟩

theorem binding_self (held : db.Binding declarations) : db.Binding db.declaration :=
  held.declarations.symm ▸ held

/-- The declarations that are settled are those of the statements, and nothing is said of them. -/
theorem binding_of_settle (run : settle repeats ss = .ok e) : e.Binding e.declaration ∧
    ∃ notes, Board.allNotes declares ss = .ok notes ∧
      Board.addAll (DeclarationTopic.keeping repeats) (declared {}) notes = .ok e.declared := by
  obtain ⟨d, b, first, second, third⟩ := settle_eq_ok.mp run
  have entered : Enters repeats {} (ss.foldlM (declare repeats) {}) (Board.allNotes declares ss) :=
    Board.records_foldlM (fun _ bare s _ => enters_declare bare s) bare_empty
  rw [first] at entered
  obtain ⟨bare, added⟩ := entered
  obtain ⟨notes, hnotes, added⟩ := bind_eq_ok.mp added
  have held : Binds d.declaration d (ss.foldlM bind d) (Board.allNotes (binds d.declaration) ss) :=
    Board.records_foldlM (fun _ held s _ => binds_bind held s) bare.binding
  rw [second] at held
  have followed := held.1.followAliases third
  refine ⟨binding_self followed, notes, hnotes, added.trans (congrArg Except.ok ?_)⟩
  funext topic
  exact congrArg Option.toList (congrFun (congrFun followed.declarations.symm topic.1) topic.2)

/-- Permuted statements settle the same declarations. -/
theorem settle_perm (perm : ss.Perm ss') (run : settle repeats ss = .ok e) :
    ∃ e', settle repeats ss' = .ok e' ∧ e'.Binding e.declaration ∧ e.binding = e'.binding := by
  obtain ⟨d, b, first, second, third⟩ := settle_eq_ok.mp run
  obtain ⟨bare, d', first', bare', agree⟩ := Board.run_perm Board.none_loose perm
    (fun _ bare s _ => enters_declare bare s) (fun _ bare s _ => enters_declare bare s)
    (fun _ _ _ _ _ _ _ _ _ _ _ _ _ latest => absurd latest (DeclarationTopic.keeping_ne_latest _))
    bare_empty bare_empty rfl first
  have declared : d.declaration = d'.declaration := by
    funext kind name
    exact agree.eq (k := (kind, name)) not_false rfl rfl
  obtain ⟨held, b', second', held', agree⟩ := Board.run_perm Board.none_loose perm
    (fun _ held s _ => binds_bind held s) (fun _ held s _ => binds_bind held s)
    (fun _ _ _ _ _ _ _ _ _ _ _ _ _ latest => absurd latest (BindingTopic.keeping_ne_latest _))
    bare.binding (declared ▸ bare'.binding) (bare.unbound.trans bare'.unbound.symm) second
  have bound : b.binding = b'.binding := by
    funext name kind
    exact agree.eq (k := (kind, name)) not_false rfl rfl
  obtain ⟨e', third', followed', same⟩ := held.followAliases_alike held' bound third
  refine ⟨e', settle_eq_ok.mpr ⟨d', b', first', second', third'⟩, ?_, same⟩
  rw [(held.followAliases third).declarations]
  exact followed'

end Settle

end Database

end CilPolicy
