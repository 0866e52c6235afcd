import CilPolicy.Proofs.Database.Settled

/-!
# Statements in any order

A list of statements that resolves still resolves when it is permuted. The declarations are
the same by name, and so is what is said of them, in some order. Only a level or range that is
given to a user twice, and differently, is the last one.
-/

namespace CilPolicy

section Ensures

variable {ε α β : Type} {P : β → Prop}

/-- Whatever the computation comes to has the property. -/
def Ensures (P : β → Prop) (x : Except ε β) : Prop :=
  ∀ b, x = .ok b → P b

theorem ensures_ok {b : β} (h : P b) : Ensures P (.ok b : Except ε β) := by
  intro _ run
  cases run
  exact h

theorem ensures_bind {x : Except ε α} {f : α → Except ε β} (next : ∀ a, x = .ok a → Ensures P (f a)) :
    Ensures P (x >>= f) := by
  intro b run
  obtain ⟨a, first, run⟩ := bind_eq_ok.mp run
  exact next a first b run

end Ensures

/-! ### Statements that replace -/

/-- None of the notes replaces another. -/
def Additive (notes : List SaidNote) : Prop :=
  ∀ p ∈ notes, p.1.keeping ≠ .latest

theorem ensures_one {topic : Topic} {fact : topic.Fact} (adds : topic.keeping ≠ .latest) :
    Ensures Additive (.ok [⟨topic, fact⟩] : Except Unit (List SaidNote)) := by
  refine ensures_ok fun p h => ?_
  rw [List.mem_singleton.mp h]
  exact adds

/-- What the clause replaces if it is there already. -/
def Clause.replaces : Clause → Option Topic
  | .userLevel user _ => some (.user user .level)
  | .userRange user _ => some (.user user .range)
  | .categorySet name _ => some (.category name)
  | .level name _ => some (.level name)
  | .levelRange name _ => some (.range name)
  | .context name _ => some (.context name)
  | .extendedSet name _ => some (.extendedSet name)
  | _ => none

/-- What an attribute has for members is gathered, and what roles and users are granted. -/
def Topic.isMembership : Topic → Bool
  | type _ .sets | role _ .sets | user _ .sets | role _ .types | user _ .roles => true
  | _ => false

def Clause.isMembership : Clause → Bool
  | attributeSet .. | roleType .. | userRole .. => true
  | _ => false

/-- The notes tell of no members, and none of them replaces another. -/
def Ordinary (notes : List SaidNote) : Prop :=
  ∀ p ∈ notes, p.1.isMembership = false ∧ p.1.keeping ≠ .latest

theorem Ordinary.additive {notes : List SaidNote} (h : Ordinary notes) : Additive notes :=
  fun p hp => (h p hp).2

theorem ordinary_nil : Ordinary [] :=
  fun _ h => absurd h List.not_mem_nil

theorem ordinary_one {topic : Topic} {fact : topic.Fact} (other : topic.isMembership = false)
    (adds : topic.keeping ≠ .latest) : Ordinary [⟨topic, fact⟩] := by
  intro p h
  rw [List.mem_singleton.mp h]
  exact ⟨other, adds⟩

theorem ensures_ordinary {topic : Topic} {fact : topic.Fact} (other : topic.isMembership = false)
    (adds : topic.keeping ≠ .latest) : Ensures Ordinary (.ok [⟨topic, fact⟩] : Except Unit (List SaidNote)) :=
  ensures_ok (ordinary_one other adds)

theorem Ordinary.append {notes notes' : List SaidNote} (h : Ordinary notes) (h' : Ordinary notes') :
    Ordinary (notes ++ notes') := fun p hp =>
  (List.mem_append.mp hp).elim (h p) (h' p)

theorem ordinary_flatMap {α : Type} {f : α → List SaidNote} {items : List α} (each : ∀ a ∈ items, Ordinary (f a)) :
    Ordinary (items.flatMap f) := by
  intro p hp
  obtain ⟨a, ha, hp⟩ := List.mem_flatMap.mp hp
  exact each a ha p hp

theorem ordinary_allNotes {α : Type} {notesOf : α → Except Unit (List SaidNote)} {items : List α}
    (each : ∀ a, Ensures Ordinary (notesOf a)) : Ensures Ordinary (Board.allNotes notesOf items) := by
  intro notes all p hp
  obtain ⟨a, _, ns, gives, hp⟩ := (Board.mem_allNotes all).mp hp
  exact each a ns gives p hp

namespace Names

variable (n : Names) {location : Location}

theorem ordinary_bounds (parent child : String) (kind : Entity) :
    Ensures Ordinary (n.boundNotes parent child kind) := by
  cases kind <;>
    exact ensures_bind fun _ _ => ensures_bind fun _ _ => ensures_bind fun _ _ =>
      ensures_ordinary rfl (by rintro ⟨⟩)

theorem additive_set (name : String) (members : Expr String) (kind : Entity) :
    Ensures Additive (n.setNotes name members kind) := by
  cases kind <;>
    exact ensures_bind fun _ _ => ensures_bind fun _ _ => ensures_bind fun _ _ => ensures_one (by rintro ⟨⟩)

theorem ordinary_order (kind : OrderKind) (items : List String) :
    Ensures Ordinary (n.orderNotes location kind items) := by
  unfold orderNotes
  split
  · exact ensures_bind fun _ _ => ensures_ordinary rfl (by rintro ⟨⟩)
  · refine ensures_bind fun _ _ => ensures_ok ?_
    split <;> exact ordinary_one rfl (by rintro ⟨⟩)

theorem ordinary_label {σ : Type} {selector : σ} {context : ContextArg String}
    {note : Label σ (ContextArg String) → SaidNote} (other : ∀ label, (note label).1.isMembership = false)
    (adds : ∀ label, (note label).1.keeping ≠ .latest) :
    Ensures Ordinary (n.labelNotes location selector context note) :=
  ensures_bind fun _ _ => ensures_ordinary (other _) (adds _)

theorem ordinary_clauseLabel (clause : Clause) : Ensures Ordinary (n.clauseLabel location clause) := by
  cases clause with
  | fileContext selector context =>
    cases context with
    | none => exact ensures_ordinary rfl (by rintro ⟨⟩)
    | some context => exact ensures_bind fun _ _ => ensures_ordinary rfl (by rintro ⟨⟩)
  | node address mask context =>
    exact ensures_bind fun _ _ => ensures_bind fun _ _ => ensures_bind fun _ _ =>
      n.ordinary_label (fun _ => rfl) fun _ => by rintro ⟨⟩
  | interface name interface packet =>
    exact ensures_bind fun _ _ => ensures_bind fun _ _ => ensures_ordinary rfl (by rintro ⟨⟩)
  | partitionKey subnet keys context =>
    exact ensures_bind fun _ _ => n.ordinary_label (fun _ => rfl) fun _ => by rintro ⟨⟩
  | filesystemUse | genfs | port | endPort | interrupt | ioMemory | ioPort | pciDevice | deviceTree =>
    exact n.ordinary_label (fun _ => rfl) fun _ => by rintro ⟨⟩
  | _ => exact ensures_ok ordinary_nil

theorem ordinary_marks (rule : NamedRule) : Ordinary (n.marks rule) := by
  have one (kind : AccessKind) (type : String) : Ordinary (n.mark kind type) := by
    rw [mark]
    split
    · exact ordinary_nil
    · split <;> exact ordinary_one rfl (by rintro ⟨⟩)
  rw [marks.eq_def]
  split
  · exact (one _ _).append (one _ _)
  · exact (one _ _).append (one _ _)
  · exact ordinary_nil

/-- A clause that replaces nothing and tells of no members. -/
theorem ordinary_clauseNotes {clause : Clause} (none : clause.replaces = none)
    (other : clause.isMembership = false) : Ensures Ordinary (n.clauseNotes location clause) := by
  cases clause with
  | attributeSet | roleType | userRole => cases other
  | userLevel | userRange | categorySet | level | levelRange | context | extendedSet => cases none
  | bounds kind parent child => exact n.ordinary_bounds parent child kind
  | typePermissive type =>
    exact ensures_bind fun _ _ => ensures_bind fun _ _ => ensures_ordinary rfl (by rintro ⟨⟩)
  | order kind items => exact n.ordinary_order kind items
  | classPermissionSet name permissions =>
    exact ensures_bind fun _ _ => ensures_bind fun _ _ => ensures_ordinary rfl (by rintro ⟨⟩)
  | classMapping map permission permissions =>
    exact ensures_bind fun _ _ => ensures_bind fun _ _ => ensures_bind fun _ _ => ensures_bind fun _ _ =>
      ensures_ordinary rfl (by rintro ⟨⟩)
  | defaults | defaultRange =>
    exact ordinary_allNotes fun _ => ensures_bind fun _ _ => ensures_ordinary rfl (by rintro ⟨⟩)
  | sensitivityCategory sensitivity categories =>
    exact ensures_bind fun _ _ => ensures_bind fun _ _ => ensures_ordinary rfl (by rintro ⟨⟩)
  | sidContext sid context =>
    exact ensures_bind fun _ _ => ensures_bind fun _ _ => ensures_ordinary rfl (by rintro ⟨⟩)
  | handleUnknown | mls | capability => exact ensures_ordinary rfl (by rintro ⟨⟩)
  | _ =>
    refine ensures_bind fun rule _ => ?_
    cases rule with
    | some rule => exact ensures_ok ((n.ordinary_marks rule).append (ordinary_one rfl (by rintro ⟨⟩)))
    | none => exact n.ordinary_clauseLabel _

/-- A clause that replaces nothing only adds. -/
theorem additive_clauseNotes {clause : Clause} (none : clause.replaces = none) :
    Ensures Additive (n.clauseNotes location clause) := by
  cases other : clause.isMembership with
  | false => exact fun notes run => (n.ordinary_clauseNotes none other notes run).additive
  | true =>
    cases clause with
    | attributeSet kind name members => exact n.additive_set name members kind
    | roleType | userRole => exact ensures_bind fun _ _ => ensures_bind fun _ _ => ensures_one (by rintro ⟨⟩)
    | _ => cases other

theorem ordinary_conditional (location : Location) (condition : Expr String) (branches : List Branch) :
    Ensures Ordinary (n.notes (.conditional location condition branches)) :=
  ensures_bind fun _ _ => ensures_bind fun _ _ => ensures_ok <|
    (ordinary_flatMap fun _ _ => ordinary_flatMap fun r _ => n.ordinary_marks r.rule).append
      (ordinary_one rfl (by rintro ⟨⟩))

/-- A level that is given to a user. -/
theorem notes_userLevel {user : String} {level : LevelArg String} : Ensures
    (fun notes => ∃ fact, n.levelArg level = .ok fact ∧ notes = [⟨.user user .level, fact⟩])
    (n.notes (.plain location (.userLevel user level))) :=
  ensures_bind fun _ _ => ensures_bind fun _ _ => ensures_bind fun fact given => ensures_ok ⟨fact, given, rfl⟩

theorem notes_userRange {user : String} {range : RangeArg String} : Ensures
    (fun notes => ∃ fact, n.rangeArg range = .ok fact ∧ notes = [⟨.user user .range, fact⟩])
    (n.notes (.plain location (.userRange user range))) :=
  ensures_bind fun _ _ => ensures_bind fun _ _ => ensures_bind fun fact given => ensures_ok ⟨fact, given, rfl⟩

/-- A clause that replaces something adds a note on that only. -/
theorem notes_replaces {clause : Clause} {topic : Topic} (replaces : clause.replaces = some topic)
    (own : ∀ name members, clause = .categorySet name members → n.category name = .ok name) :
    Ensures (fun notes => ∃ fact, notes = [⟨topic, fact⟩]) (n.notes (.plain location clause)) := by
  cases clause with
  | userLevel user level =>
    cases replaces
    exact fun notes run => (n.notes_userLevel notes run).imp fun _ h => h.2
  | userRange user range =>
    cases replaces
    exact fun notes run => (n.notes_userRange notes run).imp fun _ h => h.2
  | categorySet name members =>
    cases replaces
    refine ensures_bind fun name' found => ensures_bind fun fact _ => ensures_ok ?_
    rw [own name members rfl] at found
    cases found
    exact ⟨fact, rfl⟩
  | level | levelRange | context | extendedSet =>
    cases replaces
    exact ensures_bind fun fact _ => ensures_bind fun _ _ => ensures_ok ⟨fact, rfl⟩
  | _ => cases replaces

end Names

/-- What is declared together with what is said on the topic. -/
def Topic.declared : Topic → Option DeclarationNote
  | .category name => some ⟨(.category, name), CategoryKind.set⟩
  | .level name => some ⟨(.level, name), ()⟩
  | .range name => some ⟨(.range, name), ()⟩
  | .context name => some ⟨(.context, name), ()⟩
  | .extendedSet name => some ⟨(.extendedSet, name), ()⟩
  | _ => none

/-- What is replaced is declared together with what is said of it, or it is a user's level or range. -/
theorem Topic.cases_of_latest {topic : Topic} (latest : topic.keeping = .latest) :
    (∃ user, topic = .user user .level) ∨ (∃ user, topic = .user user .range) ∨
      ∃ note, topic.declared = some note := by
  cases topic with
  | user user part =>
    cases part with
    | level => exact Or.inl ⟨user, rfl⟩
    | range => exact Or.inr (Or.inl ⟨user, rfl⟩)
    | _ => cases latest
  | category | level | range | context | extendedSet => exact Or.inr (Or.inr ⟨_, rfl⟩)
  | type name part | role name part | cls name part => cases part <;> cases latest
  | _ => cases latest

namespace Clause

variable {clause : Clause} {user : String}

theorem eq_of_replaces_level (h : clause.replaces = some (.user user .level)) :
    ∃ level, clause = .userLevel user level := by
  cases clause with
  | userLevel user level =>
    cases h
    exact ⟨level, rfl⟩
  | _ => cases h

theorem eq_of_replaces_range (h : clause.replaces = some (.user user .range)) :
    ∃ range, clause = .userRange user range := by
  cases clause with
  | userRange user range =>
    cases h
    exact ⟨range, rfl⟩
  | _ => cases h

end Clause

/-- The user is given two levels, or two ranges, that are not the same. -/
def Contested (n : Names) (ss : List Statement) : Topic → Prop
  | .user user .level => ∃ location level location' level',
    Statement.plain location (.userLevel user level) ∈ ss ∧ .plain location' (.userLevel user level') ∈ ss ∧
      n.levelArg level ≠ n.levelArg level'
  | .user user .range => ∃ location range location' range',
    Statement.plain location (.userRange user range) ∈ ss ∧ .plain location' (.userRange user range') ∈ ss ∧
      n.rangeArg range ≠ n.rangeArg range'
  | _ => False

namespace Database

/-- A clause that replaces a declared thing declares it. -/
theorem clauseDeclares_replaces {clause : Clause} {topic : Topic} {note : DeclarationNote}
    (replaces : clause.replaces = some topic) (declared : topic.declared = some note) :
    clauseDeclares clause = .ok [note] := by
  cases clause with
  | categorySet | level | levelRange | context | extendedSet =>
    cases replaces
    cases declared
    rfl
  | userLevel | userRange =>
    cases replaces
    cases declared
  | _ => cases replaces

theorem declared_once {repeats : Bool} {topic : Topic} {note : DeclarationNote}
    (declared : topic.declared = some note) : note.1.keeping repeats = .one fun _ => false := by
  cases topic with
  | category | level | range | context | extendedSet =>
    cases declared
    rfl
  | _ => cases declared

section Settled

variable {repeats : Bool} {ss ss' : List Statement} {db e : Database} (run : settle repeats ss = .ok e)

include run

/-- No two statements declare what one of them would replace. -/
theorem eq_of_replaces {location location' : Location} {clause clause' : Clause} (h : .plain location clause ∈ ss)
    (h' : .plain location' clause' ∈ ss) {topic : Topic} {note : DeclarationNote}
    (declared : topic.declared = some note) (replaces : clause.replaces = some topic)
    (replaces' : clause'.replaces = some topic) :
    Statement.plain location clause = .plain location' clause' := by
  obtain ⟨-, notes, all, added⟩ := binding_of_settle run
  exact Board.eq_of_note DeclarationTopic.keeping_ne_latest all added (declared_once declared) h h'
    (clauseDeclares_replaces replaces declared) (clauseDeclares_replaces replaces' declared)

/-- A category set is found under its own name. -/
theorem category_of_set {location : Location} {name : String} {members : Expr String}
    (h : .plain location (.categorySet name members) ∈ ss) : e.skeleton.names.category name = .ok name := by
  obtain ⟨-, notes, all, added⟩ := binding_of_settle run
  have noted : (⟨(.category, name), CategoryKind.set⟩ : DeclarationNote) ∈ notes :=
    (Board.mem_allNotes all).mpr ⟨_, h, _, rfl, List.mem_singleton_self _⟩
  have known : CategoryKind.set ∈ (e.declaration .category name).toList :=
    Board.mem_of_addAll added (DeclarationTopic.keeping_ne_latest _) (Or.inl noted)
  obtain ⟨c, look, set⟩ : ∃ c, e.categories.look name = some c ∧ c.kind = .set :=
    Option.map_eq_some_iff.mp (Option.mem_toList.mp known)
  rw [Names.category, names_categories, look, Option.map_some, set]
  rfl

/-- A note that replaces is the only one of its statement. -/
theorem single_of_latest {s : Statement} (h : s ∈ ss) {notes : List SaidNote}
    (gives : e.skeleton.names.notes s = .ok notes) {p : SaidNote} (hp : p ∈ notes) (latest : p.1.keeping = .latest) :
    notes = [p] ∧ ∃ location clause, s = .plain location clause ∧ clause.replaces = some p.1 := by
  cases s with
  | conditional => exact absurd latest (Names.ordinary_conditional _ _ _ _ notes gives p hp).2
  | plain location clause =>
    cases replaces : clause.replaces with
    | none => exact absurd latest (Names.additive_clauseNotes _ replaces notes gives p hp)
    | some topic =>
      have own (name : String) (members : Expr String) (set : clause = .categorySet name members) :
          e.skeleton.names.category name = .ok name := category_of_set run (set ▸ h)
      obtain ⟨fact, rfl⟩ := Names.notes_replaces _ replaces own notes gives
      obtain rfl := List.mem_singleton.mp hp
      exact ⟨rfl, location, clause, rfl, replaces⟩

/-- Two notes on what is not contested do not replace one another, or are the same. -/
theorem compatible_of_settle {s s' : Statement} (h : s ∈ ss) (h' : s' ∈ ss) {notes notes' : List SaidNote}
    (gives : e.skeleton.names.notes s = .ok notes) (gives' : e.skeleton.names.notes s' = .ok notes') {p q : SaidNote}
    (hp : p ∈ notes) (hq : q ∈ notes') : Board.Compatible Topic.keeping (Contested e.skeleton.names ss) p q := by
  intro same latest tight
  obtain ⟨rfl, location, clause, rfl, replaces⟩ := single_of_latest run h gives hp latest
  obtain ⟨rfl, location', clause', rfl, replaces'⟩ := single_of_latest run h' gives' hq (same ▸ latest)
  obtain ⟨topic, f⟩ := p
  obtain ⟨topic', g⟩ := q
  dsimp only at same latest tight replaces replaces'
  subst same
  rcases Topic.cases_of_latest latest with ⟨user, rfl⟩ | ⟨user, rfl⟩ | ⟨note, declared⟩
  · obtain ⟨level, rfl⟩ := Clause.eq_of_replaces_level replaces
    obtain ⟨level', rfl⟩ := Clause.eq_of_replaces_level replaces'
    obtain ⟨fact, given, heq⟩ := Names.notes_userLevel _ _ gives
    obtain ⟨fact', given', heq'⟩ := Names.notes_userLevel _ _ gives'
    cases heq
    cases heq'
    have agree : e.skeleton.names.levelArg level = e.skeleton.names.levelArg level' := by
      by_contra differ
      exact tight ⟨location, level, location', level', h, h', differ⟩
    rw [given, given'] at agree
    cases agree
    rfl
  · obtain ⟨range, rfl⟩ := Clause.eq_of_replaces_range replaces
    obtain ⟨range', rfl⟩ := Clause.eq_of_replaces_range replaces'
    obtain ⟨fact, given, heq⟩ := Names.notes_userRange _ _ gives
    obtain ⟨fact', given', heq'⟩ := Names.notes_userRange _ _ gives'
    cases heq
    cases heq'
    have agree : e.skeleton.names.rangeArg range = e.skeleton.names.rangeArg range' := by
      by_contra differ
      exact tight ⟨location, range, location', range', h, h', differ⟩
    rw [given, given'] at agree
    cases agree
    rfl
  · cases eq_of_replaces run h h' declared replaces replaces'
    rw [gives] at gives'
    cases gives'
    rfl

end Settled

variable {repeats : Bool} {ss ss' : List Statement} {db e : Database}

/-- Once everything is settled, each statement adds its notes to what is said. -/
theorem adds_settled {declarations : (kind : RegistryKind) → String → Option kind.Fact}
    (held : e.Binding declarations) (s : Statement) (same : db.skeleton = e.skeleton) :
    Board.Records Topic.keeping (·.skeleton = e.skeleton) (fun db => db.skeleton.said db) db (db.resolveStatement s)
      (e.skeleton.names.notes s) := by
  have added := adds_statement (same ▸ held.sound) s
  rw [same] at added
  exact added.congr same fun t ht => by rw [ht]

theorem adds_statements {declarations : (kind : RegistryKind) → String → Option kind.Fact}
    (held : e.Binding declarations) (run : ss.foldlM resolveStatement e = .ok db) : db.skeleton = e.skeleton ∧
      Board.allNotes e.skeleton.names.notes ss >>= Board.addAll Topic.keeping (e.skeleton.said e) =
        .ok (db.skeleton.said db) := by
  have added : Board.Records Topic.keeping (·.skeleton = e.skeleton) (fun db => db.skeleton.said db) e
      (ss.foldlM resolveStatement e) (Board.allNotes e.skeleton.names.notes ss) :=
    Board.records_foldlM (fun _ same s _ => adds_settled held s same) rfl
  rw [run] at added
  exact added

/-- Permuted statements make a database with the same names, in which the same is said of all
that is not contested. -/
theorem ofStatements_perm (perm : ss.Perm ss') (run : ofStatements repeats ss = .ok db) :
    ∃ db', ofStatements repeats ss' = .ok db' ∧ db'.skeleton.names = db.skeleton.names ∧
      Board.Agree (Contested db.skeleton.names ss) (db.skeleton.said db) (db'.skeleton.said db') := by
  obtain ⟨e, settled, run⟩ := ofStatements_eq_ok.mp run
  obtain ⟨held, -⟩ := binding_of_settle settled
  obtain ⟨e', settled', held', bound⟩ := settle_perm perm settled
  have names := held.names_eq held' bound
  have slack : Board.LooseIn Topic.keeping (Contested e.skeleton.names ss) := by
    intro topic contested
    cases topic with
    | user user part => cases part <;> first | rfl | exact contested.elim
    | _ => exact contested.elim
  have start : e.skeleton.said e = e'.skeleton.said e' := by
    funext topic
    rw [held.unsaid, held'.unsaid]
  have each' (db : Database) (same : db.skeleton = e'.skeleton) (s : Statement) (_ : s ∈ ss) :
      Board.Records Topic.keeping (·.skeleton = e'.skeleton) (fun db => db.skeleton.said db) db
        (db.resolveStatement s) (e.skeleton.names.notes s) :=
    names ▸ adds_settled held' s same
  obtain ⟨same, db', run', same', agree⟩ := Board.run_perm slack perm
    (fun _ same s _ => adds_settled held s same) each'
    (fun _ h _ h' _ _ gives gives' _ hp _ hq => compatible_of_settle settled h h' gives gives' hp hq)
    rfl rfl start run
  refine ⟨db', ofStatements_eq_ok.mpr ⟨e', settled', run'⟩, ?_, ?_⟩
  · rw [same', same, names]
  · rw [same]
    exact same ▸ agree

/-- Every statement of a list that resolves has its notes. -/
theorem exists_notes (run : ofStatements repeats ss = .ok db) {s : Statement} (h : s ∈ ss) :
    ∃ notes, db.skeleton.names.notes s = .ok notes := by
  obtain ⟨e, settled, run⟩ := ofStatements_eq_ok.mp run
  obtain ⟨same, added⟩ := adds_statements (binding_of_settle settled).1 run
  obtain ⟨notes, all, -⟩ := bind_eq_ok.mp added
  rw [same]
  exact (Board.allNotes_eq_ok.mp all).1 s h

/-- In some order, what a statement replaces is as that statement has it. -/
theorem exists_perm_said (run : ofStatements repeats ss = .ok db) {s : Statement} (h : s ∈ ss) {topic : Topic}
    (latest : topic.keeping = .latest) {fact : topic.Fact} (gives : db.skeleton.names.notes s = .ok [⟨topic, fact⟩]) :
    ∃ ss' db', ss.Perm ss' ∧ ofStatements repeats ss' = .ok db' ∧ db'.skeleton.said db' topic = [fact] := by
  obtain ⟨before, after, rfl⟩ := List.append_of_mem h
  have perm : (before ++ s :: after).Perm (before ++ after ++ [s]) :=
    List.perm_middle.trans (List.perm_append_singleton s _).symm
  obtain ⟨db', run', names, -⟩ := ofStatements_perm perm run
  refine ⟨_, db', perm, run', ?_⟩
  obtain ⟨e, settled, run'⟩ := ofStatements_eq_ok.mp run'
  have held := (binding_of_settle settled).1
  rw [← names, (adds_statements held run').1] at gives
  exact Board.said_last (fun _ same s _ => adds_settled held s same) rfl run' latest gives

/-- In some order, something else is said of what is contested. -/
theorem not_perm_of_contested (run : ofStatements repeats ss = .ok db) {topic : Topic}
    (contested : Contested db.skeleton.names ss topic) :
    ∃ ss' db', ss.Perm ss' ∧ ofStatements repeats ss' = .ok db' ∧
      ¬ (db.skeleton.said db topic).Perm (db'.skeleton.said db' topic) := by
  -- Two statements that differ come last in one order each, so one of the orders has something else.
  have apart {s s' : Statement} (h : s ∈ ss) (h' : s' ∈ ss) (latest : topic.keeping = .latest)
      {fact fact' : topic.Fact} (gives : db.skeleton.names.notes s = .ok [⟨topic, fact⟩])
      (gives' : db.skeleton.names.notes s' = .ok [⟨topic, fact'⟩])
      (differ : fact ≠ fact') : ∃ ss' db', ss.Perm ss' ∧ ofStatements repeats ss' = .ok db' ∧
        ¬ (db.skeleton.said db topic).Perm (db'.skeleton.said db' topic) := by
    obtain ⟨ss₁, db₁, perm₁, run₁, said₁⟩ := exists_perm_said run h latest gives
    obtain ⟨ss₂, db₂, perm₂, run₂, said₂⟩ := exists_perm_said run h' latest gives'
    by_cases same : (db.skeleton.said db topic).Perm (db₁.skeleton.said db₁ topic)
    · refine ⟨ss₂, db₂, perm₂, run₂, fun same' => differ ?_⟩
      rw [said₁] at same
      rw [said₂] at same'
      exact List.singleton_perm_singleton.mp (same.symm.trans same')
    · exact ⟨ss₁, db₁, perm₁, run₁, same⟩
  cases topic with
  | user user part =>
    cases part with
    | level =>
      obtain ⟨location, level, location', level', h, h', differ⟩ := contested
      obtain ⟨notes, gives⟩ := exists_notes run h
      obtain ⟨notes', gives'⟩ := exists_notes run h'
      obtain ⟨fact, given, rfl⟩ := Names.notes_userLevel _ _ gives
      obtain ⟨fact', given', rfl⟩ := Names.notes_userLevel _ _ gives'
      exact apart h h' rfl gives gives' fun same => differ (by rw [given, given', same])
    | range =>
      obtain ⟨location, range, location', range', h, h', differ⟩ := contested
      obtain ⟨notes, gives⟩ := exists_notes run h
      obtain ⟨notes', gives'⟩ := exists_notes run h'
      obtain ⟨fact, given, rfl⟩ := Names.notes_userRange _ _ gives
      obtain ⟨fact', given', rfl⟩ := Names.notes_userRange _ _ gives'
      exact apart h h' rfl gives gives' fun same => differ (by rw [given, given', same])
    | _ => exact contested.elim
  | _ => exact contested.elim

theorem outcome_resolve : (resolve repeats ss).outcome.1 = ofStatements repeats ss := by
  rw [resolve]
  cases h : ofStatements repeats ss <;> rfl

/-- Statements that resolve do so in every order, and declare the same. What is said on a topic
is the same in every order, unless it is a level or range that a user is given twice. -/
theorem resolve_perm_iff (run : (resolve repeats ss).outcome.1 = .ok db) :
    (∀ ss', ss.Perm ss' → ∃ db', (resolve repeats ss').outcome.1 = .ok db' ∧ db'.skeleton.names = db.skeleton.names) ∧
    ∀ topic, (∀ ss' db', ss.Perm ss' → (resolve repeats ss').outcome.1 = .ok db' →
      (db.skeleton.said db topic).Perm (db'.skeleton.said db' topic)) ↔ ¬ Contested db.skeleton.names ss topic := by
  rw [outcome_resolve] at run
  constructor
  · intro ss' perm
    obtain ⟨db', run', names, -⟩ := ofStatements_perm perm run
    exact ⟨db', outcome_resolve.trans run', names⟩
  · intro topic
    constructor
    · intro same contested
      obtain ⟨ss', db', perm, run', differ⟩ := not_perm_of_contested run contested
      exact differ (same ss' db' perm (outcome_resolve.trans run'))
    · intro tight ss' db' perm run'
      rw [outcome_resolve] at run'
      obtain ⟨_, run'', -, agree⟩ := ofStatements_perm perm run
      cases run'.symm.trans run''
      exact agree topic tight

/-- A user with two levels. -/
def twoLevels : List Statement :=
  [.declare (.entity .user) "u", .declare .sensitivity "s0", .declare .sensitivity "s1",
    .userLevel "u" (.given ⟨"s0", none⟩), .userLevel "u" (.given ⟨"s1", none⟩)].map (.plain default)

theorem level_depends_on_order : ∃ db, (resolve false twoLevels).outcome.1 = .ok db ∧
    ¬ ∀ ss' db', twoLevels.Perm ss' → (resolve false ss').outcome.1 = .ok db' →
      (db.skeleton.said db (.user "u" .level)).Perm (db'.skeleton.said db' (.user "u" .level)) := by
  have differ : (resolve false twoLevels).outcome.1.toOption.any (fun db =>
      db.skeleton.names.levelArg (.given ⟨"s0", none⟩) !=
        db.skeleton.names.levelArg (.given ⟨"s1", none⟩)) = true := by
    decide +kernel
  cases run : (resolve false twoLevels).outcome.1 with
  | error e =>
    rw [run] at differ
    cases differ
  | ok db =>
    rw [run, Except.toOption, Option.any_some, bne_iff_ne] at differ
    refine ⟨db, rfl, fun same => ((resolve_perm_iff run).2 (.user "u" .level)).mp same ?_⟩
    exact ⟨default, .given ⟨"s0", none⟩, default, .given ⟨"s1", none⟩, by simp [twoLevels], by simp [twoLevels],
      differ⟩

end Database

end CilPolicy
