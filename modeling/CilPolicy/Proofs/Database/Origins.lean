import CilPolicy.Proofs.Database.Closure
import CilPolicy.Proofs.Database.Permutation
import CilPolicy.Proofs.Statement.Clauses

/-!
# Where names and category expressions come from

Every name of a database is that of a declaration in the text, but for the role of objects, which is
built in. So a database whose text has no qualified names has none either.

A category expression is one of a text in which every name is looked up. Its leaves are categories
and category sets, and its ranges go from one category itself to another. The expression of every
category set is such an expression, namely that of the statement which declares the set.
-/

namespace CilPolicy

/-! ### Names -/

theorem Registry.names_eq_of_outline {α β : Type} {f : α → β} {r r' : Registry α}
    (same : r.outline f = r'.outline f) : r.names = r'.names := by
  rw [← names_outline f, same, names_outline]

namespace Database

section Names

variable {db db' : Database} {repeats qualified : Bool} {ss : List Statement} {kind : RegistryKind} {name : String}

/-- What a clause declares bears a name that the clause gives. -/
theorem newName_of_note {clause : Clause} {notes : List DeclarationNote} (h : clauseDeclares clause = .ok notes)
    {note : DeclarationNote} (noted : note ∈ notes) : note.1.2 ∈ clause.newNames := by
  cases clause with
  | permissions owner name permissions =>
    cases owner
    all_goals
      obtain ⟨_, _, h⟩ := bind_eq_ok.mp h
      cases h
      cases List.mem_singleton.mp noted
      exact List.mem_singleton.mpr rfl
  | declare what name =>
    cases h
    rw [List.mem_singleton.mp noted]
    cases what with
    | entity kind | attr kind | aliasName kind => cases kind <;> exact List.mem_singleton.mpr rfl
    | _ => exact List.mem_singleton.mpr rfl
  | categorySet | level | levelRange | context | extendedSet | address | boolean =>
    cases h
    cases List.mem_singleton.mp noted
    exact List.mem_singleton.mpr rfl
  | _ =>
    cases h
    cases noted

theorem names_eq_of_skeleton (same : db.skeleton = db'.skeleton) :
    (db.registry kind).names = (db'.registry kind).names := by
  obtain ⟨types, roles, users, sensitivities, categories, commons, classes, classPermissions, booleans, sids, levels,
    ranges, contexts, addresses, extendedSets⟩ := Skeleton.mk.inj same
  cases kind with
  | common => exact congrArg Registry.names commons
  | boolean => exact congrArg Registry.names booleans
  | address => exact congrArg Registry.names addresses
  | _ => exact Registry.names_eq_of_outline (by assumption)

theorem mem_names_iff_declared : name ∈ (db.registry kind).names ↔ ∃ fact, fact ∈ db.declared (kind, name) := by
  rw [Registry.mem_names_iff, declared, declaration, Option.isSome_iff_exists]
  simp

/-- A name of a database is declared by a statement, or it is that of the built-in role. -/
theorem exists_newName (run : ofStatements repeats ss = .ok db) (h : name ∈ (db.registry kind).names) :
    name = objectRole ∨ ∃ location clause, .plain location clause ∈ ss ∧ name ∈ clause.newNames := by
  obtain ⟨settled, before, run⟩ := ofStatements_eq_ok.mp run
  obtain ⟨held, notes, gathered, added⟩ := binding_of_settle before
  rw [names_eq_of_skeleton (adds_statements held run).1] at h
  obtain ⟨fact, hfact⟩ := mem_names_iff_declared.mp h
  rcases Board.mem_or_noted added hfact with old | noted
  · refine .inl ?_
    have builtin := mem_names_iff_declared.mpr ⟨fact, old⟩
    cases kind with
    | role => exact List.mem_singleton.mp builtin
    | _ => cases builtin
  · obtain ⟨s, hs, ns, gives, noted⟩ := (Board.mem_allNotes gathered).mp noted
    obtain ⟨_, _, gives⟩ := bind_eq_ok.mp gives
    cases s with
    | plain location clause => exact .inr ⟨location, clause, hs, newName_of_note gives noted⟩
    | conditional =>
      cases gives
      cases noted

/-- Every name of a database may be declared. -/
theorem declarable {tree : ParseTree} (built : tree.statements qualified = .ok ss)
    (run : ofStatements repeats ss = .ok db) (h : name ∈ (db.registry kind).names) : Declarable qualified name := by
  rcases exists_newName run h with rfl | ⟨location, clause, hs, given⟩
  · exact ⟨.role, by cases qualified <;> decide⟩
  · exact tree.declarable built hs name given

end Names

end Database

/-! ### Category expressions -/

namespace Expr

variable {α β : Type} {f : α → β}

mutual

/-- An expression is known by what its items are called, where they are called differently. -/
theorem eq_of_map_eq : (e e' : Expr α) → (∀ a ∈ e.leaves, ∀ b ∈ e'.leaves, f a = f b → a = b) →
    e.map f = e'.map f → e = e'
  | item a, item b, apart, h => by
    rw [apart a (List.mem_singleton.mpr rfl) b (List.mem_singleton.mpr rfl) (Expr.item.inj h)]
  | list es, list es', apart, h => by
    rw [eq_of_mapAll_eq es es' apart (Expr.list.inj h)]
  | apply op es, apply op' es', apart, h => by
    obtain ⟨rfl, same⟩ := Expr.apply.inj h
    rw [eq_of_mapAll_eq es es' apart same]
  | item _, list _, _, h | item _, apply _ _, _, h | list _, item _, _, h | list _, apply _ _, _, h
  | apply _ _, item _, _, h | apply _ _, list _, _, h => by cases h

theorem eq_of_mapAll_eq : (es es' : List (Expr α)) →
    (∀ a ∈ leavesAll es, ∀ b ∈ leavesAll es', f a = f b → a = b) → mapAll f es = mapAll f es' → es = es'
  | [], [], _, _ => rfl
  | e :: es, e' :: es', apart, h => by
    obtain ⟨first, rest⟩ := List.cons.inj h
    rw [eq_of_map_eq e e' (fun a ha b hb => apart a (List.mem_append_left _ ha) b (List.mem_append_left _ hb)) first,
      eq_of_mapAll_eq es es' (fun a ha b hb => apart a (List.mem_append_right _ ha) b (List.mem_append_right _ hb))
        rest]
  | [], _ :: _, _, h | _ :: _, [], _, h => by cases h

end

end Expr

/-- The leaves are categories and category sets, and ranges go from category to category. -/
structure Signature.FitsCategories (s : Signature) (e : Expr Id) : Prop where
  within : s.CategoriesWithin e
  ranges : e.RangesBetween s.IsPlainCategory

namespace Database

open Resolve

variable {db : Database} {e : Expr Id}

/-- An expression of a text, with categories and category sets for its names. -/
def CategoryExpr (db : Database) (e : Expr Id) : Prop :=
  ∃ n site w citation, Build.expr .category n site = .ok w ∧ db.categoryExpr w citation = .ok e

/-! ### What is looked up -/

theorem isPlainCategory_iff {id : Id} : db.signature.IsPlainCategory id ↔
    ∃ c, db.categories.value? id = some c ∧ c.kind = .category := by
  constructor
  · rintro ⟨actual, found⟩
    obtain ⟨c, hc, link⟩ := Option.map_eq_some_iff.mp found
    exact ⟨c, hc, (Prod.mk.inj link).1⟩
  · rintro ⟨c, hc, kind⟩
    exact ⟨c.actual, (congrArg (Option.map _) hc).trans (by rw [Option.map_some, CategoryInfo.link, kind])⟩

theorem isPlainCategory_of_not_set {id : Id} (category : db.signature.IsCategory id)
    (plain : db.categories.test id (·.kind == .set) = false) : db.signature.IsPlainCategory id := by
  obtain ⟨_, _, found, noAlias⟩ := category
  obtain ⟨c, hc, link⟩ := Option.map_eq_some_iff.mp found
  obtain ⟨rfl, _⟩ := Prod.mk.inj link
  refine isPlainCategory_iff.mpr ⟨c, hc, ?_⟩
  cases kind : c.kind with
  | category => rfl
  | aliasName => exact absurd kind noAlias
  | set =>
    rw [Registry.test_iff.mpr ⟨c, hc, by simp [kind]⟩] at plain
    cases plain

mutual

theorem rangesBetween_of_fit : (e : Expr Id) → db.signature.CategoriesWithin e → db.rangesFit e = true →
    (e.RangesBetween fun _ => True) → e.RangesBetween db.signature.IsPlainCategory
  | .item id, _, _, _ => Expr.rangesBetween_item id
  | .list members, within, fits, between =>
    Expr.rangesBetween_list.mpr
      (rangesBetween_of_fitAll members within fits (Expr.rangesBetween_list.mp between))
  | .apply op operands, within, fits, between => by
    by_cases range : op = .range
    · subst range
      obtain ⟨low, high, rfl, _⟩ := between _ .self
      have items : db.isRangeSet (.item low) = false ∧ db.isRangeSet (.item high) = false := by
        simpa [rangesFit] using fits
      exact Expr.rangesBetween_range.mpr
        ⟨isPlainCategory_of_not_set (within low (by simp [Expr.leaves, Expr.leavesAll])) items.1,
          isPlainCategory_of_not_set (within high (by simp [Expr.leaves, Expr.leavesAll])) items.2⟩
    · rw [Expr.rangesBetween_apply range] at between ⊢
      rw [rangesFit] at fits
      · exact rangesBetween_of_fitAll operands within fits between
      · exact range

theorem rangesBetween_of_fitAll : (es : List (Expr Id)) →
    (∀ id ∈ Expr.leavesAll es, db.signature.IsCategory id) → db.rangesFitAll es = true →
    (∀ e ∈ es, e.RangesBetween fun _ => True) → ∀ e ∈ es, e.RangesBetween db.signature.IsPlainCategory
  | [], _, _, _ => by simp
  | e :: es, within, fits, between => by
    rw [rangesFitAll, Bool.and_eq_true] at fits
    rw [List.forall_mem_cons] at between ⊢
    exact ⟨rangesBetween_of_fit e (fun id hid => within id (List.mem_append_left _ hid)) fits.1 between.1,
      rangesBetween_of_fitAll es (fun id hid => within id (List.mem_append_right _ hid)) fits.2 between.2⟩

end

theorem CategoryExpr.fits (closed : db.Closed) (expr : db.CategoryExpr e) : db.signature.FitsCategories e := by
  obtain ⟨n, site, w, citation, built, run⟩ := expr
  have confined : Confined db.signature db := ⟨rfl, closed.within⟩
  have within := confined.categoryExpr closed.aliases run
  obtain ⟨e', he, run⟩ := bind_ok.mp run
  split at run
  · rename_i fits
    cases pure_ok run
    have between := Expr.rangesBetween_traverse w he (Build.rangesBetween_expr n built)
    exact ⟨within, rangesBetween_of_fit e within fits between⟩
  · exact absurd run not_violate

/-! ### What category sets are given -/

variable {repeats : Bool} {ss : List Statement}

/-- Everything that is said in a resolved database is noted by a statement. -/
theorem exists_note_of_said (run : ofStatements repeats ss = .ok db) {topic : Topic} {fact : topic.Fact}
    (said : fact ∈ db.skeleton.said db topic) :
    ∃ s ∈ ss, ∃ notes, db.skeleton.names.notes s = .ok notes ∧ ⟨topic, fact⟩ ∈ notes := by
  obtain ⟨settled, before, run⟩ := ofStatements_eq_ok.mp run
  have held := (binding_of_settle before).1
  obtain ⟨same, added⟩ := adds_statements held run
  obtain ⟨notes, all, added⟩ := bind_eq_ok.mp added
  rw [same]
  rcases Board.mem_or_noted added said with old | noted
  · rw [held.unsaid] at old
    cases old
  · exact (Board.mem_allNotes all).mp noted

/-- What a statement notes is said, unless it is something that is replaced. -/
theorem said_of_note (run : ofStatements repeats ss = .ok db) {s : Statement} (h : s ∈ ss) {notes : List SaidNote}
    (gives : db.skeleton.names.notes s = .ok notes) {note : SaidNote} (noted : note ∈ notes)
    (stays : note.1.keeping ≠ .latest) : note.2 ∈ db.skeleton.said db note.1 := by
  obtain ⟨settled, before, run⟩ := ofStatements_eq_ok.mp run
  obtain ⟨same, added⟩ := adds_statements (binding_of_settle before).1 run
  obtain ⟨all, gathered, added⟩ := bind_eq_ok.mp added
  rw [same] at gives
  exact Board.mem_of_addAll added stays (Or.inl ((Board.mem_allNotes gathered).mpr ⟨s, h, notes, gives, noted⟩))

/-- What a category set has is what its statement gives, with names looked up. -/
theorem exists_statement_of_members (run : ofStatements repeats ss = .ok db) {id : Id} {c : CategoryInfo}
    (hc : db.categories.value? id = some c) (members : c.members = some e) :
    ∃ location name w, .plain location (.categorySet name w) ∈ ss ∧
      ∀ citation, db.categoryExpr w citation = .ok e := by
  have closed := closed_of_ofStatements run
  obtain ⟨settled, before, rest⟩ := ofStatements_eq_ok.mp run
  have held := (binding_of_settle before).1
  have same := (adds_statements held rest).1
  have sound : db.skeleton.Sound := same ▸ held.sound
  have distinct := (Registry.distinct_outline _).mp sound.categories
  have named := Registry.named_nameOf (Registry.lt_of_value? hc)
  have names : db.skeleton.categories.nameOf = db.categories.nameOf := funext (Registry.nameOf_outline _)
  have inside : ∀ e' : Expr Id, db.signature.CategoriesWithin e' → ∀ a ∈ e'.leaves, a < db.categories.size := by
    intro e' within a ha
    obtain ⟨_, _, found, _⟩ := within a ha
    obtain ⟨c', hc', _⟩ := Option.map_eq_some_iff.mp found
    exact Registry.lt_of_value? hc'
  -- The expression is said of the set, so the statement of the set notes it.
  have said : e.map db.categories.nameOf ∈ db.skeleton.said db (.category (db.categories.nameOf id)) := by
    rw [Skeleton.said, distinct.tell_eq named hc, members, names]
    exact List.mem_singleton.mpr rfl
  obtain ⟨s, hs, notes, gives, noted⟩ := exists_note_of_said run said
  rw [same] at gives
  obtain ⟨rfl, location, clause, rfl, replaces⟩ := single_of_latest before hs gives noted rfl
  cases clause with
  | categorySet name w =>
    obtain ⟨name', _, gives⟩ := bind_eq_ok.mp gives
    obtain ⟨fact, looked, gives⟩ := bind_eq_ok.mp gives
    cases gives
    refine ⟨location, name, w, hs, fun citation => ?_⟩
    rw [← same] at looked
    have tells : Tells _ (db.categoryExpr w citation) _ := tells_categoryExpr sound
    obtain ⟨e', run', called⟩ := tells.exists_left looked
    rw [names] at called
    have confined : Confined db.signature db := ⟨rfl, closed.within⟩
    have within' := inside e' (confined.categoryExpr closed.aliases run')
    have within := inside e (closed.within.categories id c hc e members)
    rw [run', Expr.eq_of_map_eq e' e (fun a ha b hb => distinct.eq_of_nameOf (within' a ha) (within b hb)) called]
  | _ => cases replaces

/-- Category sets have category expressions. -/
theorem categoryExpr_of_members {tree : ParseTree} {qualified : Bool} (built : tree.statements qualified = .ok ss)
    (run : ofStatements repeats ss = .ok db) : db.categories.All fun c => ∀ e ∈ c.members, db.CategoryExpr e := by
  intro id c hc e members
  obtain ⟨location, name, w, hs, looked⟩ := exists_statement_of_members run hc members
  obtain ⟨n, site, he⟩ := tree.exists_expr_of_categorySet built hs
  exact ⟨n, site, w, ⟨"categoryset", location⟩, he, looked _⟩

end Database

end CilPolicy
