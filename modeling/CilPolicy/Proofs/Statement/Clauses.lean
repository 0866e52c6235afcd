import CilPolicy.Proofs.Source.TopLevel
import CilPolicy.Statement.Build

/-!
# Clauses of a text

Whatever a statement declares, its name has been checked: it begins with a letter, and only letters,
digits, underscores and dashes follow, with dots where names may be qualified. No keyword lets a name
in that is not checked.

An expression has parts, and an item may stand for an expression whose parts it has as well. Every
range that is built from a text goes from one item to another, and names that are looked up leave
it so. Of a category set, the text gives such an expression.
-/

namespace CilPolicy

/-! ### Names -/

/-- The name may be declared, for one purpose at least. -/
def Declarable (qualified : Bool) (name : String) : Prop :=
  ∃ kind : NameKind, kind.fault? qualified name = none

theorem Declarable.chars {qualified : Bool} {name : String} (declarable : Declarable qualified name) :
    ∃ first rest, name.toList = first :: rest ∧ first.isAlpha ∧ ∀ c ∈ rest, isNameChar qualified c := by
  obtain ⟨kind, sound⟩ := declarable
  rw [NameKind.fault?] at sound
  split at sound
  · cases sound
  split at sound
  · cases sound
  rename_i first rest chars
  split at sound
  · cases sound
  rename_i letter
  split at sound
  · cases sound
  rename_i found
  refine ⟨first, rest, chars, by simpa using letter, fun c hc => ?_⟩
  simpa using List.find?_eq_none.mp found c hc

/-- The names that a clause declares. -/
def Clause.newNames : Clause → List String
  | .declare _ name | .permissions _ name _ | .categorySet name _ | .level name _ | .levelRange name _
  | .context name _ | .extendedSet name _ | .address name _ | .boolean name _ => [name]
  | _ => []

/-! ### Ranges in an expression -/

namespace Expr

variable {α β ε : Type} {unfold : α → Option (Expr α)} {p : α → Prop} {a b : α} {e : Expr α}
  {op op' : Operator} {es es' : List (Expr α)}

/-- The expression has the part, and an item has the parts of what it stands for. -/
inductive Contains (unfold : α → Option (Expr α)) : Expr α → Expr α → Prop
  | self {e : Expr α} : Contains unfold e e
  | unfolded {a : α} {e part : Expr α} : unfold a = some e → Contains unfold e part →
    Contains unfold (item a) part
  | member {members : List (Expr α)} {e part : Expr α} : e ∈ members → Contains unfold e part →
    Contains unfold (list members) part
  | operand {op : Operator} {operands : List (Expr α)} {e part : Expr α} : e ∈ operands →
    Contains unfold e part → Contains unfold (apply op operands) part

theorem contains_item_iff : (item a).Contains unfold (apply op es) ↔
    ∃ e, unfold a = some e ∧ e.Contains unfold (apply op es) := by
  constructor
  · intro inside
    cases inside with
    | unfolded found inside => exact ⟨_, found, inside⟩
  · rintro ⟨e, found, inside⟩
    exact .unfolded found inside

theorem contains_list_iff : (list es').Contains unfold (apply op es) ↔
    ∃ e ∈ es', e.Contains unfold (apply op es) := by
  constructor
  · intro inside
    cases inside with
    | member he inside => exact ⟨_, he, inside⟩
  · rintro ⟨e, he, inside⟩
    exact .member he inside

theorem contains_apply_iff : (apply op' es').Contains unfold (apply op es) ↔
    (op' = op ∧ es' = es) ∨ ∃ e ∈ es', e.Contains unfold (apply op es) := by
  constructor
  · intro inside
    cases inside with
    | self => exact .inl ⟨rfl, rfl⟩
    | operand he inside => exact .inr ⟨_, he, inside⟩
  · rintro (⟨rfl, rfl⟩ | ⟨e, he, inside⟩)
    · exact .self
    · exact .operand he inside

/-- Every range in the expression goes from one such item to another. -/
def RangesBetween (p : α → Prop) (e : Expr α) : Prop :=
  ∀ operands, e.Contains (fun _ => none) (apply .range operands) →
    ∃ low high, operands = [item low, item high] ∧ p low ∧ p high

theorem rangesBetween_item (a : α) : (item a).RangesBetween p := by
  intro operands inside
  obtain ⟨_, ⟨⟩, _⟩ := contains_item_iff.mp inside

theorem rangesBetween_list : (list es).RangesBetween p ↔ ∀ e ∈ es, e.RangesBetween p := by
  constructor
  · intro h e he operands inside
    exact h operands (contains_list_iff.mpr ⟨e, he, inside⟩)
  · intro h operands inside
    obtain ⟨e, he, inside⟩ := contains_list_iff.mp inside
    exact h e he operands inside

theorem rangesBetween_range : (apply .range [item a, item b]).RangesBetween p ↔ p a ∧ p b := by
  constructor
  · intro h
    obtain ⟨low, high, same, first, last⟩ := h _ .self
    cases same
    exact ⟨first, last⟩
  · rintro ⟨first, last⟩ operands inside
    rcases contains_apply_iff.mp inside with ⟨_, rfl⟩ | ⟨e, he, inside⟩
    · exact ⟨a, b, rfl, first, last⟩
    · rcases List.mem_pair.mp he with rfl | rfl
      · exact rangesBetween_item a operands inside
      · exact rangesBetween_item b operands inside

theorem rangesBetween_apply (other : op ≠ .range) :
    (apply op es).RangesBetween p ↔ ∀ e ∈ es, e.RangesBetween p := by
  constructor
  · intro h e he operands inside
    exact h operands (contains_apply_iff.mpr (.inr ⟨e, he, inside⟩))
  · intro h operands inside
    rcases contains_apply_iff.mp inside with ⟨same, _⟩ | ⟨e, he, inside⟩
    · exact absurd same other
    · exact h e he operands inside

mutual

/-- Names that are looked up leave the ranges of an expression as they are. -/
theorem rangesBetween_traverse {find : α → Except ε β} : (e : Expr α) → {e' : Expr β} →
    e.traverse find = .ok e' → (e.RangesBetween fun _ => True) → e'.RangesBetween fun _ => True
  | item a, _, h, _ => by
    obtain ⟨b, _, rfl⟩ := map_eq_ok.mp h
    exact rangesBetween_item b
  | list members, _, h, between => by
    obtain ⟨found, hfound, rfl⟩ := map_eq_ok.mp h
    exact rangesBetween_list.mpr (rangesBetween_traverseAll members hfound (rangesBetween_list.mp between))
  | apply op operands, _, h, between => by
    obtain ⟨found, hfound, rfl⟩ := map_eq_ok.mp h
    by_cases range : op = .range
    · subst range
      obtain ⟨low, high, rfl, _⟩ := between _ .self
      obtain ⟨first, hfirst, hfound⟩ := bind_eq_ok.mp hfound
      obtain ⟨others, hothers, done⟩ := bind_eq_ok.mp hfound
      obtain ⟨last, hlast, hothers⟩ := bind_eq_ok.mp hothers
      cases hothers
      cases done
      obtain ⟨low', _, rfl⟩ := map_eq_ok.mp hfirst
      obtain ⟨high', _, rfl⟩ := map_eq_ok.mp hlast
      exact rangesBetween_range.mpr ⟨trivial, trivial⟩
    · rw [rangesBetween_apply range] at between ⊢
      exact rangesBetween_traverseAll operands hfound between

theorem rangesBetween_traverseAll {find : α → Except ε β} : (es : List (Expr α)) → {es' : List (Expr β)} →
    traverseAll find es = .ok es' → (∀ e ∈ es, e.RangesBetween fun _ => True) →
    ∀ e ∈ es', e.RangesBetween fun _ => True
  | [], _, h, _ => by
    cases h
    simp
  | e :: es, _, h, between => by
    obtain ⟨e', he, h⟩ := bind_eq_ok.mp h
    obtain ⟨es', hes, h⟩ := bind_eq_ok.mp h
    cases h
    rw [List.forall_mem_cons] at between ⊢
    exact ⟨rangesBetween_traverse e he between.1, rangesBetween_traverseAll es hes between.2⟩

end

end Expr

namespace Build

variable {α β : Type} {site : Site}

theorem bind_ok {m : Build α} {f : α → Build β} {b : β} :
    (m >>= f) site = .ok b ↔ ∃ a, m site = .ok a ∧ f a site = .ok b :=
  bind_eq_ok

theorem not_malformed {detail : ShapeDetail} {a : α} : (malformed detail : Build α) site ≠ .ok a := by
  intro h
  cases h

/-- Whatever clause is built has the property. -/
def Makes (P : Site → Clause → Prop) (m : Build Clause) : Prop :=
  ∀ site c, m site = .ok c → P site c

section Makes

variable {P : Site → Clause → Prop}

theorem makes_pure {c : Clause} (h : ∀ site, P site c) : Makes P (pure c) := by
  intro site c' run
  cases run
  exact h site

/-- The rest may use that the first part was built. -/
theorem makes_bind {m : Build α} {f : α → Build Clause}
    (next : ∀ a, Makes (fun site c => m site = .ok a → P site c) (f a)) : Makes P (m >>= f) := by
  intro site c run
  obtain ⟨a, first, run⟩ := bind_ok.mp run
  exact next a site c run first

theorem makes_refuse {fault : ShapeFault} : Makes P (refuse fault) := by
  intro site c run
  cases run

theorem makes_malformed {detail : ShapeDetail} : Makes P (malformed detail) :=
  fun _ _ run => absurd run not_malformed

theorem makes_dite {c : Prop} [Decidable c] {yes : c → Build Clause} {no : Build Clause}
    (left : ∀ h, Makes P (yes h)) (right : Makes P no) : Makes P (dite c yes fun _ => no) := by
  split
  · exact left _
  · exact right

end Makes

/-- The clause declares what may be declared, and is a category set for the one keyword only. -/
structure Fair (keyword : String) (site : Site) (c : Clause) : Prop where
  names : ∀ name ∈ c.newNames, Declarable site.qualified name
  set : ∀ name members, c = .categorySet name members → keyword = "categoryset"

section Fair

variable {keyword : String} {args : List Node} {c : Clause}

theorem name_ok {kind : NameKind} {n : Node} {text : String} (run : name kind n site = .ok text) :
    Declarable site.qualified text := by
  obtain ⟨_, here, run⟩ := bind_ok.mp run
  cases here
  cases fault : kind.fault? site.qualified n.word with
  | some _ =>
    rw [fault] at run
    cases run
  | none =>
    rw [fault] at run
    cases run
    exact ⟨kind, fault⟩

theorem fair_silent (silent : c.newNames = []) (other : ∀ name members, c ≠ .categorySet name members) :
    Fair keyword site c :=
  ⟨by simp [silent], fun name members same => absurd same (other name members)⟩

theorem fair_named {name : String} (named : c.newNames = [name]) (declarable : Declarable site.qualified name)
    (other : ∀ name members, c ≠ .categorySet name members) : Fair keyword site c :=
  ⟨by simpa [named] using declarable, fun name members same => absurd same (other name members)⟩

theorem fair_declaration {what : Declaration} {named : NameKind} : Makes (Fair keyword) (declaration what named args) :=
  makes_bind fun _ => makes_bind fun _ => makes_pure fun _ run _ => fair_named rfl (name_ok run) nofun

theorem fair_attributeSet {entity : Entity} : Makes (Fair keyword) (attributeSet entity args) :=
  makes_bind fun _ => makes_bind fun _ => makes_pure fun _ _ _ => fair_silent rfl nofun

theorem fair_permissions {owner : PermissionOwner} : Makes (Fair keyword) (permissions owner args) :=
  makes_bind fun _ => makes_bind fun _ => makes_bind fun _ => makes_pure fun _ _ run _ =>
    fair_named rfl (name_ok run) nofun

theorem fair_order {items : OrderKind} : Makes (Fair keyword) (order items args) := by
  refine makes_bind fun _ => makes_bind fun _ => ?_
  split
  · exact makes_pure fun _ _ _ => fair_silent rfl nofun
  · split
    · exact makes_pure fun _ _ _ => fair_silent rfl nofun
    · exact makes_malformed

theorem fair_defaults {part : DefaultKind} : Makes (Fair keyword) (defaults part args) := by
  refine makes_bind fun _ => makes_bind fun _ => ?_
  split
  · exact makes_pure fun _ _ _ => fair_silent rfl nofun
  · exact makes_malformed

theorem fair_defaultRange : Makes (Fair keyword) (defaultRange args) := by
  unfold defaultRange
  split
  all_goals
    refine makes_bind fun _ => makes_bind fun _ => makes_bind fun _ => ?_
    split
    · exact makes_pure fun _ _ _ _ => fair_silent rfl nofun
    · exact makes_malformed

theorem fair_access {rule : AccessKind} : Makes (Fair keyword) (access rule args) :=
  makes_bind fun _ => makes_bind fun _ => makes_pure fun _ _ _ => fair_silent rfl nofun

theorem fair_extended {rule : AccessKind} : Makes (Fair keyword) (extended rule args) := by
  refine makes_bind fun _ => ?_
  dsimp only
  split
  · exact makes_bind fun _ => makes_pure fun _ _ _ => fair_silent rfl (by simp)
  · exact makes_bind fun _ => makes_pure fun _ _ _ => fair_silent rfl (by simp)

theorem fair_typeRule {rule : TypeRuleKind} : Makes (Fair keyword) (typeRule rule args) :=
  makes_bind fun _ => makes_pure fun _ _ => fair_silent rfl nofun

theorem fair_typeTransition : Makes (Fair keyword) (typeTransition args) := by
  unfold typeTransition
  split
  · split
    · exact makes_pure fun _ => fair_silent rfl nofun
    · exact makes_malformed
  · exact fair_typeRule

theorem fair_fileContext : Makes (Fair keyword) (fileContext args) := by
  refine makes_bind fun _ => ?_
  dsimp only
  split
  · exact makes_malformed
  · split
    · exact makes_bind fun _ => makes_pure fun _ _ _ => fair_silent rfl nofun
    · exact makes_bind fun _ => makes_pure fun _ _ _ => fair_silent rfl nofun

theorem fair_filesystemUse : Makes (Fair keyword) (filesystemUse args) := by
  refine makes_bind fun _ => ?_
  dsimp only
  split
  · exact makes_malformed
  · exact makes_bind fun _ => makes_pure fun _ _ _ => fair_silent rfl nofun

theorem fair_port : Makes (Fair keyword) (port args) := by
  refine makes_bind fun _ => ?_
  dsimp only
  split
  · exact makes_malformed
  · refine makes_bind fun _ => ?_
    split
    · exact makes_malformed
    · exact makes_bind fun _ => makes_pure fun _ _ _ _ => fair_silent rfl nofun

theorem fair_pairOf {make : String → String → Clause}
    (silent : ∀ a b, (make a b).newNames = [] ∧ ∀ name members, make a b ≠ .categorySet name members) :
    Makes (Fair keyword) (pairOf make args) :=
  makes_bind fun _ => makes_pure fun _ _ => fair_silent (silent _ _).1 (silent _ _).2

set_option linter.auxLemma false in
/-- Every clause is fair, whatever its keyword. -/
theorem fair_clause : Makes (Fair keyword) (clause keyword args) := by
  -- The keyword is compared with one text after another; to split the match as a whole takes far longer.
  delta clause clause.match_3
  repeat' refine makes_dite ?_ ?_
  all_goals try rintro rfl
  all_goals try dsimp only [Eq.ndrec_symm]
  all_goals with_reducible first
    | exact fair_declaration
    | exact fair_attributeSet
    | exact fair_permissions
    | exact fair_order
    | exact fair_defaults
    | exact fair_defaultRange
    | exact fair_access
    | exact fair_extended
    | exact fair_typeRule
    | exact fair_typeTransition
    | exact fair_fileContext
    | exact fair_filesystemUse
    | exact fair_port
    | exact fun _ => makes_refuse
    | exact makes_refuse
    | skip
  all_goals
    repeat' first
      | with_reducible exact makes_malformed
      | with_reducible refine makes_bind fun _ => ?_
      | (with_reducible refine fair_pairOf ?_); exact fun _ _ => ⟨rfl, nofun⟩
      | split
  all_goals
    refine makes_pure fun site => ?_
    intros
    first
      | exact fair_silent rfl nofun
      | exact ⟨List.forall_mem_singleton.mpr (name_ok (by assumption)), fun _ _ _ => rfl⟩
      | exact fair_named rfl (name_ok (by assumption)) nofun

end Fair

/-! ### Expressions -/

variable {kind : ExprKind}

theorem expr_leaf {position : Position} {v : String} {e : Expr String}
    (h : expr kind (.leaf position v) site = .ok e) : e = .item v := by
  unfold expr at h
  cases named : Operator.ofKeyword? v with
  | some op =>
    simp only [named] at h
    exact absurd h not_malformed
  | none =>
    simp only [named] at h
    cases h
    rfl

theorem exists_leaf {n : Node} (word : Slot.word.accepts n = true) : ∃ position v, n = .leaf position v := by
  cases n with
  | leaf position v => exact ⟨position, v, rfl⟩
  | list _ _ => cases word

/-- A range takes two words. -/
theorem rangesBetween_operands {operands : List Node} {es : List (Expr String)}
    (fits : operandsFit .range operands = true) (h : exprs kind operands site = .ok es) :
    (Expr.apply .range es).RangesBetween fun _ => True := by
  match operands, fits, h with
  | [low, high], fits, h =>
    obtain ⟨lowWord, highWord⟩ := Bool.and_eq_true_iff.mp fits
    obtain ⟨_, _, rfl⟩ := exists_leaf lowWord
    obtain ⟨_, _, rfl⟩ := exists_leaf highWord
    rw [exprs] at h
    obtain ⟨first, hfirst, h⟩ := bind_ok.mp h
    obtain ⟨others, hothers, done⟩ := bind_ok.mp h
    rw [exprs] at hothers
    obtain ⟨last, hlast, hothers⟩ := bind_ok.mp hothers
    rw [exprs] at hothers
    cases hothers
    cases done
    rw [expr_leaf hfirst, expr_leaf hlast]
    exact Expr.rangesBetween_range.mpr ⟨trivial, trivial⟩

mutual

/-- Every range that a text gives goes from one name to another. -/
theorem rangesBetween_expr : (n : Node) → {e : Expr String} → expr kind n site = .ok e →
    e.RangesBetween fun _ => True
  | .leaf _ v, _, h => by
    rw [expr_leaf h]
    exact Expr.rangesBetween_item v
  | .list _ [], _, h => by
    rw [expr] at h
    exact absurd h not_malformed
  | .list _ (head :: rest), _, h => by
    unfold expr at h
    cases named : head.value?.bind Operator.ofKeyword? with
    | some op =>
      simp only [named] at h
      obtain ⟨_, _, h⟩ := bind_ok.mp h
      split at h
      · rename_i fits
        obtain ⟨es, hes, h⟩ := bind_ok.mp h
        cases h
        by_cases range : op = .range
        · subst range
          exact rangesBetween_operands fits hes
        · exact (Expr.rangesBetween_apply range).mpr (rangesBetween_exprs rest hes)
      · exact absurd h not_malformed
    | none =>
      simp only [named] at h
      split at h
      · obtain ⟨first, hfirst, h⟩ := bind_ok.mp h
        obtain ⟨others, hothers, h⟩ := bind_ok.mp h
        cases h
        rw [Expr.rangesBetween_list, List.forall_mem_cons]
        exact ⟨rangesBetween_expr head hfirst, rangesBetween_exprs rest hothers⟩
      · exact absurd h not_malformed

theorem rangesBetween_exprs : (ns : List Node) → {es : List (Expr String)} → exprs kind ns site = .ok es →
    ∀ e ∈ es, e.RangesBetween fun _ => True
  | [], _, h => by
    rw [exprs] at h
    cases h
    simp
  | n :: ns, _, h => by
    rw [exprs] at h
    obtain ⟨first, hfirst, h⟩ := bind_ok.mp h
    obtain ⟨others, hothers, h⟩ := bind_ok.mp h
    cases h
    rw [List.forall_mem_cons]
    exact ⟨rangesBetween_expr n hfirst, rangesBetween_exprs ns hothers⟩

end

/-! ### Category sets -/

/-- What a category set has is an expression of the text. -/
theorem exists_expr_of_categorySet {keyword name : String} {args : List Node} {members : Expr String}
    (h : clause keyword args site = .ok (.categorySet name members)) :
    ∃ n, expr .category n site = .ok members := by
  have own : keyword = "categoryset" := (fair_clause site _ h).set name members rfl
  subst own
  unfold clause at h
  obtain ⟨⟨set, categories⟩, _, h⟩ := bind_ok.mp h
  obtain ⟨_, _, h⟩ := bind_ok.mp h
  obtain ⟨e, he, h⟩ := bind_ok.mp h
  cases h
  exact ⟨categories, he⟩

end Build

/-! ### Statements of a text -/

variable {qualified : Bool} {location : Location} {c : Clause}

theorem Statement.exists_clause {n : Node} (h : ofNode qualified n = .ok (.plain location c)) :
    ∃ keyword args site, Build.clause keyword args site = .ok c ∧ site.qualified = qualified := by
  match n, h with
  | .leaf _ _, h => cases h
  | .list p [], h => cases h
  | .list p (.list _ _ :: _), h => cases h
  | .list p (.leaf _ keyword :: args), h =>
    rw [ofNode] at h
    dsimp only [Node.value?] at h
    split at h
    · split at h
      · split at h
        · obtain ⟨condition, _, h⟩ := bind_eq_ok.mp h
          obtain ⟨arms, _, h⟩ := bind_eq_ok.mp h
          cases h
        · cases h
      · cases h
    · obtain ⟨clause, built, same⟩ := map_eq_ok.mp h
      cases same
      exact ⟨keyword, args, _, built, rfl⟩

/-- Every clause outside conditionals is built from a list of the text. -/
theorem ParseTree.exists_clause {tree : ParseTree} {statements : List Statement}
    (built : tree.statements qualified = .ok statements) (h : .plain location c ∈ statements) :
    ∃ keyword args site, Build.clause keyword args site = .ok c ∧ site.qualified = qualified := by
  obtain ⟨parts, hparts, rfl⟩ := map_eq_ok.mp built
  obtain ⟨part, hpart, h⟩ := List.mem_flatten.mp h
  obtain ⟨file, _, hfile⟩ := mem_of_mapM hparts hpart
  match file, hfile with
  | .list _ (_ :: _ :: _ :: _ :: rest), hfile =>
    change Statement.ofRegion qualified rest = .ok part at hfile
    rw [Statement.ofRegion_eq] at hfile
    obtain ⟨n, _, hn⟩ := mem_of_mapM hfile h
    exact Statement.exists_clause hn
  | .leaf _ _, hfile | .list _ [], hfile | .list _ [_], hfile | .list _ [_, _], hfile | .list _ [_, _, _], hfile =>
    cases hfile
    cases h

/-- The statements that are built, with messages, are those of the text. -/
theorem ParseTree.statements_of_build {tree : ParseTree} {statements : List Statement}
    (built : (tree.build qualified).Yields statements) : tree.statements qualified = .ok statements := by
  obtain ⟨_, lifted, noted⟩ := Report.yields_bind built
  obtain ⟨_, _, done⟩ := Report.yields_bind noted
  cases Report.yields_pure done
  exact Report.yields_lift lifted

/-- Every name that a clause of the text declares may be declared. -/
theorem ParseTree.declarable {tree : ParseTree} {statements : List Statement}
    (built : tree.statements qualified = .ok statements) (h : .plain location c ∈ statements) :
    ∀ name ∈ c.newNames, Declarable qualified name := by
  obtain ⟨keyword, args, site, run, rfl⟩ := exists_clause built h
  exact (Build.fair_clause site c run).names

/-- The text gives every category set an expression. -/
theorem ParseTree.exists_expr_of_categorySet {tree : ParseTree} {qualified : Bool} {statements : List Statement}
    (built : tree.statements qualified = .ok statements) {location : Location} {name : String} {members : Expr String}
    (h : .plain location (.categorySet name members) ∈ statements) :
    ∃ n site, Build.expr .category n site = .ok members := by
  obtain ⟨keyword, args, site, run, _⟩ := exists_clause built h
  obtain ⟨n, he⟩ := Build.exists_expr_of_categorySet run
  exact ⟨n, site, he⟩

end CilPolicy
