import CilPolicy.Source.Parse

/-!
# The grammar of source text

A source text is a sequence of lists in parentheses, whose items are names and lists; blanks,
comments and line breaks may stand between any of them. The grammar is a relation between
tokens and expressions, without a parser in mind, and no sequence of tokens has two readings.
-/

namespace CilPolicy

/-- A name or a list, with the line of the token in which it begins. -/
inductive Expression where
  | name (line : Nat) (text : String)
  | list (line : Nat) (items : List Expression)

mutual

/-- The node with nothing of its position but the line. -/
def Node.expression : Node → Expression
  | .leaf p value => .name p.line value
  | .list p items => .list p.line (expressions items)

def Node.expressions : List Node → List Expression
  | [] => []
  | n :: ns => n.expression :: expressions ns

end

theorem Node.expressions_eq_map (ns : List Node) : Node.expressions ns = ns.map Node.expression := by
  induction ns with
  | nil => rfl
  | cons n ns ih => rw [expressions, ih, List.map_cons]

namespace Token

/-- The token is the name: a symbol as it stands, a quoted one without its quotes. -/
def Names (t : Token) (text : String) : Prop :=
  (t.kind = .symbol ∧ t.text = text) ∨ (t.kind = .quoted ∧ t.text = "\"" ++ text ++ "\"")

/-- The token is no part of any expression. -/
def Silent (t : Token) : Prop :=
  t.kind = .newline ∨ t.kind = .comment ∨ t.kind = .finish

/-- Number of parentheses that the tokens open. -/
def opened (ts : List Token) : Nat :=
  ts.countP (·.kind == .opening)

def closed (ts : List Token) : Nat :=
  ts.countP (·.kind == .closing)

theorem Names.unique {t : Token} {a b : String} (first : t.Names a) (second : t.Names b) : a = b := by
  rcases first with ⟨kind, rfl⟩ | ⟨kind, text⟩ <;> rcases second with ⟨kind', rfl⟩ | ⟨kind', text'⟩
  · rfl
  · exact absurd (kind.symm.trans kind') (by decide)
  · exact absurd (kind.symm.trans kind') (by decide)
  · have same := congrArg String.toList (text.symm.trans text')
    simp only [String.toList_append, List.append_cancel_left_eq, List.append_cancel_right_eq] at same
    exact String.toList_inj.mp same

theorem Names.ne_opening {t : Token} {text : String} (names : t.Names text) : t.kind ≠ .opening := by
  rcases names with ⟨kind, _⟩ | ⟨kind, _⟩ <;> simp [kind]

theorem Names.ne_closing {t : Token} {text : String} (names : t.Names text) : t.kind ≠ .closing := by
  rcases names with ⟨kind, _⟩ | ⟨kind, _⟩ <;> simp [kind]

theorem Silent.not_names {t : Token} {text : String} (quiet : t.Silent) : ¬ t.Names text := by
  rcases quiet with kind | kind | kind <;> simp [Names, kind]

theorem Silent.ne_opening {t : Token} (quiet : t.Silent) : t.kind ≠ .opening := by
  rcases quiet with kind | kind | kind <;> simp [kind]

theorem Silent.ne_closing {t : Token} (quiet : t.Silent) : t.kind ≠ .closing := by
  rcases quiet with kind | kind | kind <;> simp [kind]

end Token

open Token

/-- The tokens are read as the expressions, one after the other. -/
inductive Forest : List Token → List Expression → Prop where
  | nil : Forest [] []
  | silent {t : Token} {rest : List Token} {es : List Expression} (quiet : t.Silent)
      (more : Forest rest es) : Forest (t :: rest) es
  | name {t : Token} {text : String} {rest : List Token} {es : List Expression} (names : t.Names text)
      (more : Forest rest es) : Forest (t :: rest) (.name t.line text :: es)
  | list {o c : Token} {inner rest : List Token} {items es : List Expression} (opens : o.kind = .opening)
      (closes : c.kind = .closing) (inside : Forest inner items) (more : Forest rest es) :
      Forest (o :: (inner ++ c :: rest)) (.list o.line items :: es)

/-- All tokens are known, each parenthesis has its partner, not too many are open at a time,
and names stand inside of them only. -/
structure WellNested (tokens : List Token) : Prop where
  known : ∀ t ∈ tokens, t.kind ≠ .unknown
  within : ∀ front, front <+: tokens →
    closed front ≤ opened front ∧ opened front ≤ closed front + maxDepth
  balanced : closed tokens = opened tokens
  inside : ∀ front t, front ++ [t] <+: tokens → t.kind = .symbol ∨ t.kind = .quoted →
    closed front < opened front

namespace Forest

theorem append {ts us : List Token} {es fs : List Expression} (first : Forest ts es)
    (second : Forest us fs) : Forest (ts ++ us) (es ++ fs) := by
  induction first with
  | nil => exact second
  | silent quiet _ ih => exact .silent quiet ih
  | name names _ ih => exact .name names ih
  | list opens closes inside _ _ ih =>
    rw [List.cons_append, List.append_assoc]
    exact .list opens closes inside ih

/-- The tokens that follow a forest begin with no expression. -/
def Ends (rest : List Token) : Prop :=
  ∀ t ∈ rest.head?, t.kind = .closing

/-- Before the end of its list, a forest cannot go on. -/
theorem eq_nil_of_ends {ts rest rest' : List Token} {es : List Expression} (forest : Forest ts es)
    (same : rest = ts ++ rest') (ends : Ends rest) : ts = [] ∧ es = [] := by
  subst same
  cases forest with
  | nil => exact ⟨rfl, rfl⟩
  | silent quiet _ =>
    have kind := ends _ rfl
    rcases quiet with other | other | other <;> exact absurd (kind.symm.trans other) (by decide)
  | name names _ =>
    have kind := ends _ rfl
    rcases names with ⟨other, _⟩ | ⟨other, _⟩ <;> exact absurd (kind.symm.trans other) (by decide)
  | list opens _ _ _ => exact absurd ((ends _ rfl).symm.trans opens) (by decide)

/-- Two readings of the same tokens, each as far as it goes, are the same and go equally far. -/
theorem unique_of_append {ts us : List Token} {es fs : List Expression} (first : Forest ts es)
    (second : Forest us fs) {rest rest' : List Token} (same : ts ++ rest = us ++ rest')
    (ends : Ends rest) (ends' : Ends rest') : ts = us ∧ es = fs := by
  induction first generalizing us fs rest rest' with
  | nil =>
    obtain ⟨rfl, rfl⟩ := eq_nil_of_ends second same ends
    exact ⟨rfl, rfl⟩
  | silent quiet more ih =>
    cases second with
    | nil => exact eq_nil_of_ends (.silent quiet more) same.symm ends'
    | silent _ more' =>
      obtain ⟨rfl, tail⟩ := List.cons.inj same
      obtain ⟨rfl, rfl⟩ := ih more' tail ends ends'
      exact ⟨rfl, rfl⟩
    | name names _ =>
      obtain ⟨rfl, _⟩ := List.cons.inj same
      exact absurd names quiet.not_names
    | list opens _ _ _ =>
      obtain ⟨rfl, _⟩ := List.cons.inj same
      exact absurd opens quiet.ne_opening
  | name names more ih =>
    cases second with
    | nil => exact eq_nil_of_ends (.name names more) same.symm ends'
    | silent quiet _ =>
      obtain ⟨rfl, _⟩ := List.cons.inj same
      exact absurd names quiet.not_names
    | name names' more' =>
      obtain ⟨rfl, tail⟩ := List.cons.inj same
      obtain ⟨rfl, rfl⟩ := ih more' tail ends ends'
      cases names.unique names'
      exact ⟨rfl, rfl⟩
    | list opens _ _ _ =>
      obtain ⟨rfl, _⟩ := List.cons.inj same
      exact absurd opens names.ne_opening
  | list opens closes inside more ihInside ihMore =>
    cases second with
    | nil => exact eq_nil_of_ends (.list opens closes inside more) same.symm ends'
    | silent quiet _ =>
      obtain ⟨rfl, _⟩ := List.cons.inj same
      exact absurd opens quiet.ne_opening
    | name names _ =>
      obtain ⟨rfl, _⟩ := List.cons.inj same
      exact absurd opens names.ne_opening
    | list _ closes' inside' more' =>
      simp only [List.cons_append, List.append_assoc] at same
      obtain ⟨rfl, tail⟩ := List.cons.inj same
      -- The items end at the same parenthesis, and what is left begins after it.
      obtain ⟨rfl, rfl⟩ := ihInside inside' tail (by simpa [Ends] using closes) (by simpa [Ends] using closes')
      obtain ⟨rfl, others⟩ := List.cons.inj (List.append_cancel_left tail)
      obtain ⟨rfl, rfl⟩ := ihMore more' others ends ends'
      exact ⟨rfl, rfl⟩

/-- No sequence of tokens has two readings. -/
theorem unique {ts : List Token} {es fs : List Expression} (first : Forest ts es) (second : Forest ts fs) :
    es = fs :=
  have same : ts ++ [] = ts ++ [] := rfl
  (unique_of_append first second same (by simp [Ends]) (by simp [Ends])).2

end Forest

end CilPolicy
