import CilPolicy.Report
import Mathlib.Data.List.Forall2

/-!
# Computations that come to a value

A computation with messages is taken apart into what its parts come to. Messages
never decide the outcome, so nothing is said of them: a report yields a value when
it comes to that value after some messages.
-/

namespace CilPolicy

section Except

variable {ε α β : Type}

theorem bind_eq_ok {x : Except ε α} {f : α → Except ε β} {b : β} :
    (x >>= f) = .ok b ↔ ∃ a, x = .ok a ∧ f a = .ok b := by
  cases x with
  | error e => simp [bind, Except.bind]
  | ok a => simp [bind, Except.bind]

theorem map_eq_ok {x : Except ε α} {f : α → β} {b : β} :
    (f <$> x) = .ok b ↔ ∃ a, x = .ok a ∧ f a = b := by
  cases x with
  | error e => simp [Functor.map, Except.map]
  | ok a => simp [Functor.map, Except.map]

theorem mapError_eq_ok {ε' : Type} {x : Except ε α} {f : ε → ε'} {a : α} :
    x.mapError f = .ok a ↔ x = .ok a := by
  cases x with
  | error e =>
    constructor
    · intro h
      cases h
    · intro h
      cases h
  | ok b =>
    constructor
    · intro h
      cases h
      rfl
    · intro h
      cases h
      rfl

theorem toOption_eq_some_iff {x : Except ε α} {a : α} : x.toOption = some a ↔ x = .ok a := by
  cases x with
  | error e => simp [Except.toOption]
  | ok b => simp [Except.toOption]

/-- What holds at the start and after every step holds at the end. -/
theorem foldlM_invariant {step : β → α → Except ε β} (Inv : β → Prop) {items : List α}
    (keeps : ∀ x a y, a ∈ items → Inv x → step x a = .ok y → Inv y) {x y : β}
    (start : Inv x) (run : items.foldlM step x = .ok y) : Inv y := by
  induction items generalizing x with
  | nil =>
    rw [List.foldlM_nil] at run
    cases run
    exact start
  | cons a rest ih =>
    rw [List.foldlM_cons, bind_eq_ok] at run
    obtain ⟨mid, first, run⟩ := run
    exact ih (fun x b y hb => keeps x b y (List.mem_cons_of_mem a hb))
      (keeps x a mid List.mem_cons_self start first) run

theorem exists_left_of_forall₂ {R : α → β → Prop} {items : List α} {results : List β}
    (related : List.Forall₂ R items results) {b : β} (hb : b ∈ results) : ∃ a ∈ items, R a b := by
  induction related with
  | nil => cases hb
  | cons first _ ih =>
    rcases List.mem_cons.mp hb with rfl | hb
    · exact ⟨_, List.mem_cons_self, first⟩
    · obtain ⟨a, ha, other⟩ := ih hb
      exact ⟨a, List.mem_cons_of_mem _ ha, other⟩

theorem exists_right_of_forall₂ {R : α → β → Prop} {items : List α} {results : List β}
    (related : List.Forall₂ R items results) {a : α} (ha : a ∈ items) : ∃ b ∈ results, R a b :=
  exists_left_of_forall₂ related.flip ha

/-- A list of computations that succeeds has the result of each in its place. -/
theorem forall₂_of_mapM {f : α → Except ε β} {items : List α} {results : List β}
    (run : items.mapM f = .ok results) : List.Forall₂ (fun a b => f a = .ok b) items results := by
  induction items generalizing results with
  | nil =>
    rw [List.mapM_nil] at run
    cases run
    exact .nil
  | cons a rest ih =>
    rw [List.mapM_cons, bind_eq_ok] at run
    obtain ⟨b, first, run⟩ := run
    obtain ⟨others, tail, done⟩ := bind_eq_ok.mp run
    cases done
    exact .cons first (ih tail)

/-- Every result of a list of computations comes from one of them. -/
theorem mem_of_mapM {f : α → Except ε β} {items : List α} {results : List β}
    (run : items.mapM f = .ok results) {b : β} (hb : b ∈ results) : ∃ a ∈ items, f a = .ok b :=
  exists_left_of_forall₂ (forall₂_of_mapM run) hb

/-- Every computation of a list that succeeds has its result in the list. -/
theorem exists_of_mapM {f : α → Except ε β} {items : List α} {results : List β}
    (run : items.mapM f = .ok results) {a : α} (ha : a ∈ items) : ∃ b ∈ results, f a = .ok b :=
  exists_right_of_forall₂ (forall₂_of_mapM run) ha

/-- Computations that all succeed have a list of results. -/
theorem Except.exists_mapM {α β ε : Type} {f : α → Except ε β} {items : List α}
    (all : ∀ a ∈ items, ∃ b, f a = .ok b) : ∃ results, items.mapM f = .ok results := by
  induction items with
  | nil => exact ⟨[], rfl⟩
  | cons a rest ih =>
    obtain ⟨first, hfirst⟩ := all a List.mem_cons_self
    obtain ⟨others, hothers⟩ := ih fun b hb => all b (List.mem_cons_of_mem a hb)
    refine ⟨first :: others, ?_⟩
    rw [List.mapM_cons, hfirst, hothers]
    rfl

/-- A list of computations fails with the fault of the first one that fails. -/
theorem exists_error_of_mapM {f : α → Except ε β} {items : List α} {e : ε} (run : items.mapM f = .error e) :
    ∃ before a after, items = before ++ a :: after ∧ (∀ b ∈ before, ∃ c, f b = .ok c) ∧ f a = .error e := by
  induction items with
  | nil => cases run
  | cons a rest ih =>
    rw [List.mapM_cons] at run
    cases first : f a with
    | error e' =>
      rw [first] at run
      cases run
      exact ⟨[], a, rest, rfl, by simp, first⟩
    | ok c =>
      rw [first] at run
      cases tail : rest.mapM f with
      | ok results =>
        rw [tail] at run
        cases run
      | error e' =>
        rw [tail] at run
        cases run
        obtain ⟨before, b, after, rfl, good, found⟩ := ih tail
        refine ⟨a :: before, b, after, rfl, ?_, found⟩
        intro x hx
        rcases List.mem_cons.mp hx with rfl | hx
        · exact ⟨c, first⟩
        · exact good x hx

/-- What every computation says of its result, all results say. -/
theorem map_of_mapM {γ : Type} {f : α → Except ε β} {items : List α} {results : List β}
    (run : items.mapM f = .ok results) {g : β → γ} {h : α → γ} (tells : ∀ a b, f a = .ok b → g b = h a) :
    results.map g = items.map h := by
  have related := forall₂_of_mapM run
  clear run
  induction related with
  | nil => rfl
  | cons first _ ih => rw [List.map_cons, List.map_cons, tells _ _ first, ih]

end Except

namespace Report

variable {α β : Type}

/-- From the messages so far, the report comes to the value and leaves the messages. -/
def Runs (r : Report α) (before : List Message) (a : α) (after : List Message) : Prop :=
  r.run.run before = (.ok a, after)

/-- The report comes to the value, after some messages. -/
def Yields (r : Report α) (a : α) : Prop :=
  ∃ before after, r.Runs before a after

theorem yields_of_outcome {r : Report α} {a : α} (h : r.outcome.1 = .ok a) : r.Yields a :=
  ⟨[], r.outcome.2, Prod.ext h rfl⟩

theorem yields_pure {a b : α} (h : (pure a : Report α).Yields b) : b = a := by
  obtain ⟨before, after, h⟩ := h
  cases h
  rfl

theorem runs_bind {x : Report α} {f : α → Report β} {before after : List Message} {b : β} :
    (x >>= f).Runs before b after ↔
      ∃ a between, x.Runs before a between ∧ (f a).Runs between b after := by
  simp only [Runs]
  rw [ExceptT.run_bind]
  change StateT.run (x.run >>= _) before = _ ↔ _
  rw [StateT.run_bind]
  cases hx : x.run.run before with
  | mk result between =>
    cases result with
    | error d =>
      constructor
      · intro h
        cases h
      · rintro ⟨a, between, h, _⟩
        cases h
    | ok a =>
      constructor
      · intro h
        exact ⟨a, between, rfl, h⟩
      · rintro ⟨a, between, h, hf⟩
        cases h
        exact hf

theorem yields_bind {x : Report α} {f : α → Report β} {b : β} (h : (x >>= f).Yields b) :
    ∃ a, x.Yields a ∧ (f a).Yields b := by
  obtain ⟨before, after, h⟩ := h
  obtain ⟨a, between, hx, hf⟩ := runs_bind.mp h
  exact ⟨a, ⟨before, between, hx⟩, ⟨between, after, hf⟩⟩

theorem yields_lift {x : Except Diagnostic α} {a : α} (h : (liftM x : Report α).Yields a) :
    x = .ok a := by
  obtain ⟨before, after, h⟩ := h
  cases h
  rfl

theorem not_yields_throw {d : Diagnostic} {a : α} : ¬ (throw d : Report α).Yields a := by
  rintro ⟨before, after, h⟩
  cases h

theorem yields_reject {faults : List Diagnostic} {u : Unit} (h : (reject faults).Yields u) :
    faults = [] := by
  cases faults with
  | nil => rfl
  | cons first others =>
    obtain ⟨_, _, h⟩ := yields_bind h
    exact absurd h not_yields_throw

/-- What the report comes to after some messages, it comes to after any others. -/
def Steady (r : Report α) : Prop :=
  ∀ a before before' after, r.Runs before a after → ∃ after', r.Runs before' a after'

theorem steady_pure (a : α) : (pure a : Report α).Steady := by
  rintro _ _ before' _ run
  cases run
  exact ⟨before', rfl⟩

theorem steady_lift (x : Except Diagnostic α) : (liftM x : Report α).Steady := by
  rintro _ _ before' _ run
  cases run
  exact ⟨before', rfl⟩

theorem steady_say (severity : Severity) (text : String) : (say severity text).Steady := by
  rintro _ _ _ _ run
  cases run
  exact ⟨_, rfl⟩

theorem Steady.bind {x : Report α} {f : α → Report β} (steady : x.Steady) (next : ∀ a, (f a).Steady) :
    (x >>= f).Steady := by
  intro b before before' after run
  obtain ⟨a, between, first, rest⟩ := runs_bind.mp run
  obtain ⟨between', first'⟩ := steady a before before' between first
  obtain ⟨after', rest'⟩ := next a b between between' after rest
  exact ⟨after', runs_bind.mpr ⟨a, between', first', rest'⟩⟩

/-- The report comes to the value after any messages. -/
def Always (r : Report α) (a : α) : Prop :=
  ∀ before, ∃ after, r.Runs before a after

theorem Steady.always {r : Report α} {a : α} (steady : r.Steady) (yields : r.Yields a) : r.Always a := by
  obtain ⟨before, after, run⟩ := yields
  exact fun before' => steady a before before' after run

theorem Always.bind {x : Report α} {f : α → Report β} {a : α} (first : x.Always a)
    (rest : ∃ b, (f a).Always b) : ∃ b, (x >>= f).Always b := by
  obtain ⟨b, rest⟩ := rest
  refine ⟨b, fun before => ?_⟩
  obtain ⟨between, first⟩ := first before
  obtain ⟨after, rest⟩ := rest between
  exact ⟨after, runs_bind.mpr ⟨a, between, first, rest⟩⟩

theorem exists_always_pure (a : α) : ∃ b, (pure a : Report α).Always b :=
  ⟨a, fun before => ⟨before, rfl⟩⟩

theorem always_lift {x : Except Diagnostic α} {a : α} (h : x = .ok a) : (liftM x : Report α).Always a := by
  subst h
  exact fun before => ⟨before, rfl⟩

theorem Always.outcome {r : Report α} {a : α} (always : r.Always a) : r.outcome.1 = .ok a := by
  obtain ⟨after, run⟩ := always []
  exact congrArg Prod.fst run

end Report

end CilPolicy
