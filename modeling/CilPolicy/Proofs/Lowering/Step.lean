import CilPolicy.Lowering.Step
import Mathlib.Data.List.Basic

/-!
# Steps without faults

Adding things to a table is seen through a property of tables. When no step has a
fault, the property holds at the end because it held at the start or because one of
the things brings it about.

A guarded step brings facts to a table, and is at fault when it does not fit by itself or when
something it brings clashes with something the table holds. Then all of a list of steps are without
faults exactly when each of them fits and no two things that they bring clash; so their order does
not matter, although each is only compared with those before it.
-/

namespace CilPolicy

namespace Step

variable {σ α : Type} {add : σ → α → Step σ}

/-- What a step keeps is kept by all of them, whether or not one has a fault. -/
theorem each_keeps (inv : σ → Prop) {items : List α} (keeps : ∀ t, ∀ a ∈ items, inv t → inv (add t a).table)
    {t : σ} (start : inv t) : inv (each add t items).table := by
  induction items generalizing t with
  | nil => exact start
  | cons a rest ih =>
    have first := keeps t a List.mem_cons_self start
    rw [each]
    dsimp only
    split
    · exact first
    · exact ih (fun t b hb => keeps t b (List.mem_cons_of_mem a hb)) first

theorem gather_keeps (inv : σ → Prop) {items : List α}
    (keeps : ∀ t, ∀ a ∈ items, inv t → inv (add t a).table) {t : σ} (start : inv t) :
    inv (gather add t items).table := by
  induction items generalizing t with
  | nil => exact start
  | cons a rest ih =>
    exact ih (fun t b hb => keeps t b (List.mem_cons_of_mem a hb)) (keeps t a List.mem_cons_self start)

theorem gather_invariant (inv : σ → Prop) (keeps : ∀ t a, inv t → inv (add t a).table)
    {items : List α} {t : σ} (start : inv t) : inv (gather add t items).table :=
  gather_keeps inv (fun t a _ => keeps t a) start

/-- What each step adds to what is seen, all of them add, while an invariant is kept. -/
theorem each_iff_of_invariant (inv seen : σ → Prop) {brings : α → Prop} {items : List α}
    (keeps : ∀ t, ∀ a ∈ items, inv t → inv (add t a).table)
    (adds : ∀ t, ∀ a ∈ items, inv t → (add t a).fault? = none → (seen (add t a).table ↔ seen t ∨ brings a))
    {t : σ} (start : inv t) (done : (each add t items).fault? = none) :
    seen (each add t items).table ↔ seen t ∨ ∃ a ∈ items, brings a := by
  induction items generalizing t with
  | nil => simp [each, Step.done]
  | cons a rest ih =>
    rw [each] at done ⊢
    dsimp only at done ⊢
    cases hfault : (add t a).fault? with
    | some d =>
      simp only [hfault] at done
      cases done
    | none =>
      simp only [hfault] at done ⊢
      rw [ih (fun t b hb => keeps t b (List.mem_cons_of_mem a hb))
        (fun t b hb => adds t b (List.mem_cons_of_mem a hb)) (keeps t a List.mem_cons_self start) done,
        adds t a List.mem_cons_self start hfault, or_assoc]
      simp

theorem each_iff (seen : σ → Prop) {brings : α → Prop}
    (adds : ∀ t a, (add t a).fault? = none → (seen (add t a).table ↔ seen t ∨ brings a))
    {items : List α} {t : σ} (done : (each add t items).fault? = none) :
    seen (each add t items).table ↔ seen t ∨ ∃ a ∈ items, brings a :=
  each_iff_of_invariant (fun _ => True) seen (fun _ _ _ _ => trivial) (fun t a _ _ => adds t a) trivial done

theorem each_done {items : List α} {t : σ} (done : (each add t items).fault? = none) :
    ∀ a ∈ items, ∃ t, (add t a).fault? = none := by
  induction items generalizing t with
  | nil => simp
  | cons first rest ih =>
    rw [each] at done
    dsimp only at done
    cases hfault : (add t first).fault? with
    | some d =>
      simp only [hfault] at done
      cases done
    | none =>
      simp only [hfault] at done
      intro a ha
      rcases List.mem_cons.mp ha with rfl | ha
      · exact ⟨t, hfault⟩
      · exact ih done a ha

/-- The first step and all others are without faults. -/
theorem gather_cons_done {a : α} {rest : List α} {t : σ} :
    (gather add t (a :: rest)).faults = [] ↔
      (add t a).fault? = none ∧ (gather add (add t a).table rest).faults = [] := by
  rw [gather, List.append_eq_nil_iff]
  cases (add t a).fault? <;> simp

theorem gather_done {items : List α} {t : σ} (done : (gather add t items).faults = []) :
    ∀ a ∈ items, ∃ t, (add t a).fault? = none := by
  induction items generalizing t with
  | nil => simp
  | cons first rest ih =>
    obtain ⟨hfault, others⟩ := gather_cons_done.mp done
    intro a ha
    rcases List.mem_cons.mp ha with rfl | ha
    · exact ⟨t, hfault⟩
    · exact ih others a ha

theorem gather_iff_of_invariant (inv seen : σ → Prop) {brings : α → Prop} {items : List α}
    (keeps : ∀ t, ∀ a ∈ items, inv t → inv (add t a).table)
    (adds : ∀ t, ∀ a ∈ items, inv t → (add t a).fault? = none → (seen (add t a).table ↔ seen t ∨ brings a))
    {t : σ} (start : inv t) (done : (gather add t items).faults = []) :
    seen (gather add t items).table ↔ seen t ∨ ∃ a ∈ items, brings a := by
  induction items generalizing t with
  | nil => simp [gather]
  | cons a rest ih =>
    obtain ⟨hfault, others⟩ := gather_cons_done.mp done
    refine (ih (fun t b hb => keeps t b (List.mem_cons_of_mem a hb))
      (fun t b hb => adds t b (List.mem_cons_of_mem a hb)) (keeps t a List.mem_cons_self start) others).trans ?_
    rw [adds t a List.mem_cons_self start hfault, or_assoc]
    simp

theorem gather_iff (seen : σ → Prop) {brings : α → Prop} {items : List α}
    (adds : ∀ t, ∀ a ∈ items, (add t a).fault? = none → (seen (add t a).table ↔ seen t ∨ brings a))
    {t : σ} (done : (gather add t items).faults = []) :
    seen (gather add t items).table ↔ seen t ∨ ∃ a ∈ items, brings a :=
  gather_iff_of_invariant (fun _ => True) seen (fun _ _ _ _ => trivial) (fun t a ha _ => adds t a ha) trivial
    done

/-- What every step appends to a list of the table is appended by all of them. -/
theorem gather_append {β : Type} (view : σ → List β) {new : α → List β} {items : List α}
    (appends : ∀ t, ∀ a ∈ items, view (add t a).table = view t ++ new a) {t : σ} :
    view (gather add t items).table = view t ++ items.flatMap new := by
  induction items generalizing t with
  | nil => simp [gather]
  | cons a rest ih =>
    refine (ih fun t b hb => appends t b (List.mem_cons_of_mem a hb)).trans ?_
    rw [appends t a List.mem_cons_self, List.append_assoc, List.flatMap_cons]

/-! ### Steps that refuse what clashes -/

section Guarded

variable {τ β : Type}

/-- Under the invariant, the step is without fault when it fits and clashes with nothing that the
table holds, and then the table holds what the step brings beside what it held. -/
structure Guarded (step : σ → Step σ) (inv : σ → Prop) (holds : σ → β → Prop) (clash : β → β → Prop)
    (fits : Prop) (brings : β → Prop) : Prop where
  keeps : ∀ t, inv t → inv (step t).table
  done_iff : ∀ t, inv t →
    ((step t).fault? = none ↔ fits ∧ ∀ x y, holds t x → brings y → ¬ clash x y)
  holds_iff : ∀ t, inv t → (step t).fault? = none →
    ∀ x, holds (step t).table x ↔ holds t x ∨ brings x

variable {inv : σ → Prop} {holds : σ → β → Prop} {clash : β → β → Prop}
  {fits : α → Prop} {brings : α → β → Prop} {items : List α}

theorem each_cons_done {t : σ} {a : α} {rest : List α} :
    (each add t (a :: rest)).fault? = none ↔
      (add t a).fault? = none ∧ (each add (add t a).table rest).fault? = none := by
  rw [each]
  cases hfault : (add t a).fault? with
  | some d => simp [hfault]
  | none => simp

theorem each_cons_table {t : σ} {a : α} {rest : List α} (done : (add t a).fault? = none) :
    (each add t (a :: rest)).table = (each add (add t a).table rest).table := by
  rw [each, done]

/-- Steps that do not depend on the table are without faults when each of them is. -/
theorem each_done_iff (alone : ∀ t a, (add t a).fault? = none ↔ fits a) {t : σ} :
    (each add t items).fault? = none ↔ ∀ a ∈ items, fits a := by
  induction items generalizing t with
  | nil => simp [each, done]
  | cons a rest ih => rw [each_cons_done, alone, ih, List.forall_mem_cons]

/-- Guarded steps whose things do not clash with each other make one guarded step. -/
theorem Guarded.each
    (guarded : ∀ a ∈ items, Guarded (add · a) inv holds clash (fits a) (brings a))
    (coherent : ∀ a ∈ items, ∀ b ∈ items, ∀ x y, brings a x → brings b y → ¬ clash x y) :
    Guarded (Step.each add · items) inv holds clash (∀ a ∈ items, fits a)
      fun x => ∃ a ∈ items, brings a x := by
  induction items with
  | nil =>
    refine ⟨fun t held => held, fun t _ => ?_, fun t _ _ x => ?_⟩
    · simp [Step.each, done]
    · simp [Step.each, done]
  | cons a rest ih =>
    have first := guarded a List.mem_cons_self
    have others := ih (fun b hb => guarded b (List.mem_cons_of_mem a hb))
      fun b hb c hc => coherent b (List.mem_cons_of_mem a hb) c (List.mem_cons_of_mem a hc)
    refine ⟨fun t held => ?_, fun t held => ?_, fun t held ok x => ?_⟩
    · exact each_keeps inv (fun t b hb => (guarded b hb).keeps t) held
    · rw [each_cons_done]
      constructor
      · rintro ⟨done, rest_done⟩
        obtain ⟨fit, apart⟩ := (first.done_iff t held).mp done
        obtain ⟨fits, rest_apart⟩ := (others.done_iff _ (first.keeps t held)).mp rest_done
        refine ⟨List.forall_mem_cons.mpr ⟨fit, fits⟩, ?_⟩
        rintro x y holds ⟨b, hb, bring⟩
        rcases List.mem_cons.mp hb with rfl | hb
        · exact apart x y holds bring
        · exact rest_apart x y ((first.holds_iff t held done x).mpr (.inl holds)) ⟨b, hb, bring⟩
      · rintro ⟨fits, apart⟩
        have done := (first.done_iff t held).mpr ⟨fits a List.mem_cons_self, fun x y hold bring =>
          apart x y hold ⟨a, List.mem_cons_self, bring⟩⟩
        refine ⟨done, (others.done_iff _ (first.keeps t held)).mpr
          ⟨fun b hb => fits b (List.mem_cons_of_mem a hb), ?_⟩⟩
        rintro x y hold ⟨b, hb, bring⟩
        rcases (first.holds_iff t held done x).mp hold with hold | new
        · exact apart x y hold ⟨b, List.mem_cons_of_mem a hb, bring⟩
        · exact coherent a List.mem_cons_self b (List.mem_cons_of_mem a hb) x y new bring
    · obtain ⟨done, rest_done⟩ := each_cons_done.mp ok
      rw [each_cons_table done, others.holds_iff _ (first.keeps t held) rest_done,
        first.holds_iff t held done, or_assoc]
      simp

section Single

variable {step : σ → Step σ} {own : Prop} {new : β → Prop}

theorem Guarded.congr (guarded : Guarded step inv holds clash own new) {own' : Prop} {new' : β → Prop}
    (same : own ↔ own') (equal : ∀ x, new x ↔ new' x) : Guarded step inv holds clash own' new' := by
  cases propext same
  cases funext fun x => propext (equal x)
  exact guarded

/-- A step that always has a fault fits nowhere. -/
theorem guarded_fail {d : Diagnostic} (unfit : ¬ own) :
    Guarded (fun t => .fail t d) inv holds clash own new where
  keeps _ held := held
  done_iff _ _ := iff_of_false (fun done => Option.some_ne_none d done) fun fit => unfit fit.1
  holds_iff _ _ done := by cases done

/-- A step that shows in nothing that the table holds. -/
theorem guarded_silent (keeps : ∀ t, inv t → inv (step t).table)
    (done : ∀ t, (step t).fault? = none ↔ own) (same : ∀ t x, holds (step t).table x ↔ holds t x)
    (nothing : ∀ x, ¬ new x) : Guarded step inv holds clash own new where
  keeps := keeps
  done_iff t _ := (done t).trans (iff_self_and.mpr fun _ _ y _ bring => absurd bring (nothing y))
  holds_iff t _ _ x := (same t x).trans (or_iff_left (nothing x)).symm

/-- A guarded step on a part of a table is one on the whole, when what it brings shows in that part
only. -/
theorem Guarded.lift (guarded : Guarded step inv holds clash own new) {get : τ → σ} {set : τ → σ → τ}
    {whole : τ → Prop} {holdsAll : τ → β → Prop} (mine : β → Prop) (get_set : ∀ t s, get (set t s) = s)
    (part : ∀ t, whole t → inv (get t)) (put : ∀ t s, whole t → inv s → whole (set t s))
    (here : ∀ t x, mine x → (holdsAll t x ↔ holds (get t) x))
    (elsewhere : ∀ t s x, ¬ mine x → (holdsAll (set t s) x ↔ holdsAll t x))
    (brought : ∀ x, new x → mine x) (met : ∀ x y, mine y → clash x y → mine x) :
    Guarded (fun t => (step (get t)).map (set t)) whole holdsAll clash own new where
  keeps t held := put t _ held (guarded.keeps (get t) (part t held))
  done_iff t held := by
    refine (guarded.done_iff (get t) (part t held)).trans (and_congr_right fun _ => ?_)
    constructor
    · intro free x y hold bring meet
      exact free x y ((here t x (met x y (brought y bring) meet)).mp hold) bring meet
    · intro free x y hold bring meet
      exact free x y ((here t x (met x y (brought y bring) meet)).mpr hold) bring meet
  holds_iff t held done x := by
    by_cases own : mine x
    · rw [Step.map, here _ x own, get_set, here t x own]
      exact guarded.holds_iff (get t) (part t held) done x
    · rw [Step.map, elsewhere t _ x own]
      exact (or_iff_left fun bring => own (brought x bring)).symm

end Single

/-- A list of guarded steps is without faults when each step fits, brings nothing that clashes with
what the table holds, and no two of them bring things that clash. -/
theorem gather_done_iff (symm : ∀ x y, clash x y → clash y x)
    (guarded : ∀ a ∈ items, Guarded (add · a) inv holds clash (fits a) (brings a))
    (self : ∀ a ∈ items, ∀ x y, brings a x → brings a y → ¬ clash x y) {t : σ} (start : inv t) :
    (gather add t items).faults = [] ↔ (∀ a ∈ items, fits a) ∧
      (∀ a ∈ items, ∀ x y, holds t x → brings a y → ¬ clash x y) ∧
      ∀ a ∈ items, ∀ b ∈ items, ∀ x y, brings a x → brings b y → ¬ clash x y := by
  induction items generalizing t with
  | nil => simp [gather]
  | cons a rest ih =>
    have first := guarded a List.mem_cons_self
    rw [gather_cons_done]
    have others := fun t (start : inv t) => ih (fun b hb => guarded b (List.mem_cons_of_mem a hb))
      (fun b hb => self b (List.mem_cons_of_mem a hb)) (t := t) start
    constructor
    · rintro ⟨done, rest_done⟩
      obtain ⟨fit, apart⟩ := (first.done_iff t start).mp done
      obtain ⟨fits, rest_apart, pairs⟩ := (others _ (first.keeps t start)).mp rest_done
      have added := first.holds_iff t start done
      have head : ∀ b ∈ rest, ∀ x y, brings a x → brings b y → ¬ clash x y :=
        fun b hb x y bring => rest_apart b hb x y ((added x).mpr (.inr bring))
      refine ⟨List.forall_mem_cons.mpr ⟨fit, fits⟩, List.forall_mem_cons.mpr ⟨apart, ?_⟩, ?_⟩
      · exact fun b hb x y hold => rest_apart b hb x y ((added x).mpr (.inl hold))
      · intro b hb c hc x y bring bring' meet
        rcases List.mem_cons.mp hb with first | later
        · subst first
          rcases List.mem_cons.mp hc with first | later
          · exact self b List.mem_cons_self x y bring (first ▸ bring') meet
          · exact head c later x y bring bring' meet
        · rcases List.mem_cons.mp hc with first | later'
          · exact head b later y x (first ▸ bring') bring (symm x y meet)
          · exact pairs b later c later' x y bring bring' meet
    · rintro ⟨fits, apart, pairs⟩
      have done := (first.done_iff t start).mpr ⟨fits a List.mem_cons_self, apart a List.mem_cons_self⟩
      refine ⟨done, (others _ (first.keeps t start)).mpr
        ⟨fun b hb => fits b (List.mem_cons_of_mem a hb), ?_, ?_⟩⟩
      · intro b hb x y hold bring
        rcases (first.holds_iff t start done x).mp hold with hold | new
        · exact apart b (List.mem_cons_of_mem a hb) x y hold bring
        · exact pairs a List.mem_cons_self b (List.mem_cons_of_mem a hb) x y new bring
      · exact fun b hb c hc => pairs b (List.mem_cons_of_mem a hb) c (List.mem_cons_of_mem a hc)

theorem gather_holds_iff
    (guarded : ∀ a ∈ items, Guarded (add · a) inv holds clash (fits a) (brings a)) {t : σ}
    (start : inv t) (done : (gather add t items).faults = []) (x : β) :
    holds (gather add t items).table x ↔ holds t x ∨ ∃ a ∈ items, brings a x :=
  gather_iff_of_invariant inv (holds · x) (fun t a ha => (guarded a ha).keeps t)
    (fun t a ha held ok => (guarded a ha).holds_iff t held ok x) start done

end Guarded

end Step

end CilPolicy
