import CilPolicy.Proofs.Report
import Mathlib.Data.List.Perm.Basic
import Mathlib.Logic.Function.Basic

/-!
# Notes on a board

A board has notes under keys. Under some keys all notes are kept, under some there is one at
most, and under others only the latest. Whether notes can be added does not depend on their
order, and neither does what is on the board in the end, as long as no two different notes are
added under a key that keeps the latest.
-/

namespace CilPolicy

/-- What is kept of the notes under a key. -/
inductive Keeping (F : Type) where
  | all
  /-- One note at most. The same note may be given again if the test holds. -/
  | one (again : F → Bool)
  | latest

/-- The notes under a key after one more. -/
def Keeping.add {F : Type} [DecidableEq F] (keeping : Keeping F) (notes : List F) (note : F) :
    Except Unit (List F) :=
  match keeping, notes with
  | all, notes => .ok (notes ++ [note])
  | latest, _ => .ok [note]
  | one _, [] => .ok [note]
  | one again, [given] => if given = note ∧ again note = true then .ok [given] else .error ()
  | one _, _ => .error ()

namespace Keeping

variable {F G : Type} [DecidableEq F] {note : F}

theorem add_once (kept : Option F) :
    (one fun _ => false).add kept.toList note = if kept.isSome then .error () else .ok [note] := by
  cases kept with
  | none => rfl
  | some given => exact if_neg fun h => Bool.false_ne_true h.2

theorem add_settled (kept : Option F) :
    (one fun _ => true).add kept.toList note = if kept.any (· != note) then .error () else .ok [note] := by
  cases kept with
  | none => rfl
  | some given =>
    by_cases same : given = note
    · simp [Keeping.add, same]
    · simp [Keeping.add, same]

theorem add_map (f : G → F) (kept : List G) (entry : G) :
    all.add (kept.map f) (f entry) = .ok ((kept ++ [entry]).map f) := by
  rw [List.map_append]
  rfl

/-- Whatever is kept was there or is the new note. -/
theorem mem_add {keeping : Keeping F} {notes kept : List F} (added : keeping.add notes note = .ok kept)
    {f : F} (h : f ∈ kept) : f ∈ notes ∨ f = note := by
  unfold Keeping.add at added
  split at added
  · cases added
    simpa using h
  · cases added
    exact .inr (List.mem_singleton.mp h)
  · cases added
    exact .inr (List.mem_singleton.mp h)
  · split at added
    · cases added
      exact .inl h
    · cases added
  · cases added

/-- Where the latest is not all that is kept, nothing is lost. -/
theorem add_grows {keeping : Keeping F} {notes kept : List F} (stays : keeping ≠ latest)
    (added : keeping.add notes note = .ok kept) : note ∈ kept ∧ ∀ f ∈ notes, f ∈ kept := by
  unfold Keeping.add at added
  split at added
  · cases added
    exact ⟨by simp, fun f hf => List.mem_append_left _ hf⟩
  · exact absurd rfl stays
  · cases added
    simp
  · split at added
    · rename_i same
      cases added
      simp [same.1]
    · cases added
  · cases added

theorem add_flag (flag : Bool) : (one fun _ => true).add (if flag then [()] else []) () = .ok [()] := by
  cases flag <;> rfl

end Keeping

/-- The notes under each key. -/
abbrev Board {K : Type} (F : K → Type) : Type :=
  (k : K) → List (F k)

/-- A note with its key. -/
abbrev Note {K : Type} (F : K → Type) : Type :=
  (k : K) × F k

/-! ### Computations that tell the same -/

/-- Both computations fail, or both succeed with related results. -/
def Tells {ε ε' α β : Type} (R : α → β → Prop) (x : Except ε α) (y : Except ε' β) : Prop :=
  match x, y with
  | .ok a, .ok b => R a b
  | .error _, .error _ => True
  | _, _ => False

section Tells

variable {ε ε' α α' β β' : Type} {R : α → β → Prop} {Q : α' → β' → Prop} {x : Except ε α} {y : Except ε' β}

theorem Tells.bind {f : α → Except ε α'} {g : β → Except ε' β'} (h : Tells R x y)
    (next : ∀ a b, R a b → Tells Q (f a) (g b)) : Tells Q (x >>= f) (y >>= g) := by
  match x, y, h with
  | .ok a, .ok b, h => exact next a b h
  | .error _, .error _, _ => trivial

theorem Tells.map {f : α → α'} {g : β → β'} (h : Tells R x y) (next : ∀ a b, R a b → Q (f a) (g b)) :
    Tells Q (f <$> x) (g <$> y) := by
  match x, y, h with
  | .ok a, .ok b, h => exact next a b h
  | .error _, .error _, _ => trivial

theorem Tells.map_left {f : α → α'} {S : α' → β → Prop} (h : Tells (fun a b => S (f a) b) x y) :
    Tells S (f <$> x) y := by
  match x, y, h with
  | .ok a, .ok b, h => exact h
  | .error _, .error _, _ => trivial

theorem Tells.map_right {g : β → β'} {S : α → β' → Prop} (h : Tells (fun a b => S a (g b)) x y) :
    Tells S x (g <$> y) := by
  match x, y, h with
  | .ok a, .ok b, h => exact h
  | .error _, .error _, _ => trivial

theorem Tells.exists_right {a : α} (h : Tells R x y) (run : x = .ok a) : ∃ b, y = .ok b ∧ R a b := by
  match x, y, h with
  | .ok a', .ok b, h =>
    cases run
    exact ⟨b, rfl, h⟩

theorem Tells.exists_left {b : β} (h : Tells R x y) (run : y = .ok b) : ∃ a, x = .ok a ∧ R a b := by
  match x, y, h with
  | .ok a, .ok b', h =>
    cases run
    exact ⟨a, rfl, h⟩

theorem Tells.mono {S : α → β → Prop} (h : Tells R x y) (weaker : ∀ a b, R a b → S a b) : Tells S x y := by
  match x, y, h with
  | .ok a, .ok b, h => exact weaker a b h
  | .error _, .error _, _ => trivial

end Tells

namespace Board

variable {K : Type} {F : K → Type} [DecidableEq K] [∀ k, DecidableEq (F k)] {keeping : (k : K) → Keeping (F k)}
  {b c : Board F} {loose : K → Prop}

/-- The board with one more note. -/
def add (keeping : (k : K) → Keeping (F k)) (b : Board F) (note : Note F) : Except Unit (Board F) := do
  let notes ← (keeping note.1).add (b note.1) note.2
  return Function.update b note.1 notes

def addAll (keeping : (k : K) → Keeping (F k)) (b : Board F) (notes : List (Note F)) : Except Unit (Board F) :=
  notes.foldlM (add keeping) b

theorem addAll_cons (note : Note F) (notes : List (Note F)) :
    addAll keeping b (note :: notes) = add keeping b note >>= fun c => addAll keeping c notes := by
  rw [addAll, List.foldlM_cons]
  rfl

theorem addAll_append (first second : List (Note F)) :
    addAll keeping b (first ++ second) = addAll keeping b first >>= fun c => addAll keeping c second := by
  rw [addAll, List.foldlM_append]
  rfl

theorem add_eq_ok {note : Note F} : add keeping b note = .ok c ↔
    ∃ notes, (keeping note.1).add (b note.1) note.2 = .ok notes ∧ c = Function.update b note.1 notes := by
  rw [add, bind_eq_ok]
  simp only [pure, Except.pure, Except.ok.injEq, eq_comm]

/-! ### Boards that agree -/

/-- The boards have the same notes, in some order, but for the loose keys. -/
def Agree (loose : K → Prop) (b c : Board F) : Prop :=
  ∀ k, ¬ loose k → (b k).Perm (c k)

omit [DecidableEq K] [∀ k, DecidableEq (F k)] in
theorem agree_refl (b : Board F) : Agree loose b b :=
  fun _ _ => .refl _

omit [DecidableEq K] [∀ k, DecidableEq (F k)] in
theorem Agree.trans {d : Board F} (h : Agree loose b c) (h' : Agree loose c d) : Agree loose b d :=
  fun k tight => (h k tight).trans (h' k tight)

omit [∀ k, DecidableEq (F k)] in
theorem Agree.update (h : Agree loose b c) {k : K} {notes notes' : List (F k)}
    (same : ¬ loose k → notes.Perm notes') :
    Agree loose (Function.update b k notes) (Function.update c k notes') := by
  intro k' tight
  by_cases here : k' = k
  · subst here
    rw [Function.update_self, Function.update_self]
    exact same tight
  · rw [Function.update_of_ne here, Function.update_of_ne here]
    exact h k' tight

/-- Only keys that keep the latest note are loose. -/
def LooseIn (keeping : (k : K) → Keeping (F k)) (loose : K → Prop) : Prop :=
  ∀ k, loose k → keeping k = .latest

omit [DecidableEq K] [∀ k, DecidableEq (F k)] in
theorem none_loose : LooseIn keeping fun _ => False :=
  fun _ h => h.elim

omit [DecidableEq K] [∀ k, DecidableEq (F k)] in
/-- Where there is one note at most, boards that agree have the same. -/
theorem Agree.eq (h : Agree loose b c) {k : K} (tight : ¬ loose k) {o o' : Option (F k)} (hb : b k = o.toList)
    (hc : c k = o'.toList) : o = o' := by
  have same := h k tight
  rw [hb, hc] at same
  cases o <;> cases o' <;> simp_all

/-- A note that can be added to a board can be added to one that agrees. -/
theorem Agree.add (slack : LooseIn keeping loose) (h : Agree loose b c) {note : Note F} {b' : Board F}
    (run : Board.add keeping b note = .ok b') : ∃ c', Board.add keeping c note = .ok c' ∧ Agree loose b' c' := by
  obtain ⟨notes, fits, rfl⟩ := add_eq_ok.mp run
  obtain ⟨k, f⟩ := note
  dsimp only at fits ⊢
  suffices found : ∃ notes', (keeping k).add (c k) f = .ok notes' ∧ (¬ loose k → notes.Perm notes') by
    obtain ⟨notes', fits', same⟩ := found
    exact ⟨_, add_eq_ok.mpr ⟨notes', fits', rfl⟩, h.update same⟩
  cases hk : keeping k with
  | all =>
    rw [hk] at fits
    cases fits
    refine ⟨_, rfl, fun tight => (h k tight).append_right _⟩
  | latest =>
    rw [hk] at fits
    cases fits
    exact ⟨_, rfl, fun _ => .refl _⟩
  | one again =>
    have tight : ¬ loose k := fun isLoose => by cases (slack k isLoose).symm.trans hk
    have same := h k tight
    rw [hk] at fits
    cases hb : b k with
    | nil =>
      rw [hb] at fits same
      rw [List.nil_perm.mp same]
      exact ⟨notes, fits, fun _ => .refl _⟩
    | cons g rest =>
      cases rest with
      | nil =>
        rw [hb] at fits same
        rw [← List.singleton_perm.mp same]
        exact ⟨notes, fits, fun _ => .refl _⟩
      | cons =>
        rw [hb] at fits
        cases fits

/-- Notes under a loose key may differ, other notes under a key that keeps the latest may not. -/
def Compatible (keeping : (k : K) → Keeping (F k)) (loose : K → Prop) (p q : Note F) : Prop :=
  p.1 = q.1 → keeping p.1 = .latest → ¬ loose p.1 → p = q

/-- Two notes can be added in either order. -/
theorem add_swap {p q : Note F} (compatible : Compatible keeping loose p q) {b₁ b₂ : Board F}
    (first : add keeping b p = .ok b₁) (second : add keeping b₁ q = .ok b₂) :
    ∃ c₁ c₂, add keeping b q = .ok c₁ ∧ add keeping c₁ p = .ok c₂ ∧ Agree loose b₂ c₂ := by
  obtain ⟨ps, hp, rfl⟩ := add_eq_ok.mp first
  obtain ⟨qs, hq, rfl⟩ := add_eq_ok.mp second
  obtain ⟨k, f⟩ := p
  obtain ⟨k', g⟩ := q
  dsimp only at hp hq ⊢
  by_cases same : k' = k
  · subst same
    rw [Function.update_self] at hq
    suffices found : ∃ gs fs, (keeping k').add (b k') g = .ok gs ∧ (keeping k').add gs f = .ok fs ∧
        (¬ loose k' → qs.Perm fs) by
      obtain ⟨gs, fs, hg, hf, agree⟩ := found
      refine ⟨_, _, add_eq_ok.mpr ⟨gs, hg, rfl⟩, add_eq_ok.mpr ⟨fs, ?_, rfl⟩, ?_⟩
      · rw [Function.update_self]
        exact hf
      · rw [Function.update_idem, Function.update_idem]
        exact (agree_refl b).update agree
    cases hk : keeping k' with
    | all =>
      rw [hk] at hp hq
      cases hp
      cases hq
      refine ⟨_, _, rfl, rfl, fun _ => ?_⟩
      rw [List.append_assoc, List.append_assoc]
      exact (List.Perm.swap _ _ _).append_left _
    | latest =>
      rw [hk] at hp hq
      cases hp
      cases hq
      refine ⟨_, _, rfl, rfl, fun tight => ?_⟩
      cases compatible rfl hk tight
      exact .refl _
    | one again =>
      rw [hk] at hp hq
      -- Whatever the first note meets, the board has it afterwards, so the second is the same.
      have kept : ps = [f] ∧ (b k' = [] ∨ b k' = [f]) := by
        cases hb : b k' with
        | nil =>
          rw [hb] at hp
          cases hp
          exact ⟨rfl, Or.inl rfl⟩
        | cons x rest =>
          cases rest with
          | nil =>
            rw [hb, Keeping.add] at hp
            split at hp
            · rename_i fits
              cases hp
              rw [fits.1]
              exact ⟨rfl, Or.inr rfl⟩
            · cases hp
          | cons =>
            rw [hb] at hp
            cases hp
      obtain ⟨rfl, before⟩ := kept
      rw [Keeping.add] at hq
      split at hq
      · rename_i fits
        obtain ⟨rfl, _⟩ := fits
        cases hq
        refine ⟨_, _, hp, ?_, fun _ => .refl _⟩
        rw [Keeping.add, if_pos ⟨rfl, by assumption⟩]
      · cases hq
  · have other : k ≠ k' := fun h => same h.symm
    rw [Function.update_of_ne same] at hq
    refine ⟨_, _, add_eq_ok.mpr ⟨qs, hq, rfl⟩, add_eq_ok.mpr ⟨ps, ?_, rfl⟩, ?_⟩
    · rw [Function.update_of_ne other]
      exact hp
    · rw [Function.update_comm other]
      exact agree_refl _

theorem Agree.addAll (slack : LooseIn keeping loose) {notes : List (Note F)} (h : Agree loose b c) {b' : Board F}
    (run : Board.addAll keeping b notes = .ok b') :
    ∃ c', Board.addAll keeping c notes = .ok c' ∧ Agree loose b' c' := by
  induction notes generalizing b c with
  | nil =>
    cases run
    exact ⟨c, rfl, h⟩
  | cons note rest ih =>
    rw [addAll_cons, bind_eq_ok] at run
    obtain ⟨mid, first, run⟩ := run
    obtain ⟨mid', first', agree⟩ := h.add slack first
    obtain ⟨c', rest', agree⟩ := ih agree run
    exact ⟨c', by rw [addAll_cons, first']; exact rest', agree⟩

/-- Notes can be added in any order, and come to boards that agree. -/
theorem addAll_perm (slack : LooseIn keeping loose) {notes notes' : List (Note F)} (perm : notes.Perm notes')
    (compatible : ∀ p ∈ notes, ∀ q ∈ notes, Compatible keeping loose p q) {b' : Board F}
    (run : addAll keeping b notes = .ok b') : ∃ c', addAll keeping b notes' = .ok c' ∧ Agree loose b' c' := by
  induction perm generalizing b b' with
  | nil => exact ⟨b', run, agree_refl b'⟩
  | cons note _ ih =>
    rw [addAll_cons, bind_eq_ok] at run
    obtain ⟨mid, first, run⟩ := run
    obtain ⟨c', rest, agree⟩ := ih (fun p hp q hq => compatible p (List.mem_cons_of_mem note hp) q
      (List.mem_cons_of_mem note hq)) run
    exact ⟨c', by rw [addAll_cons, first]; exact rest, agree⟩
  | swap p q rest =>
    rw [addAll_cons, bind_eq_ok] at run
    obtain ⟨b₁, first, run⟩ := run
    rw [addAll_cons, bind_eq_ok] at run
    obtain ⟨b₂, second, run⟩ := run
    obtain ⟨c₁, c₂, first', second', agree⟩ := add_swap (compatible q List.mem_cons_self p
      (List.mem_cons_of_mem q List.mem_cons_self)) first second
    obtain ⟨c', rest', agree⟩ := agree.addAll slack run
    refine ⟨c', ?_, agree⟩
    rw [addAll_cons, first']
    change addAll keeping c₁ (q :: rest) = _
    rw [addAll_cons, second']
    exact rest'
  | trans perm _ ih ih' =>
    obtain ⟨mid, middle, agree⟩ := ih compatible run
    obtain ⟨c', run', agree'⟩ := ih' (fun p hp q hq => compatible p (perm.mem_iff.mpr hp) q (perm.mem_iff.mpr hq))
      middle
    exact ⟨c', run', agree.trans agree'⟩

/-- Everything on the board was there or is noted. -/
theorem mem_or_noted {notes : List (Note F)} (run : addAll keeping b notes = .ok c) {k : K} {f : F k}
    (h : f ∈ c k) : f ∈ b k ∨ ⟨k, f⟩ ∈ notes := by
  induction notes generalizing b with
  | nil =>
    cases run
    exact .inl h
  | cons first rest ih =>
    rw [addAll_cons, bind_eq_ok] at run
    obtain ⟨mid, added, run⟩ := run
    rcases ih run with inside | later
    · obtain ⟨kept, fits, rfl⟩ := add_eq_ok.mp added
      by_cases same : k = first.1
      · subst same
        rw [Function.update_self] at inside
        rcases Keeping.mem_add fits inside with old | rfl
        · exact .inl old
        · exact .inr List.mem_cons_self
      · rw [Function.update_of_ne same] at inside
        exact .inl inside
    · exact .inr (List.mem_cons_of_mem _ later)

/-! ### Notes that are given once -/

/-- What is noted stays on the board, unless a later note replaces it. -/
theorem mem_of_addAll {notes : List (Note F)} (run : addAll keeping b notes = .ok c) {note : Note F}
    (stays : keeping note.1 ≠ .latest) (h : note ∈ notes ∨ note.2 ∈ b note.1) : note.2 ∈ c note.1 := by
  induction notes generalizing b with
  | nil =>
    cases run
    simpa using h
  | cons first rest ih =>
    rw [addAll_cons, bind_eq_ok] at run
    obtain ⟨mid, added, run⟩ := run
    refine ih run ?_
    obtain ⟨kept, fits, rfl⟩ := add_eq_ok.mp added
    obtain ⟨k, f⟩ := note
    obtain ⟨k', g⟩ := first
    dsimp only at fits stays h ⊢
    by_cases same : k = k'
    · subst same
      rw [Function.update_self]
      obtain ⟨new, old⟩ := Keeping.add_grows stays fits
      rcases h with h | h
      · rcases List.mem_cons.mp h with h | h
        · cases h
          exact Or.inr new
        · exact Or.inl h
      · exact Or.inr (old f h)
    · rw [Function.update_of_ne same]
      refine h.imp_left fun h => (List.mem_cons.mp h).resolve_left fun here => same ?_
      cases here
      rfl

/-- Two notes under a key that takes one are not added both. -/
theorem not_added_twice {k : K} (once : keeping k = .one fun _ => false) {f g : F k} {rest : List (Note F)} :
    addAll keeping b (⟨k, f⟩ :: ⟨k, g⟩ :: rest) ≠ .ok c := by
  intro run
  rw [addAll_cons, bind_eq_ok] at run
  obtain ⟨mid, first, run⟩ := run
  rw [addAll_cons, bind_eq_ok] at run
  obtain ⟨last, second, -⟩ := run
  obtain ⟨kept, fits, rfl⟩ := add_eq_ok.mp first
  obtain ⟨kept', fits', -⟩ := add_eq_ok.mp second
  dsimp only at fits fits'
  rw [Function.update_self, once] at fits'
  rw [once] at fits
  have full : kept = [f] := by
    cases hb : b k with
    | nil =>
      rw [hb] at fits
      cases fits
      rfl
    | cons given others =>
      rw [hb] at fits
      cases others with
      | nil => simp [Keeping.add] at fits
      | cons => cases fits
  rw [full] at fits'
  simp [Keeping.add] at fits'

/-! ### Steps that add notes -/

section Steps

variable {σ α ε : Type} {said : σ → Board F} {Inv Inv' : σ → Prop} {step : σ → α → Except ε σ}
  {notesOf : α → Except Unit (List (Note F))} {s : σ}

/-- A step of a computation adds notes to what is said. It fails when there are none to add, or
when they cannot be added. -/
def Records (keeping : (k : K) → Keeping (F k)) (Inv : σ → Prop) (said : σ → Board F) (s : σ)
    (result : Except ε σ) (notes : Except Unit (List (Note F))) : Prop :=
  match result with
  | .ok s' => Inv s' ∧ notes >>= addAll keeping (said s) = .ok (said s')
  | .error _ => notes >>= addAll keeping (said s) = .error ()

/-! Single steps. -/

section

variable {s' : σ}

/-- A step that changes what stands under one key. -/
theorem records_note {k : K} {note : F k} (inv : Inv s') (fits : (keeping k).add (said s k) note = .ok (said s' k))
    (others : ∀ k', k' ≠ k → said s' k' = said s k') :
    Records keeping Inv said s (.ok s' : Except ε σ) (.ok [⟨k, note⟩]) := by
  refine ⟨inv, ?_⟩
  change addAll keeping (said s) [⟨k, note⟩] = _
  rw [addAll_cons]
  refine bind_eq_ok.mpr ⟨said s', add_eq_ok.mpr ⟨_, fits, ?_⟩, rfl⟩
  funext k'
  by_cases same : k' = k
  · subst same
    rw [Function.update_self]
  · rw [Function.update_of_ne same]
    exact others k' same

/-- A step that fails because of what stands under a key. -/
theorem records_refusal {k : K} {note : F k} {e : ε} (full : (keeping k).add (said s k) note = .error ()) :
    Records keeping Inv said s (.error e) (.ok [⟨k, note⟩]) := by
  change addAll keeping (said s) [⟨k, note⟩] = _
  rw [addAll_cons, add, full]
  rfl

/-- A step that first finds what it refers to. -/
theorem records_of_tells {α β : Type} {R : α → β → Prop} {x : Except ε α} {f : α → Except ε σ} {y : Except Unit β}
    {g : β → Except Unit (List (Note F))} (h : Tells R x y)
    (next : ∀ a b, R a b → Records keeping Inv said s (f a) (g b)) :
    Records keeping Inv said s (x >>= f) (y >>= g) := by
  match x, y, h with
  | .ok a, .ok b, h => exact next a b h
  | .error _, .error _, _ => exact rfl

/-- What is said may be read in another way. -/
theorem Records.congr {said' : σ → Board F} {result : Except ε σ} {notes : Except Unit (List (Note F))}
    (h : Records keeping Inv said s result notes) (start : Inv s) (same : ∀ t, Inv t → said t = said' t) :
    Records keeping Inv said' s result notes := by
  unfold Records at h ⊢
  rw [← same s start]
  cases result with
  | error e => exact h
  | ok t => exact ⟨h.1, (same t h.1) ▸ h.2⟩

/-- Steps that succeed one after the other. -/
theorem Records.append {s'' : σ} {notes notes' : List (Note F)}
    (first : Records keeping Inv said s (.ok s' : Except ε σ) (.ok notes))
    (second : Records keeping Inv said s' (.ok s'' : Except ε σ) (.ok notes')) :
    Records keeping Inv said s (.ok s'' : Except ε σ) (.ok (notes ++ notes')) := by
  refine ⟨second.1, ?_⟩
  change addAll keeping (said s) (notes ++ notes') = _
  rw [addAll_append]
  exact bind_eq_ok.mpr ⟨_, first.2, second.2⟩

end

/-! Many steps. -/

/-- What a list of items says, one after the other. -/
def allNotes (notesOf : α → Except Unit (List (Note F))) (items : List α) : Except Unit (List (Note F)) :=
  List.flatten <$> items.mapM notesOf

omit [DecidableEq K] [∀ k, DecidableEq (F k)] in
theorem allNotes_eq_ok {items : List α} {notes : List (Note F)} :
    allNotes notesOf items = .ok notes ↔ (∀ a ∈ items, ∃ ns, notesOf a = .ok ns) ∧
      notes = items.flatMap fun a => (notesOf a).toOption.getD [] := by
  induction items generalizing notes with
  | nil =>
    simp only [allNotes, List.mapM_nil, map_eq_ok]
    constructor
    · rintro ⟨_, h, rfl⟩
      cases h
      simp
    · rintro ⟨_, rfl⟩
      exact ⟨[], rfl, rfl⟩
  | cons a rest ih =>
    rw [allNotes, map_eq_ok]
    constructor
    · rintro ⟨pieces, run, rfl⟩
      rw [List.mapM_cons, bind_eq_ok] at run
      obtain ⟨first, hfirst, run⟩ := run
      obtain ⟨others, hothers, run⟩ := bind_eq_ok.mp run
      cases run
      have tail : allNotes notesOf rest = .ok others.flatten := map_eq_ok.mpr ⟨others, hothers, rfl⟩
      obtain ⟨each, flat⟩ := ih.mp tail
      refine ⟨?_, ?_⟩
      · intro b hb
        rcases List.mem_cons.mp hb with rfl | hb
        · exact ⟨first, hfirst⟩
        · exact each b hb
      · rw [List.flatten_cons, flat, List.flatMap_cons, hfirst]
        rfl
    · rintro ⟨each, rfl⟩
      obtain ⟨first, hfirst⟩ := each a List.mem_cons_self
      obtain ⟨others, hothers, flat⟩ :=
        map_eq_ok.mp (ih.mpr ⟨fun b hb => each b (List.mem_cons_of_mem a hb), rfl⟩)
      refine ⟨first :: others, ?_, ?_⟩
      · rw [List.mapM_cons]
        exact bind_eq_ok.mpr ⟨first, hfirst, bind_eq_ok.mpr ⟨others, hothers, rfl⟩⟩
      · rw [List.flatten_cons, flat, List.flatMap_cons, hfirst]
        rfl

omit [DecidableEq K] [∀ k, DecidableEq (F k)] in
theorem mem_allNotes {items : List α} {notes : List (Note F)} (all : allNotes notesOf items = .ok notes)
    {p : Note F} : p ∈ notes ↔ ∃ a ∈ items, ∃ ns, notesOf a = .ok ns ∧ p ∈ ns := by
  obtain ⟨each, rfl⟩ := allNotes_eq_ok.mp all
  rw [List.mem_flatMap]
  constructor
  · rintro ⟨a, ha, hp⟩
    obtain ⟨ns, hns⟩ := each a ha
    rw [hns] at hp
    exact ⟨a, ha, ns, hns, hp⟩
  · rintro ⟨a, ha, ns, hns, hp⟩
    refine ⟨a, ha, ?_⟩
    rw [hns]
    exact hp

/-- Steps that each add notes add them all when they run one after the other. -/
theorem records_foldlM {items : List α}
    (each : ∀ s, Inv s → ∀ a ∈ items, Records keeping Inv said s (step s a) (notesOf a)) (start : Inv s) :
    Records keeping Inv said s (items.foldlM step s) (allNotes notesOf items) := by
  induction items generalizing s with
  | nil => exact ⟨start, rfl⟩
  | cons a rest ih =>
    have first := each s start a List.mem_cons_self
    have split : ∀ ns, notesOf a = .ok ns → allNotes notesOf (a :: rest) >>= addAll keeping (said s) =
        allNotes notesOf rest >>= fun more => addAll keeping (said s) ns >>= fun b => addAll keeping b more := by
      intro ns hns
      rw [allNotes, List.mapM_cons, hns]
      cases hrest : rest.mapM notesOf with
      | error e =>
        rw [allNotes, hrest]
        rfl
      | ok more =>
        rw [allNotes, hrest]
        exact addAll_append ns more.flatten
    rw [List.foldlM_cons]
    cases hstep : step s a with
    | error e =>
      rw [hstep] at first
      change allNotes notesOf (a :: rest) >>= addAll keeping (said s) = .error ()
      change notesOf a >>= addAll keeping (said s) = .error () at first
      cases hnotes : notesOf a with
      | error e =>
        rw [allNotes, List.mapM_cons, hnotes]
        rfl
      | ok ns =>
        rw [hnotes] at first
        rw [split ns hnotes]
        cases allNotes notesOf rest with
        | error e => rfl
        | ok more =>
          change addAll keeping (said s) ns = .error () at first
          change addAll keeping (said s) ns >>= _ = _
          rw [first]
          rfl
    | ok s' =>
      rw [hstep] at first
      obtain ⟨inv, added⟩ := first
      obtain ⟨ns, hnotes, added⟩ := bind_eq_ok.mp added
      have others := ih (fun t ht b hb => each t ht b (List.mem_cons_of_mem a hb)) inv
      have whole := split ns hnotes
      rw [added] at whole
      change allNotes notesOf (a :: rest) >>= addAll keeping (said s) =
        allNotes notesOf rest >>= addAll keeping (said s') at whole
      unfold Records at others ⊢
      rw [whole]
      exact others

/-- Where notes are never replaced, no two items give a note that is given once. -/
theorem eq_of_note (never : ∀ k, keeping k ≠ .latest) {items : List α} {notes : List (Note F)}
    (all : allNotes notesOf items = .ok notes) (run : addAll keeping b notes = .ok c) {k : K} {f g : F k}
    (once : keeping k = .one fun _ => false) {a a' : α} (ha : a ∈ items) (ha' : a' ∈ items)
    (gives : notesOf a = .ok [⟨k, f⟩]) (gives' : notesOf a' = .ok [⟨k, g⟩]) : a = a' := by
  by_contra differ
  obtain ⟨before, after, rfl⟩ := List.append_of_mem ha
  obtain ⟨others, perm⟩ : ∃ others, (before ++ a :: after).Perm (a :: a' :: others) := by
    have rest : a' ∈ before ++ after := by
      rcases List.mem_append.mp ha' with h | h
      · exact List.mem_append_left _ h
      · rcases List.mem_cons.mp h with h | h
        · exact absurd h.symm differ
        · exact List.mem_append_right _ h
    obtain ⟨before', after', split⟩ := List.append_of_mem rest
    refine ⟨before' ++ after', List.perm_middle.trans (.cons a ?_)⟩
    rw [split]
    exact List.perm_middle
  obtain ⟨each, rfl⟩ := allNotes_eq_ok.mp all
  obtain ⟨c', run', -⟩ := addAll_perm none_loose
    (perm.flatMap_right fun a => (notesOf a).toOption.getD []) (fun _ _ _ _ _ latest => absurd latest (never _)) run
  rw [List.flatMap_cons, List.flatMap_cons, gives, gives'] at run'
  exact not_added_twice once run'

/-- When the items are permuted, a run that succeeds goes on to succeed, and says the same. -/
theorem run_perm (slack : LooseIn keeping loose) {items items' : List α} (perm : items.Perm items')
    (each : ∀ s, Inv s → ∀ a ∈ items, Records keeping Inv said s (step s a) (notesOf a))
    (each' : ∀ s, Inv' s → ∀ a ∈ items, Records keeping Inv' said s (step s a) (notesOf a))
    (compatible : ∀ a ∈ items, ∀ a' ∈ items, ∀ ns ns', notesOf a = .ok ns → notesOf a' = .ok ns' →
      ∀ p ∈ ns, ∀ q ∈ ns', Compatible keeping loose p q)
    {t s' : σ} (start : Inv s) (start' : Inv' t) (same : said s = said t) (run : items.foldlM step s = .ok s') :
    Inv s' ∧ ∃ t', items'.foldlM step t = .ok t' ∧ Inv' t' ∧ Agree loose (said s') (said t') := by
  have whole := records_foldlM each start
  rw [run] at whole
  obtain ⟨held, added⟩ := whole
  obtain ⟨notes, hnotes, added⟩ := bind_eq_ok.mp added
  obtain ⟨said', flat⟩ := allNotes_eq_ok.mp hnotes
  obtain ⟨c, added', agree⟩ := addAll_perm slack (perm.flatMap_right fun a => (notesOf a).toOption.getD [])
    (fun p hp q hq => by
      obtain ⟨a, ha, ns, hns, hp⟩ := (mem_allNotes hnotes).mp (flat ▸ hp)
      obtain ⟨a', ha', ns', hns', hq⟩ := (mem_allNotes hnotes).mp (flat ▸ hq)
      exact compatible a ha a' ha' ns ns' hns hns' p hp q hq) (flat ▸ added)
  have notes' : allNotes notesOf items' = .ok (items'.flatMap fun a => (notesOf a).toOption.getD []) :=
    allNotes_eq_ok.mpr ⟨fun a ha => said' a (perm.mem_iff.mpr ha), rfl⟩
  have whole' := records_foldlM (fun u hu a ha => each' u hu a (perm.mem_iff.mpr ha)) start'
  rw [notes'] at whole'
  cases run' : items'.foldlM step t with
  | error e =>
    rw [run'] at whole'
    have failed : addAll keeping (said t) _ = .error () := whole'
    rw [← same, added'] at failed
    cases failed
  | ok t' =>
    rw [run'] at whole'
    obtain ⟨inv, added''⟩ := whole'
    have done : addAll keeping (said t) _ = .ok (said t') := added''
    rw [← same, added'] at done
    cases done
    exact ⟨held, t', rfl, inv, agree⟩

/-- Where the latest note is kept, it is that of the last item. -/
theorem said_last {items : List α} {a : α} {s' : σ}
    (each : ∀ s, Inv s → ∀ b ∈ items ++ [a], Records keeping Inv said s (step s b) (notesOf b)) (start : Inv s)
    (run : (items ++ [a]).foldlM step s = .ok s') {k : K} {f : F k} (latest : keeping k = .latest)
    (gives : notesOf a = .ok [⟨k, f⟩]) : said s' k = [f] := by
  rw [List.foldlM_append, bind_eq_ok] at run
  obtain ⟨mid, before, run⟩ := run
  obtain ⟨end', last, run⟩ := bind_eq_ok.mp run
  cases run
  have reached := records_foldlM (fun s hs b hb => each s hs b (List.mem_append_left _ hb)) start
  rw [before] at reached
  have final := each mid reached.1 a (by simp)
  rw [last, gives] at final
  have added : addAll keeping (said mid) [⟨k, f⟩] = .ok (said s') := final.2
  rw [addAll_cons, bind_eq_ok] at added
  obtain ⟨b, added, done⟩ := added
  obtain ⟨kept, fits, rfl⟩ := add_eq_ok.mp added
  rw [latest] at fits
  cases fits
  rw [← Except.ok.inj done, Function.update_self]

end Steps

end Board

end CilPolicy
