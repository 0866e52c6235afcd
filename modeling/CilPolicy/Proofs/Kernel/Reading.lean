import CilPolicy.Proofs.Kernel.Bytes
import Mathlib.Data.List.Forall2

/-!
# Reading what was written

A reader takes a piece when it reads the piece from the front of any file and leaves exactly what
follows. Readers that run one after the other take the pieces one after the other, so each reader
is known by the field that it takes.
-/

namespace CilPolicy

namespace ByteReader

variable {α β : Type}

/-- Whatever follows the piece, the reader reads the value from it and leaves what follows. -/
def Takes (read : ByteReader α) (piece : Bytes) (a : α) : Prop :=
  ∀ rest, read (piece ++ rest) = .ok a rest

theorem takes_pure (a : α) : Takes (pure a) [] a :=
  fun _ => rfl

theorem Takes.bind_eq {read : ByteReader α} {next : α → ByteReader β} {x : Bytes} {a : α}
    (first : read.Takes x a) (rest : Bytes) : (read >>= next) (x ++ rest) = next a rest := by
  change EStateM.bind read next _ = _
  rw [EStateM.bind, first]

theorem Takes.bind {read : ByteReader α} {next : α → ByteReader β} {x y : Bytes} {a : α} {b : β}
    (first : read.Takes x a) (second : (next a).Takes y b) : Takes (read >>= next) (x ++ y) b := by
  intro rest
  rw [List.append_assoc, first.bind_eq]
  exact second rest

theorem Takes.map {read : ByteReader α} {x : Bytes} {a : α} (f : α → β) (first : read.Takes x a) :
    Takes (f <$> read) x (f a) := by
  intro rest
  change EStateM.map f read _ = _
  rw [EStateM.map, first]

/-- A computation of two readers succeeds when both do, the second on what the first leaves. -/
theorem bind_ok {read : ByteReader α} {next : α → ByteReader β} {input rest : Bytes} {b : β} :
    (read >>= next) input = .ok b rest ↔ ∃ a left, read input = .ok a left ∧ next a left = .ok b rest := by
  change EStateM.bind read next input = _ ↔ _
  rw [EStateM.bind]
  cases read input with
  | ok a left =>
    constructor
    · exact fun run => ⟨a, left, rfl, run⟩
    · rintro ⟨_, _, ⟨⟩, run⟩
      exact run
  | error fault left => simp

theorem bind_error {read : ByteReader α} {next : α → ByteReader β} {input left : Bytes} {fault : KernelError}
    (fails : read input = .error fault left) : (read >>= next) input = .error fault left := by
  change EStateM.bind read next _ = _
  rw [EStateM.bind, fails]

theorem map_error {read : ByteReader α} {f : α → β} {input left : Bytes} {fault : KernelError}
    (fails : read input = .error fault left) : (f <$> read) input = .error fault left := by
  change EStateM.map f read _ = _
  rw [EStateM.map, fails]

theorem run?_eq_ok {read : ByteReader α} {input rest : Bytes} {a : α} :
    read.run? input = .ok (a, rest) ↔ read input = .ok a rest := by
  rw [run?]
  cases read input with
  | ok b left => simp
  | error fault left => simp

end ByteReader

theorem Bytes.split?_append (x rest : Bytes) : split? x.length (x ++ rest) = some (x, rest) := by
  induction x with
  | nil => cases rest <;> rfl
  | cons b x ih => rw [List.length_cons, List.cons_append, split?, ih, Option.map_some]

namespace ByteReader

open Bytes

theorem takes_bytes (x : Bytes) : (bytes x.length).Takes x x := by
  intro rest
  rw [bytes, split?_append]

theorem takes_number_mod (width n : Nat) :
    (number width).Takes (littleEndian width n) (n % 256 ^ width) := by
  have taken := (takes_bytes (littleEndian width n)).map toNat
  rwa [length_littleEndian, toNat_littleEndian_mod] at taken

theorem takes_number {width n : Nat} (fits : n < 256 ^ width) :
    (number width).Takes (littleEndian width n) n := by
  have taken := takes_number_mod width n
  rwa [Nat.mod_eq_of_lt fits] at taken

theorem takes_u8 (n : UInt8) : u8.Takes (Bytes.u8 n.toNat) n.toNat :=
  takes_number n.toNat_lt

theorem takes_u16 {n : Nat} (fits : n < 65536) : u16.Takes (Bytes.u16 n) n :=
  takes_number fits

theorem takes_u32 {n : Nat} (fits : n < wordBound) : u32.Takes (Bytes.u32 n) n :=
  takes_number fits

/-- The bytes of a wide number are its lowest ones and those of what is left. -/
theorem littleEndian_add (low high n : Nat) :
    littleEndian (low + high) n = littleEndian low n ++ littleEndian high (n / 256 ^ low) := by
  induction low generalizing n with
  | zero => rw [Nat.zero_add, Nat.pow_zero, Nat.div_one, littleEndian, List.nil_append]
  | succ low ih =>
    rw [Nat.succ_add, littleEndian, ih, littleEndian, Nat.div_div_eq_div_mul, ← Nat.pow_succ',
      List.cons_append]

/-- A wide number is read as words, which make up the number again. -/
theorem exists_takes_words (count : Nat) {n : Nat} (fits : n < wordBound ^ count) :
    ∃ words, (replicate u32 count).Takes (littleEndian (4 * count) n) words ∧
      words.foldr (fun w acc => w + wordBound * acc) 0 = n := by
  induction count generalizing n with
  | zero =>
    have zero : n = 0 := by simpa using fits
    exact ⟨[], takes_pure _, zero.symm⟩
  | succ count ih =>
    have rest : n / wordBound < wordBound ^ count := by
      rw [Nat.div_lt_iff_lt_mul (by decide), ← Nat.pow_succ]
      exact fits
    obtain ⟨words, taken, whole⟩ := ih rest
    refine ⟨n % wordBound :: words, ?_, ?_⟩
    · have pieces : littleEndian (4 * (count + 1)) n =
          Bytes.u32 n ++ (littleEndian (4 * count) (n / wordBound) ++ []) := by
        rw [Nat.mul_succ, Nat.add_comm, littleEndian_add, List.append_nil]
        rfl
      rw [pieces]
      exact (takes_number_mod 4 n).bind (taken.bind (takes_pure _))
    · rw [List.foldr_cons, whole]
      exact Nat.mod_add_div n wordBound

end ByteReader

/-! ### Only what is written is read -/

namespace Bytes

theorem split?_eq_some {n : Nat} {input x rest : Bytes} :
    split? n input = some (x, rest) ↔ x.length = n ∧ input = x ++ rest := by
  constructor
  · intro run
    induction n generalizing input x with
    | zero =>
      cases input <;> cases run <;> exact ⟨rfl, rfl⟩
    | succ n ih =>
      cases input with
      | nil => cases run
      | cons b input =>
        obtain ⟨⟨y, left⟩, front, same⟩ := Option.map_eq_some_iff.mp run
        cases same
        obtain ⟨length, whole⟩ := ih front
        exact ⟨by rw [List.length_cons, length], by rw [whole, List.cons_append]⟩
  · rintro ⟨rfl, rfl⟩
    exact split?_append x rest

theorem toNat_lt (x : Bytes) : toNat x < 256 ^ x.length := by
  induction x with
  | nil => exact Nat.one_pos
  | cons b x ih =>
    have low := b.toNat_lt
    rw [toNat, List.length_cons, Nat.pow_succ]
    omega

theorem littleEndian_toNat (x : Bytes) : littleEndian x.length (toNat x) = x := by
  induction x with
  | nil => rfl
  | cons b x ih =>
    have low := b.toNat_lt
    have high : (b.toNat + 256 * toNat x) / 256 = toNat x := by omega
    have byte : UInt8.ofNat (b.toNat + 256 * toNat x) = b := by
      apply UInt8.toNat_inj.mp
      rw [UInt8.toNat_ofNat']
      omega
    rw [toNat, List.length_cons, littleEndian, high, ih, byte]

end Bytes

namespace ByteReader

open Bytes

variable {α : Type} {c : Prop} [Decidable c] {fault : KernelError} {input rest : Bytes} {a b : α}

/-- A number is read from its own bytes and no others. -/
theorem number_ok {width n : Nat} :
    number width input = .ok n rest ↔ n < 256 ^ width ∧ input = littleEndian width n ++ rest := by
  constructor
  · intro run
    change EStateM.map toNat (bytes width) input = _ at run
    rw [EStateM.map, bytes] at run
    cases front : split? width input with
    | none =>
      rw [front] at run
      cases run
    | some pair =>
      obtain ⟨x, left⟩ := pair
      rw [front] at run
      cases run
      obtain ⟨length, whole⟩ := split?_eq_some.mp front
      subst length
      exact ⟨toNat_lt x, by rw [littleEndian_toNat, whole]⟩
  · rintro ⟨fits, rfl⟩
    exact takes_number fits rest

theorem u32_ok {n : Nat} : u32 input = .ok n rest ↔ n < wordBound ∧ input = Bytes.u32 n ++ rest :=
  number_ok

theorem u64_ok {n : Nat} : u64 input = .ok n rest ↔ n < longBound ∧ input = Bytes.u64 n ++ rest :=
  number_ok

/-- A reader that stops under a condition goes on only without it. -/
theorem guard_ok {next : Unit → ByteReader α} :
    (if c then throw fault >>= next else next ()) input = .ok a rest ↔
      ¬ c ∧ next () input = .ok a rest := by
  by_cases holds : c
  · rw [if_pos holds]
    constructor
    · intro run
      cases run
    · rintro ⟨without, _⟩
      exact absurd holds without
  · rw [if_neg holds]
    exact ⟨fun run => ⟨holds, run⟩, And.right⟩

theorem pure_ok : (pure b : ByteReader α) input = .ok a rest ↔ b = a ∧ input = rest := by
  constructor
  · rintro ⟨⟩
    exact ⟨rfl, rfl⟩
  · rintro ⟨rfl, rfl⟩
    rfl

/-! ### Several items -/

section Items

variable {β : Type}

/-- Items that stand one after the other are read item by item, also when writing one can fail. -/
theorem takes_replicate_mapM {ε : Type} {read : ByteReader α} {write : β → Except ε Bytes} {view : β → α}
    {items : List β} {pieces : List Bytes} (written : items.mapM write = .ok pieces)
    (each : ∀ b ∈ items, ∀ piece, write b = .ok piece → read.Takes piece (view b)) :
    (replicate read items.length).Takes pieces.flatten (items.map view) := by
  induction items generalizing pieces with
  | nil =>
    cases written
    exact takes_pure _
  | cons b items ih =>
    rw [List.mapM_cons, bind_eq_ok] at written
    obtain ⟨piece, first, written⟩ := written
    obtain ⟨pieces, tail, done⟩ := bind_eq_ok.mp written
    cases done
    have others := ih tail fun c listed => each c (List.mem_cons_of_mem b listed)
    rw [List.flatten_cons, ← List.append_nil pieces.flatten, List.map_cons]
    exact (each b List.mem_cons_self piece first).bind (others.bind (takes_pure (view b :: items.map view)))

theorem length_of_replicate {read : ByteReader α} {n : Nat} {items : List α}
    (run : replicate read n input = .ok items rest) : items.length = n := by
  induction n generalizing input items with
  | zero =>
    cases run
    rfl
  | succ n ih =>
    simp only [replicate, bind_ok, pure_ok] at run
    obtain ⟨a, left, _, others, _, run, rfl, rfl⟩ := run
    rw [List.length_cons, ih run]

/-- What another reader makes of the same bytes, item by item. -/
theorem exists_replicate {read : ByteReader α} {read' : ByteReader β} {R : α → β → Prop}
    (each : ∀ {input rest a}, read input = .ok a rest → ∃ b, read' input = .ok b rest ∧ R a b) {n : Nat}
    {items : List α} (run : replicate read n input = .ok items rest) :
    ∃ items', replicate read' n input = .ok items' rest ∧ List.Forall₂ R items items' := by
  induction n generalizing input items with
  | zero =>
    cases run
    exact ⟨[], rfl, .nil⟩
  | succ n ih =>
    simp only [replicate, bind_ok, pure_ok] at run ⊢
    obtain ⟨a, left, first, others, _, run, rfl, rfl⟩ := run
    obtain ⟨b, first', related⟩ := each first
    obtain ⟨others', run', relatedOthers⟩ := ih run
    exact ⟨_, ⟨b, left, first', others', _, run', rfl, rfl⟩, .cons related relatedOthers⟩

/-- Every item that is read has what reading one brings. -/
theorem forall_of_replicate {read : ByteReader α} {p : α → Prop}
    (each : ∀ {input rest a}, read input = .ok a rest → p a) {n : Nat} {items : List α}
    (run : replicate read n input = .ok items rest) : ∀ a ∈ items, p a := by
  obtain ⟨items', _, related⟩ := exists_replicate (R := fun a (_ : α) => p a ∧ True)
    (fun first => ⟨_, first, each first, trivial⟩) run
  exact ((List.forall₂_and_left _ _).mp related).1

end Items

end ByteReader

end CilPolicy
