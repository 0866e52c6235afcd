import CilPolicy.Proofs.Source.Lines
import Mathlib.Data.List.Forall2
import Mathlib.Data.List.TakeWhile

/-!
# Tokens and the text they are from

The texts of the tokens, each with the blanks that are skipped before it, are the source again. What
is known of the text on either side of a token is carried from token to token: a scan goes on at the
start of a line exactly after a line break, and never between the two characters of one.

A scanner need not decode the text: it can walk over the bytes and test each one alone, since a byte
of a character beyond ASCII passes the tests that such a character passes. Its tokens are then ranges
of byte positions. That every range begins and ends at a boundary between characters, and holds the
text of the token that a scan of the characters finds, is what is shown last.
-/

namespace CilPolicy

namespace Token

/-! ### One token -/

theorem any_getLast?_eq_false {l : List Char} (none : ∀ x ∈ l, isBreak x = false) :
    l.getLast?.any isBreak = false := by
  cases last : l.getLast? with
  | none => rfl
  | some x => exact none x (List.mem_of_getLast? last)

theorem isBreak_iff {c : Char} : isBreak c ↔ c = '\n' ∨ c = '\r' := by
  simp [isBreak]

theorem isBlank_iff {c : Char} : isBlank c ↔ c = ' ' ∨ c = '\t' := by
  simp [isBlank]

theorem isBreak_of_isSymbolChar {c : Char} (symbol : isSymbolChar c) : isBreak c = false := by
  refine Bool.eq_false_iff.mpr fun h => ?_
  rcases isBreak_iff.mp h with rfl | rfl <;> exact absurd symbol (by decide)

theorem isBreak_of_isBlank {c : Char} (blank : isBlank c) : isBreak c = false := by
  rcases isBlank_iff.mp blank with rfl | rfl <;> rfl

theorem lexeme_other (fresh : Bool) {c : Char} (rest : List Char)
    (other : c ∉ ['\r', '\n', '(', ')', ';', '"']) :
    lexeme fresh c rest =
      if isSymbolChar c then ⟨.symbol, c :: rest.takeWhile isSymbolChar, rest.dropWhile isSymbolChar⟩
      else ⟨.unknown, [c], rest⟩ := by
  rw [lexeme.eq_def]
  split <;> first | rfl | exact absurd (by simp) other

theorem lexeme_return (fresh : Bool) {rest : List Char} (single : rest.head? ≠ some '\n') :
    lexeme fresh '\r' rest = ⟨.newline, ['\r'], rest⟩ := by
  rw [lexeme.eq_def]
  split <;> simp_all

theorem lexeme_quoted (fresh : Bool) {rest more : List Char} (closed : rest.dropWhile isQuotable = '"' :: more) :
    lexeme fresh '"' rest = ⟨.quoted, '"' :: rest.takeWhile isQuotable ++ ['"'], more⟩ := by
  rw [lexeme, closed]
  rfl

theorem lexeme_unquoted (fresh : Bool) {rest : List Char} (unclosed : (rest.dropWhile isQuotable).head? ≠ some '"') :
    lexeme fresh '"' rest = ⟨.unknown, ['"'], rest⟩ := by
  rw [lexeme]
  split
  · rename_i closed
    simp [closed] at unclosed
  · rfl

section Lexeme

variable (fresh : Bool) (c : Char) (rest : List Char)

theorem lexeme_append : (lexeme fresh c rest).chars ++ (lexeme fresh c rest).rest = c :: rest := by
  rw [lexeme.eq_def]
  split
  · rfl
  · rfl
  · rfl
  · rfl
  · rfl
  · split <;> simp
  · split
    · rename_i more closing
      have parts := List.takeWhile_append_dropWhile (p := isQuotable) (l := rest)
      rw [closing] at parts
      simpa using parts
    · rfl
  · split <;> simp

theorem lexeme_chars_ne_nil : (lexeme fresh c rest).chars ≠ [] := by
  rw [lexeme.eq_def]
  split
  · simp
  · simp
  · simp
  · simp
  · simp
  · split <;> simp
  · split <;> simp
  · split <;> simp

/-- A token ends with a line break exactly when it is one. -/
theorem any_getLast?_lexeme :
    (lexeme fresh c rest).chars.getLast?.any isBreak = ((lexeme fresh c rest).kind == .newline) := by
  rw [lexeme.eq_def]
  split
  · rfl
  · rfl
  · rfl
  · rfl
  · rfl
  · split
    · rename_i mark
      simp only [Bool.and_eq_true, beq_iff_eq] at mark
      simp only [mark.2]
      rfl
    · refine any_getLast?_eq_false fun x hx => ?_
      rcases List.mem_cons.mp hx with rfl | hx
      · rfl
      · simpa using List.mem_takeWhile_imp hx
  · split
    · rw [List.getLast?_concat]
      rfl
    · rfl
  · rename_i notReturn notNewline _ _ _ _ _
    split
    · rename_i symbol
      refine any_getLast?_eq_false fun x hx => isBreak_of_isSymbolChar ?_
      rcases List.mem_cons.mp hx with rfl | hx
      · exact symbol
      · exact List.mem_takeWhile_imp hx
    · have other : isBreak c = false := by
        rw [isBreak, Bool.or_eq_false_iff, beq_eq_false_iff_ne, beq_eq_false_iff_ne]
        exact ⟨notNewline, notReturn⟩
      exact other

theorem lexeme_newline : (lexeme fresh c rest).kind = .newline →
    (lexeme fresh c rest).chars = ['\r', '\n'] ∨ (lexeme fresh c rest).chars = ['\n'] ∨
      ((lexeme fresh c rest).chars = ['\r'] ∧ (lexeme fresh c rest).rest.head? ≠ some '\n') := by
  rw [lexeme.eq_def]
  split
  · simp
  · rename_i single
    exact fun _ => Or.inr (Or.inr ⟨rfl, fun head => single _ (List.eq_cons_of_mem_head? head)⟩)
  · simp
  · simp
  · simp
  · split <;> simp
  · split <;> simp
  · split <;> simp

end Lexeme

/-! ### A whole text -/

/-- A token and the blanks before it. -/
structure Spaced where
  blanks : List Char
  token : Token

/-- The text in which the tokens stand. -/
def written (pieces : List Spaced) : List Char :=
  pieces.flatMap fun p => p.blanks ++ p.token.text.toList

/-- If the token is a line break, it is a whole one between the texts around it. -/
def Whole (before : List Char) (t : Token) (after : List Char) : Prop :=
  t.kind = .newline →
    t.text = "\r\n" ∨ (t.text = "\n" ∧ before.getLast? ≠ some '\r') ∨ (t.text = "\r" ∧ after.head? ≠ some '\n')

/-- A scan goes on with the text after what it has taken: it knows whether it is at the start of a
line, and is not within a line break. -/
structure Resumes (before : List Char) (fresh : Bool) (text : List Char) : Prop where
  fresh : fresh = before.getLast?.all isBreak
  whole : before.getLast? = some '\r' → text.head? ≠ some '\n'

theorem resumes_start (text : List Char) : Resumes [] true text :=
  ⟨rfl, by simp⟩

/-- The pieces in which a text after `before` is taken. -/
inductive Lays : (before text : List Char) → List Spaced → Prop where
  | finish {before blanks : List Char} {line : Nat} (blank : ∀ c ∈ blanks, isBlank c) :
      Lays before blanks [⟨blanks, ⟨.finish, "", line⟩⟩]
  | piece {before blanks after : List Char} {t : Token} {pieces : List Spaced}
      (blank : ∀ c ∈ blanks, isBlank c) (going : t.kind ≠ .finish) (some : t.text ≠ "")
      (whole : Whole (before ++ blanks) t after)
      (more : Lays (before ++ blanks ++ t.text.toList) after pieces) :
      Lays before (blanks ++ t.text.toList ++ after) (⟨blanks, t⟩ :: pieces)

section Step

variable {before blanks : List Char} {fresh : Bool} {c : Char} {rest : List Char}

/-- Blanks keep a scan going, and only without them it stays at the start of a line. -/
theorem Resumes.skip (resumes : Resumes before fresh (blanks ++ c :: rest))
    (blank : ∀ c ∈ blanks, isBlank c) : Resumes (before ++ blanks) (fresh && blanks.isEmpty) (c :: rest) := by
  cases blanks using List.reverseRecOn with
  | nil => simpa using resumes
  | append_singleton blanks b =>
    have other := isBreak_of_isBlank (blank b (by simp))
    refine ⟨by simp [other], fun last => ?_⟩
    simp only [← List.append_assoc, List.getLast?_concat, Option.some.injEq] at last
    exact absurd other (by simp [last, isBreak])

theorem Resumes.whole_lexeme (resumes : Resumes before fresh (c :: rest)) (start : Bool) (line : Nat) :
    Whole before ⟨(lexeme start c rest).kind, String.ofList (lexeme start c rest).chars, line⟩
      (lexeme start c rest).rest := by
  intro kind
  rcases lexeme_newline start c rest kind with chars | chars | ⟨chars, after⟩
  · exact Or.inl (by simp [chars])
  · have first : c = '\n' := by
      have parts := lexeme_append start c rest
      rw [chars] at parts
      exact (List.cons.inj parts).1.symm
    exact Or.inr (Or.inl ⟨by simp [chars], fun last => resumes.whole last (by simp [first])⟩)
  · exact Or.inr (Or.inr ⟨by simp [chars], after⟩)

theorem resumes_lexeme (before : List Char) (start : Bool) (c : Char) (rest : List Char) :
    Resumes (before ++ (lexeme start c rest).chars) ((lexeme start c rest).kind == .newline)
      (lexeme start c rest).rest := by
  have breaks := any_getLast?_lexeme start c rest
  have some := lexeme_chars_ne_nil start c rest
  constructor
  · rw [List.getLast?_append_of_ne_nil _ some, ← breaks, List.getLast?_eq_some_getLast some]
    rfl
  · intro last
    rw [List.getLast?_append_of_ne_nil _ some] at last
    rw [last] at breaks
    rcases lexeme_newline start c rest (beq_iff_eq.mp breaks.symm) with chars | chars | ⟨_, after⟩
    · simp [chars] at last
    · simp [chars] at last
    · exact after

end Step

theorem exists_lays (fresh : Bool) (line : Nat) (text : List Char) :
    ∀ before : List Char, Resumes before fresh text →
      ∃ pieces, pieces.map Spaced.token = scan fresh line text ∧ Lays before text pieces := by
  fun_induction scan fresh line text with
  | case1 _ line text found =>
    intro before _
    exact ⟨[⟨text, _⟩], rfl, .finish (List.dropWhile_eq_nil_iff.mp found)⟩
  | case2 fresh line text c rest found start token isNewline line' ih =>
    intro before resumes
    have split : text.takeWhile isBlank ++ c :: rest = text := by
      rw [← found, List.takeWhile_append_dropWhile]
    have blank : ∀ b ∈ text.takeWhile isBlank, isBlank b := fun b hb => List.mem_takeWhile_imp hb
    rw [← split] at resumes
    have here := resumes.skip blank
    obtain ⟨pieces, tokens, lays⟩ := ih _ (resumes_lexeme (before ++ text.takeWhile isBlank) start c rest)
    refine ⟨⟨text.takeWhile isBlank, _⟩ :: pieces, congrArg (_ :: ·) tokens, ?_⟩
    have laid := Lays.piece blank (lexeme_spec start c rest).1 (by simp [lexeme_chars_ne_nil])
      (here.whole_lexeme start line') (by simpa using lays)
    simpa [lexeme_append, split] using laid

namespace Lays

variable {before text : List Char} {pieces front rest : List Spaced} {p : Spaced}

theorem written_eq (lays : Lays before text pieces) : written pieces = text := by
  induction lays with
  | finish => simp [written]
  | piece _ _ _ _ _ ih =>
    rw [written, List.flatMap_cons, ← written, ih]

theorem blank (lays : Lays before text pieces) : ∀ p ∈ pieces, ∀ c ∈ p.blanks, isBlank c := by
  induction lays with
  | finish blank => simpa using blank
  | piece blank _ _ _ _ ih => exact List.forall_mem_cons.mpr ⟨blank, ih⟩

/-- Only the end of the text has no text of its own. -/
theorem text_eq_empty_iff (lays : Lays before text pieces) :
    ∀ p ∈ pieces, p.token.text = "" ↔ p.token.kind = .finish := by
  induction lays with
  | finish => simp
  | piece _ going some _ _ ih => exact List.forall_mem_cons.mpr ⟨iff_of_false some going, ih⟩

theorem whole (lays : Lays before text pieces) (split : pieces = front ++ p :: rest) :
    Whole (before ++ written front ++ p.blanks) p.token (written rest) := by
  induction lays generalizing front with
  | finish =>
    have last : front = [] ∧ p.token.kind = .finish := by
      cases front with
      | nil =>
        obtain ⟨rfl, _⟩ := List.cons.inj split
        exact ⟨rfl, rfl⟩
      | cons => simp at split
    exact fun kind => absurd (last.2.symm.trans kind) (by decide)
  | piece blank going some here more ih =>
    cases front with
    | nil =>
      obtain ⟨rfl, rfl⟩ := List.cons.inj split
      rw [more.written_eq]
      simpa [written] using here
    | cons first front =>
      obtain ⟨rfl, tail⟩ := List.cons.inj split
      simpa [written] using ih tail

end Lays

/-! ### Bytes of characters -/

/-- The characters in UTF-8. -/
def bytes (chars : List Char) : List UInt8 :=
  chars.flatMap String.utf8EncodeChar

theorem bytes_append (a b : List Char) : bytes (a ++ b) = bytes a ++ bytes b :=
  List.flatMap_append

theorem bytes_cons (c : Char) (rest : List Char) : bytes (c :: rest) = String.utf8EncodeChar c ++ bytes rest :=
  List.flatMap_cons

theorem bytes_toList (source : String) : bytes source.toList = source.toUTF8.data.toList := by
  rw [String.toUTF8, ← String.utf8Encode_toList, List.utf8Encode, List.data_toByteArray]
  rfl

theorem length_bytes (chars : List Char) : (bytes chars).length = (String.ofList chars).utf8ByteSize := by
  rw [← String.size_toByteArray, String.toByteArray_ofList, List.utf8Encode, List.size_toByteArray]
  rfl

/-- Number of bytes of a character, as its first byte tells it. -/
def width (b : UInt8) : Nat :=
  if b.toNat < 0x80 then 1 else if b.toNat < 0xe0 then 2 else if b.toNat < 0xf0 then 3 else 4

/-- The character that a byte is on its own. -/
def asChar (b : UInt8) : Char :=
  .ofNat b.toNat

theorem toNat_asChar (b : UInt8) : (asChar b).toNat = b.toNat := by
  have small := b.toNat_lt
  rw [asChar, Char.ofNat, dif_pos (Or.inl (by omega))]
  rfl

/-- A character of ASCII is a byte. -/
theorem encode_ascii {c : Char} (ascii : c.toNat < 128) :
    ∃ b, String.utf8EncodeChar c = [b] ∧ asChar b = c ∧ width b = 1 := by
  have small : c.val.toNat ≤ 127 := Nat.le_of_lt_succ ascii
  have toNat : (UInt8.ofNat c.toNat).toNat = c.toNat := by
    rw [UInt8.toNat_ofNat']
    omega
  refine ⟨.ofNat c.toNat, if_pos small, ?_, ?_⟩
  · rw [asChar, toNat, Char.ofNat_toNat]
  · rw [width, toNat, if_pos ascii]

/-- The bytes of another character are no characters of ASCII. -/
theorem encode_wide {c : Char} (wide : 128 ≤ c.toNat) :
    ∃ b more, String.utf8EncodeChar c = b :: more ∧ width b = (b :: more).length ∧
      ∀ x ∈ b :: more, 128 ≤ (asChar x).toNat := by
  have toNat : c.val.toNat = c.toNat := rfl
  have limit : c.toNat < 0x110000 := by
    rcases c.valid with small | ⟨_, small⟩ <;> omega
  rw [String.utf8EncodeChar]
  simp only [toNat]
  rw [if_neg (by omega)]
  split
  · refine ⟨_, _, rfl, ?_, ?_⟩
    · rw [width, UInt8.toNat_ofNat', if_neg (by omega), if_pos (by omega)]
      rfl
    · simp [toNat_asChar]
      omega
  split
  · refine ⟨_, _, rfl, ?_, ?_⟩
    · rw [width, UInt8.toNat_ofNat', if_neg (by omega), if_neg (by omega), if_pos (by omega)]
      rfl
    · simp [toNat_asChar]
      omega
  · refine ⟨_, _, rfl, ?_, ?_⟩
    · rw [width, UInt8.toNat_ofNat', if_neg (by omega), if_neg (by omega), if_neg (by omega)]
      rfl
    · simp [toNat_asChar]
      omega

/-! ### Tests of bytes -/

/-- The test does not tell characters beyond ASCII apart. -/
def Blind (p : Char → Bool) : Prop :=
  ∀ c d : Char, 128 ≤ c.toNat → 128 ≤ d.toNat → p c = p d

/-- Such a test passes each byte of a character exactly if it passes the character. -/
theorem Blind.encode {p : Char → Bool} (blind : Blind p) (c : Char) :
    ∃ b more, String.utf8EncodeChar c = b :: more ∧ ∀ x ∈ b :: more, p (asChar x) = p c := by
  by_cases ascii : c.toNat < 128
  · obtain ⟨b, encoded, same, _⟩ := encode_ascii ascii
    exact ⟨b, [], encoded, by simp [same]⟩
  · have wide : 128 ≤ c.toNat := Nat.le_of_not_lt ascii
    obtain ⟨b, more, encoded, _, beyond⟩ := encode_wide wide
    exact ⟨b, more, encoded, fun x hx => blind _ _ (beyond x hx) wide⟩

theorem Blind.takeWhile_bytes {p : Char → Bool} (blind : Blind p) (chars : List Char) :
    (bytes chars).takeWhile (p <| asChar ·) = bytes (chars.takeWhile p) := by
  induction chars with
  | nil => rfl
  | cons c chars ih =>
    obtain ⟨b, more, encoded, same⟩ := blind.encode c
    rw [bytes_cons, encoded]
    by_cases pass : p c
    · rw [List.takeWhile_append_of_pos (fun x hx => (same x hx).trans pass), ih, List.takeWhile_cons_of_pos pass,
        bytes_cons, encoded]
    · have first := same b List.mem_cons_self
      rw [List.cons_append, List.takeWhile_cons_of_neg (by rwa [first]), List.takeWhile_cons_of_neg pass]
      rfl

theorem blind_of_ascii {p : Char → Bool} (ascii : ∀ c, p c → c.toNat < 128) : Blind p := by
  have fails : ∀ c : Char, 128 ≤ c.toNat → p c = false := fun c wide =>
    Bool.eq_false_iff.mpr fun pass => Nat.not_le_of_lt (ascii c pass) wide
  intro c d wide wide'
  rw [fails c wide, fails d wide']

theorem Blind.not {p : Char → Bool} (blind : Blind p) : Blind (!p ·) :=
  fun c d wide wide' => congrArg Bool.not (blind c d wide wide')

theorem blind_isBlank : Blind isBlank := by
  refine blind_of_ascii fun c blank => ?_
  rcases isBlank_iff.mp blank with rfl | rfl <;> decide

theorem blind_isBreak : Blind isBreak := by
  refine blind_of_ascii fun c broken => ?_
  rcases isBreak_iff.mp broken with rfl | rfl <;> decide

theorem blind_isQuotable : Blind isQuotable := by
  refine Blind.not (blind_of_ascii fun c stop => ?_)
  rcases (by simpa [or_assoc] using stop : c = '"' ∨ c = '\n' ∨ c = '\x00') with rfl | rfl | rfl <;> decide

theorem ascii_of_isSymbolChar {c : Char} (symbol : isSymbolChar c) : c.toNat < 128 := by
  rcases Bool.or_eq_true_iff.mp symbol with alphanum | mark
  · delta Char.isAlphanum Char.isAlpha Char.isUpper Char.isLower Char.isDigit at alphanum
    simp only [Bool.or_eq_true, Bool.and_eq_true, decide_eq_true_eq, ge_iff_le, UInt32.le_iff_toNat_le] at alphanum
    have toNat : c.val.toNat = c.toNat := rfl
    simp at alphanum
    omega
  · have marks : ∀ x ∈ symbolMarks, x.toNat < 128 := by
      simpa using (by decide : symbolMarks.all (·.toNat < 128))
    exact marks c (List.contains_iff_mem.mp mark)

theorem blind_isSymbolChar : Blind isSymbolChar :=
  blind_of_ascii fun _ => ascii_of_isSymbolChar

/-- Whether the bytes begin with the characters. -/
def begins (chars : List Char) (bytes : List UInt8) : Bool :=
  chars.isPrefixOf (bytes.map asChar)

theorem begins_bytes (word : List Char) (ascii : ∀ c ∈ word, c.toNat < 128) (chars : List Char) :
    begins word (bytes chars) = word.isPrefixOf chars := by
  induction word generalizing chars with
  | nil => simp [begins]
  | cons a word ih =>
    obtain ⟨small, ascii⟩ := List.forall_mem_cons.mp ascii
    cases chars with
    | nil => rfl
    | cons c chars =>
      by_cases other : c.toNat < 128
      · obtain ⟨b, encoded, same, _⟩ := encode_ascii other
        rw [bytes_cons, encoded, List.singleton_append, begins, List.map_cons, same, List.isPrefixOf, ← begins,
          ih ascii]
        rfl
      · obtain ⟨b, more, encoded, _, beyond⟩ := encode_wide (Nat.le_of_not_lt other)
        have first := beyond b List.mem_cons_self
        have ne : a ≠ c := by
          rintro rfl
          exact other small
        have ne' : a ≠ asChar b := by
          rintro rfl
          omega
        rw [bytes_cons, encoded, List.cons_append, begins, List.map_cons, List.isPrefixOf, List.isPrefixOf,
          beq_false_of_ne ne, beq_false_of_ne ne', Bool.false_and, Bool.false_and]

/-! ### The walk over the bytes -/

/-- Kind and number of bytes of a token. -/
structure Extent where
  kind : TokenKind
  size : Nat

/-- Number of the bytes at the head that pass the test. -/
def run (p : Char → Bool) (bytes : List UInt8) : Nat :=
  (bytes.takeWhile (p <| asChar ·)).length

/-- The token that starts with the byte. -/
def measure (fresh : Bool) (b : UInt8) (rest : List UInt8) : Extent :=
  match asChar b with
  | '\r' => ⟨.newline, if begins ['\n'] rest then 2 else 1⟩
  | '\n' => ⟨.newline, 1⟩
  | '(' => ⟨.opening, 1⟩
  | ')' => ⟨.closing, 1⟩
  | ';' => if fresh && begins [';', '*'] rest then ⟨.lineMark, 3⟩ else ⟨.comment, 1 + run (!isBreak ·) rest⟩
  | '"' => if begins ['"'] (rest.drop (run isQuotable rest)) then ⟨.quoted, 2 + run isQuotable rest⟩ else ⟨.unknown, 1⟩
  | c => if isSymbolChar c then ⟨.symbol, 1 + run isSymbolChar rest⟩ else ⟨.unknown, width b⟩

theorem measure_pos (fresh : Bool) (b : UInt8) (rest : List UInt8) : 0 < (measure fresh b rest).size := by
  have some : 0 < width b := by
    rw [width]
    split
    · decide
    split
    · decide
    split <;> decide
  rw [measure.eq_def]
  split
  · dsimp only
    split <;> decide
  · exact Nat.one_pos
  · exact Nat.one_pos
  · exact Nat.one_pos
  · split
    · exact Nat.succ_pos 2
    · exact Nat.add_pos_left Nat.one_pos _
  · split
    · exact Nat.add_pos_left Nat.two_pos _
    · exact Nat.one_pos
  · split
    · exact Nat.add_pos_left Nat.one_pos _
    · exact some

/-- The byte before the position, if there is one, ends a line. -/
def atLineStart (source : List UInt8) (pos : Nat) : Bool :=
  (source.take pos).getLast?.all (isBreak <| asChar ·)

/-- The range of positions in which a token stands, and the line of the token. -/
structure Span where
  kind : TokenKind
  start : Nat
  stop : Nat
  line : Nat

/-- The position after the blanks. -/
def skip (source : List UInt8) (pos : Nat) : Nat :=
  pos + run isBlank (source.drop pos)

/-- The tokens from the position on, the last one being the end of the text. -/
def spans (source : List UInt8) (line pos : Nat) : List Span :=
  match _h : source.drop (skip source pos) with
  | [] => [⟨.finish, skip source pos, skip source pos, line⟩]
  | b :: rest =>
    let start := skip source pos
    let extent := measure (atLineStart source start) b rest
    let line := if extent.kind == .newline then line + 1 else line
    ⟨extent.kind, start, start + extent.size, line⟩ :: spans source line (start + extent.size)
termination_by source.length - pos
decreasing_by
  have some := measure_pos (atLineStart source (skip source pos)) b rest
  have ahead : pos ≤ skip source pos := Nat.le_add_right _ _
  have inside : ¬ source.length ≤ skip source pos := by
    rw [← List.drop_eq_nil_iff, _h]
    simp
  omega

section Walk

variable {source : List UInt8} {line pos : Nat}

theorem spans_nil (done : source.drop (skip source pos) = []) :
    spans source line pos = [⟨.finish, skip source pos, skip source pos, line⟩] := by
  rw [spans.eq_def]
  split
  · rfl
  · rename_i more
    cases done.symm.trans more

theorem spans_cons {b : UInt8} {rest : List UInt8} (more : source.drop (skip source pos) = b :: rest)
    {extent : Extent} (measured : measure (atLineStart source (skip source pos)) b rest = extent) :
    spans source line pos =
      ⟨extent.kind, skip source pos, skip source pos + extent.size,
        if extent.kind == .newline then line + 1 else line⟩ ::
      spans source (if extent.kind == .newline then line + 1 else line) (skip source pos + extent.size) := by
  subst measured
  rw [spans.eq_def]
  split
  · rename_i done
    cases done.symm.trans more
  · rename_i more'
    cases more'.symm.trans more
    rfl

end Walk

theorem run_bytes {p : Char → Bool} (blind : Blind p) (chars : List Char) :
    run p (bytes chars) = (bytes (chars.takeWhile p)).length :=
  congrArg List.length (blind.takeWhile_bytes chars)

theorem drop_run_bytes {p : Char → Bool} (blind : Blind p) (chars : List Char) :
    (bytes chars).drop (run p (bytes chars)) = bytes (chars.dropWhile p) := by
  have parts := bytes_append (chars.takeWhile p) (chars.dropWhile p)
  rw [List.takeWhile_append_dropWhile] at parts
  rw [run_bytes blind, parts, List.drop_left]

/-- A byte that is a character which starts no other kind of token. -/
theorem measure_other (fresh : Bool) {b : UInt8} (rest : List UInt8)
    (other : asChar b ∉ ['\r', '\n', '(', ')', ';', '"']) :
    measure fresh b rest =
      if isSymbolChar (asChar b) then ⟨.symbol, 1 + run isSymbolChar rest⟩ else ⟨.unknown, width b⟩ := by
  rw [measure.eq_def]
  split <;> first | rfl | (rename_i literal; exact absurd (by simp [literal]) other)

theorem isPrefixOf_singleton (c : Char) (rest : List Char) : [c].isPrefixOf rest = (rest.head? == some c) := by
  cases rest with
  | nil => rfl
  | cons d rest => simp [List.isPrefixOf, eq_comm]

theorem measure_ascii (fresh : Bool) {c : Char} (rest : List Char) {b : UInt8}
    (encoded : String.utf8EncodeChar c = [b]) (same : asChar b = c) (one : width b = 1) :
    measure fresh b (bytes rest) = ⟨(lexeme fresh c rest).kind, (bytes (lexeme fresh c rest).chars).length⟩ := by
  have cons : ∀ chars, (bytes (c :: chars)).length = 1 + (bytes chars).length := by
    intro chars
    rw [bytes_cons, encoded, List.length_append]
    rfl
  have single : (bytes [c]).length = 1 := cons []
  by_cases other : c ∉ ['\r', '\n', '(', ')', ';', '"']
  · rw [measure_other fresh _ (same ▸ other), lexeme_other fresh rest other, same, one, run_bytes blind_isSymbolChar]
    split
    · rw [cons]
    · rw [single]
  simp only [List.mem_cons, List.not_mem_nil, or_false, not_not] at other
  rw [measure.eq_def, same]
  rcases other with rfl | rfl | rfl | rfl | rfl | rfl
  · simp only [begins_bytes ['\n'] (by simp), isPrefixOf_singleton]
    by_cases next : rest.head? = some '\n'
    · rw [List.eq_cons_of_mem_head? next]
      rfl
    · rw [lexeme_return fresh next, if_neg (by simpa using next), single]
  · rfl
  · rfl
  · rfl
  · have mark : [';', '*'].isPrefixOf rest = (rest.take 2 == [';', '*']) := by
      rw [Bool.eq_iff_iff, List.isPrefixOf_iff_prefix, List.prefix_iff_eq_take, beq_iff_eq]
      exact eq_comm
    have read : lexeme fresh ';' rest = if fresh && rest.take 2 == [';', '*'] then
        ⟨.lineMark, ';' :: rest.take 2, rest.drop 2⟩
      else ⟨.comment, ';' :: rest.takeWhile (!isBreak ·), rest.dropWhile (!isBreak ·)⟩ := rfl
    simp only [begins_bytes [';', '*'] (by simp), run_bytes blind_isBreak.not, mark]
    rw [read]
    split
    · rename_i found
      rw [Bool.and_eq_true, beq_iff_eq] at found
      rw [found.2]
      rfl
    · rw [cons]
  · have after := drop_run_bytes blind_isQuotable rest
    simp only [after, begins_bytes ['"'] (by simp), isPrefixOf_singleton]
    rw [run_bytes blind_isQuotable]
    by_cases closed : (rest.dropWhile isQuotable).head? = some '"'
    · rw [lexeme_quoted fresh (List.eq_cons_of_mem_head? closed), if_pos (by simpa using closed),
        bytes_append, List.length_append, cons, single]
      congr 1
      omega
    · rw [lexeme_unquoted fresh closed, if_neg (by simpa using closed), single]

/-- A byte is measured as the character is that it begins. -/
theorem measure_bytes (fresh : Bool) (c : Char) (rest : List Char) {b : UInt8} {more : List UInt8}
    (encoded : bytes (c :: rest) = b :: more) :
    measure fresh b more = ⟨(lexeme fresh c rest).kind, (bytes (lexeme fresh c rest).chars).length⟩ := by
  by_cases ascii : c.toNat < 128
  · obtain ⟨x, single, same, one⟩ := encode_ascii ascii
    rw [bytes_cons, single] at encoded
    obtain ⟨rfl, rfl⟩ := List.cons.inj encoded
    exact measure_ascii fresh rest single same one
  · have wide := Nat.le_of_not_lt ascii
    have special : ∀ x ∈ ['\r', '\n', '(', ')', ';', '"'], x.toNat < 128 := by simp
    obtain ⟨x, others, several, size, beyond⟩ := encode_wide wide
    rw [bytes_cons, several, List.cons_append] at encoded
    obtain ⟨rfl, rfl⟩ := List.cons.inj encoded
    have first := beyond x List.mem_cons_self
    rw [measure_other _ _ fun mem => Nat.not_le_of_lt (special _ mem) first,
      lexeme_other _ _ fun mem => Nat.not_le_of_lt (special _ mem) wide,
      blind_isSymbolChar _ _ first wide]
    have other : isSymbolChar c = false :=
      Bool.eq_false_iff.mpr fun symbol => Nat.not_le_of_lt (ascii_of_isSymbolChar symbol) wide
    have whole : bytes [c] = x :: others := by simp [bytes, several]
    rw [if_neg (by simp [other]), if_neg (by simp [other]), size, whole]

theorem atLineStart_bytes (before text : List Char) :
    atLineStart (bytes (before ++ text)) (bytes before).length = before.getLast?.all isBreak := by
  rw [atLineStart, bytes_append, List.take_left]
  cases before using List.reverseRecOn with
  | nil => rfl
  | append_singleton before c =>
    obtain ⟨b, more, encoded, same⟩ := blind_isBreak.encode c
    have last : bytes [c] = b :: more := by simp [bytes, encoded]
    rw [bytes_append, last, List.getLast?_append_of_ne_nil _ (List.cons_ne_nil b more),
      List.getLast?_eq_some_getLast (List.cons_ne_nil b more), List.getLast?_concat]
    exact same _ (List.getLast_mem _)

/-- The range is the one of the token's text in the source. -/
structure Cuts (source : List Char) (s : Span) (t : Token) : Prop where
  kind : s.kind = t.kind
  line : s.line = t.line
  slice : ∃ before after, source = before ++ t.text.toList ++ after ∧ s.start = (bytes before).length ∧
    s.stop = s.start + (bytes t.text.toList).length

theorem skip_bytes (before text : List Char) :
    skip (bytes (before ++ text)) (bytes before).length = (bytes (before ++ text.takeWhile isBlank)).length := by
  rw [skip, bytes_append before text, List.drop_left, run_bytes blind_isBlank, bytes_append, List.length_append]

theorem drop_bytes (before text : List Char) : (bytes (before ++ text)).drop (bytes before).length = bytes text := by
  rw [bytes_append, List.drop_left]

/-- The walk over the bytes finds the ranges of the tokens. -/
theorem cuts_scan (fresh : Bool) (line : Nat) (text : List Char) : ∀ before, Resumes before fresh text →
    List.Forall₂ (Cuts (before ++ text)) (spans (bytes (before ++ text)) line (bytes before).length)
      (scan fresh line text) := by
  fun_induction scan fresh line text with
  | case1 _ line text found =>
    intro before _
    have blank : text.takeWhile isBlank = text :=
      List.takeWhile_eq_self_iff.mpr (List.dropWhile_eq_nil_iff.mp found)
    have start := skip_bytes before text
    rw [blank] at start
    rw [spans_nil (by rw [start, List.drop_length]), start]
    exact .cons ⟨rfl, rfl, before ++ text, [], by simp, rfl, by simp [bytes]⟩ .nil
  | case2 fresh line text c rest found start token isNewline line' ih =>
    intro before resumes
    have blank : ∀ b ∈ text.takeWhile isBlank, isBlank b := fun b hb => List.mem_takeWhile_imp hb
    have split : text = text.takeWhile isBlank ++ c :: rest := by
      rw [← found, List.takeWhile_append_dropWhile]
    have source : before ++ text = before ++ text.takeWhile isBlank ++ c :: rest := by
      rw [List.append_assoc, ← split]
    have here := (split ▸ resumes).skip blank
    have skipped := skip_bytes before text
    obtain ⟨b, more, encoded, _⟩ := blind_isBlank.encode c
    have first : bytes (c :: rest) = b :: (more ++ bytes rest) := by
      rw [bytes_cons, encoded, List.cons_append]
    have ahead : (bytes (before ++ text)).drop (skip (bytes (before ++ text)) (bytes before).length) =
        b :: (more ++ bytes rest) := by
      rw [skipped, source, drop_bytes, first]
    have measured : measure (atLineStart (bytes (before ++ text)) (skip (bytes (before ++ text)) (bytes before).length))
        b (more ++ bytes rest) = ⟨token.kind, (bytes token.chars).length⟩ := by
      rw [skipped, source, atLineStart_bytes, ← here.fresh]
      exact measure_bytes start c rest first
    rw [spans_cons ahead measured, skipped]
    have later := ih _ (resumes_lexeme (before ++ text.takeWhile isBlank) start c rest)
    have parts : before ++ text.takeWhile isBlank ++ token.chars ++ token.rest = before ++ text := by
      rw [List.append_assoc, lexeme_append, source]
    refine .cons ⟨rfl, rfl, before ++ text.takeWhile isBlank, token.rest, ?_, rfl, ?_⟩ ?_
    · rw [String.toList_ofList, parts]
    · rw [String.toList_ofList]
    · rw [parts, bytes_append _ (lexeme start c rest).chars, List.length_append] at later
      exact later

section Cuts

variable {source : String} {s : Span} {t : Token}

theorem isValid_of_eq_append {before after : List Char} (split : source.toList = before ++ after) :
    String.Pos.Raw.IsValid source ⟨(bytes before).length⟩ := by
  refine String.Pos.Raw.isValid_iff_exists_append.mpr ⟨.ofList before, .ofList after, ?_, ?_⟩
  · rw [← String.ofList_append, ← split, String.ofList_toList]
  · rw [length_bytes]
    rfl

theorem Cuts.isValid_start (cuts : Cuts source.toList s t) : String.Pos.Raw.IsValid source ⟨s.start⟩ := by
  obtain ⟨before, after, split, start, _⟩ := cuts.slice
  rw [start]
  exact isValid_of_eq_append (split.trans (List.append_assoc _ _ _))

theorem Cuts.isValid_stop (cuts : Cuts source.toList s t) : String.Pos.Raw.IsValid source ⟨s.stop⟩ := by
  obtain ⟨before, after, split, start, stop⟩ := cuts.slice
  rw [stop, start, ← List.length_append, ← bytes_append]
  exact isValid_of_eq_append split

end Cuts

/-- Tokens lose nothing of a source. One, the last, is its end; with the blanks before each of them
their texts are the source, none but the last is empty, each line is the number of line breaks so far
after the first line, and no line break is taken apart. A walk over the bytes of the source finds the
ranges of the tokens, which begin and end between characters. -/
theorem tokenize_lossless (source : String) :
    Ended (tokenize source) ∧ Counted 1 (tokenize source) ∧
      (∃ pieces, pieces.map Spaced.token = tokenize source ∧ String.ofList (written pieces) = source ∧
        (∀ p ∈ pieces, ∀ c ∈ p.blanks, isBlank c) ∧
        (∀ p ∈ pieces, p.token.text = "" ↔ p.token.kind = .finish) ∧
        ∀ front p rest, pieces = front ++ p :: rest → Whole (written front ++ p.blanks) p.token (written rest)) ∧
      List.Forall₂ (fun s t => Cuts source.toList s t ∧ String.Pos.Raw.IsValid source ⟨s.start⟩ ∧
          String.Pos.Raw.IsValid source ⟨s.stop⟩)
        (spans source.toUTF8.data.toList 1 0) (tokenize source) := by
  have resumes := resumes_start source.toList
  obtain ⟨pieces, tokens, lays⟩ := exists_lays true 1 source.toList [] resumes
  have cuts := cuts_scan true 1 source.toList [] resumes
  rw [List.nil_append, bytes_toList] at cuts
  refine ⟨ended_scan true 1 _, counted_scan true 1 _, ⟨pieces, tokens, ?_, lays.blank, lays.text_eq_empty_iff, ?_⟩,
    cuts.imp fun s t cut => ⟨cut, cut.isValid_start, cut.isValid_stop⟩⟩
  · rw [lays.written_eq, String.ofList_toList]
  · exact fun front p rest split => lays.whole split

end Token

end CilPolicy
