/-!
Tokens of policy source text. Blanks separate tokens and are dropped; every other
character belongs to exactly one token, so the texts of the tokens with the
blanks put back give the source.
-/

namespace CilPolicy

inductive TokenKind where
  | opening
  | closing
  | symbol
  | quoted
  | comment
  | lineMark
  | newline
  | finish
  | unknown
deriving DecidableEq, Repr

/-- A token and the line on which the text after it goes on. -/
structure Token where
  kind : TokenKind
  text : String
  line : Nat
deriving DecidableEq, Repr

namespace Token

def isBlank (c : Char) : Bool :=
  c == ' ' || c == '\t'

def isBreak (c : Char) : Bool :=
  c == '\n' || c == '\r'

/-- Characters other than ASCII letters and digits that may stand in a symbol. -/
def symbolMarks : List Char :=
  "[]./@=*-_$%+!|&^:~`#\x7b\x7d'<>?,".toList

def isSymbolChar (c : Char) : Bool :=
  c.isAlphanum || symbolMarks.contains c

/-- A character that may stand between two quotes. -/
def isQuotable (c : Char) : Bool :=
  !(c == '"' || c == '\n' || c == '\x00')

/-- A token's kind, its characters and the text after it. -/
structure Lexeme where
  kind : TokenKind
  chars : List Char
  rest : List Char
deriving DecidableEq, Repr

/-- The token that starts with `c`. A line mark counts as one only at the start of
a line, which `fresh` says; a quote without its partner on the line is unknown. -/
def lexeme (fresh : Bool) (c : Char) (rest : List Char) : Lexeme :=
  match c, rest with
  | '\r', '\n' :: more => ⟨.newline, ['\r', '\n'], more⟩
  | '\r', _ => ⟨.newline, ['\r'], rest⟩
  | '\n', _ => ⟨.newline, ['\n'], rest⟩
  | '(', _ => ⟨.opening, ['('], rest⟩
  | ')', _ => ⟨.closing, [')'], rest⟩
  | ';', _ =>
    if fresh && rest.take 2 == [';', '*'] then ⟨.lineMark, c :: rest.take 2, rest.drop 2⟩
    else ⟨.comment, c :: rest.takeWhile (!isBreak ·), rest.dropWhile (!isBreak ·)⟩
  | '"', _ =>
    match rest.dropWhile isQuotable with
    | '"' :: more => ⟨.quoted, c :: rest.takeWhile isQuotable ++ ['"'], more⟩
    | _ => ⟨.unknown, [c], rest⟩
  | _, _ =>
    if isSymbolChar c then ⟨.symbol, c :: rest.takeWhile isSymbolChar, rest.dropWhile isSymbolChar⟩
    else ⟨.unknown, [c], rest⟩

/-- A token is never empty, so less text is left after it. -/
theorem lexeme_rest_le (fresh : Bool) (c : Char) (rest : List Char) :
    (lexeme fresh c rest).rest.length ≤ rest.length := by
  have shorter (p : Char → Bool) : (rest.dropWhile p).length ≤ rest.length :=
    (List.dropWhile_suffix p).length_le
  have quoted := shorter isQuotable
  fun_cases lexeme fresh c rest <;> simp_all +arith
  · split <;> simp [shorter]
  · omega

/-- The tokens of the text, the last one being the only `finish`. Lines are counted without
bound; a counter of 32 bits agrees on a text with fewer than 2^32 - 1 line ends. -/
def scan (fresh : Bool) (line : Nat) (text : List Char) : List Token :=
  match h : text.dropWhile isBlank with
  | [] => [⟨.finish, "", line⟩]
  | c :: rest =>
    let start := fresh && (text.takeWhile isBlank).isEmpty
    let token := lexeme start c rest
    let isNewline := token.kind == .newline
    let line := if isNewline then line + 1 else line
    ⟨token.kind, String.ofList token.chars, line⟩ :: scan isNewline line token.rest
termination_by text.length
decreasing_by
  have h1 := (List.dropWhile_suffix (l := text) isBlank).length_le
  have h2 := lexeme_rest_le (fresh && (text.takeWhile isBlank).isEmpty) c rest
  simp [h] at h1
  omega

/-- The tokens of a source text; lines count from one. -/
def tokenize (source : String) : List Token :=
  scan true 1 source.toList

end Token

end CilPolicy
