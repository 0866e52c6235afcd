import CilPolicy.Text.Number

/-!
Quoted texts of a TOML document. Double quotes allow escapes, single quotes do not; three
quotes hold more than one line. A carriage return stands before a line feed only.
-/

namespace CilPolicy.Toml

/-- A character that may stand in a line. -/
def inLine (c : Char) : Bool :=
  c == '\t' || (0x20 ≤ c.toNat && c.toNat != 0x7F)

/-- The character with a code point, if there is one. -/
def scalarChar? (n : Nat) : Option Char :=
  if n < 0xD800 ∨ 0xDFFF < n ∧ n < 0x110000 then some (Char.ofNat n) else none

/-- A code point of so many hexadecimal digits. -/
def codePoint? (width : Nat) (chars : List Char) : Option (Char × List Char) := do
  let digits := chars.take width
  if digits.length ≠ width then none
  let c ← scalarChar? (← Text.digits? 16 0 digits)
  return (c, chars.drop width)

/-- What follows a backslash. -/
def escaped? : List Char → Option (Char × List Char)
  | 'b' :: rest => some ('\x08', rest)
  | 'e' :: rest => some ('\x1b', rest)
  | 't' :: rest => some ('\t', rest)
  | 'n' :: rest => some ('\n', rest)
  | 'f' :: rest => some ('\x0c', rest)
  | 'r' :: rest => some ('\r', rest)
  | '"' :: rest => some ('"', rest)
  | '\\' :: rest => some ('\\', rest)
  | 'x' :: rest => codePoint? 2 rest
  | 'u' :: rest => codePoint? 4 rest
  | 'U' :: rest => codePoint? 8 rest
  | _ => none

def isBlank (c : Char) : Bool :=
  c == ' ' || c == '\t'

/-- Splits one line end off. -/
def newline? : List Char → Option (List Char)
  | '\n' :: rest => some rest
  | '\r' :: '\n' :: rest => some rest
  | _ => none

/-- Leaves out the line end that directly follows an opening mark. -/
def skipNewline (chars : List Char) : List Char :=
  (newline? chars).getD chars

/-- Leaves out blanks and line ends. -/
def skipSpace (chars : List Char) : List Char :=
  match chars with
  | [] => []
  | '\r' :: '\n' :: rest => skipSpace rest
  | c :: rest => if isBlank c || c == '\n' then skipSpace rest else c :: rest

/-- How many of the quotes in front belong to the text, and what follows them; two at most
stand before the closing three. -/
inductive QuoteRun where
  | inside (count : Nat)
  | closing (count : Nat)

def quoteRun (quote : Char) (chars : List Char) : QuoteRun :=
  let count := (chars.takeWhile (· == quote)).length
  if count < 3 then .inside count else .closing (min (count - 3) 2)

/-- The rest of a text in double quotes; the first argument bounds the steps. -/
def basicTail : Nat → List Char → List Char → Option (String × List Char)
  | 0, _, _ => none
  | _, _, [] => none
  | n + 1, acc, c :: rest =>
    if c = '"' then some (String.ofList acc.reverse, rest)
    else if c = '\\' then (escaped? rest).bind fun (c, rest) => basicTail n (c :: acc) rest
    else if inLine c then basicTail n (c :: acc) rest
    else none

/-- The rest of a text in single quotes. -/
def literalTail : List Char → List Char → Option (String × List Char)
  | _, [] => none
  | acc, c :: rest =>
    if c = '\'' then some (String.ofList acc.reverse, rest)
    else if inLine c then literalTail (c :: acc) rest
    else none

/-- The rest of a text in three quotes of a kind; the first argument bounds the steps. -/
def longTail (quote : Char) : Nat → List Char → List Char → Option (String × List Char)
  | 0, _, _ => none
  | _, _, [] => none
  | n + 1, acc, c :: rest =>
    if c = quote then
      match quoteRun quote (c :: rest) with
      | .inside count => longTail quote n (List.replicate count quote ++ acc) ((c :: rest).drop count)
      | .closing count =>
        some (String.ofList (List.replicate count quote ++ acc).reverse, (c :: rest).drop (count + 3))
    else if c = '\\' ∧ quote = '"' then
      match newline? (rest.dropWhile isBlank) with
      | some rest => longTail quote n acc (skipSpace rest)
      | none => (escaped? rest).bind fun (c, rest) => longTail quote n (c :: acc) rest
    else match newline? (c :: rest) with
      | some after =>
        let ending := (c :: rest).take (rest.length + 1 - after.length)
        longTail quote n (ending.reverse ++ acc) after
      | none => if inLine c then longTail quote n (c :: acc) rest else none

/-- A quoted text on one line. -/
def lineText? : List Char → Option (String × List Char)
  | '"' :: rest => basicTail (rest.length + 1) [] rest
  | '\'' :: rest => literalTail [] rest
  | _ => none

/-- A quoted text of any kind. -/
def text? : List Char → Option (String × List Char)
  | '"' :: '"' :: '"' :: rest => longTail '"' (rest.length + 1) [] (skipNewline rest)
  | '\'' :: '\'' :: '\'' :: rest => longTail '\'' (rest.length + 1) [] (skipNewline rest)
  | chars => lineText? chars

/-! Writing -/

/-- What the characters of a text ask of its quotes. -/
structure Demands where
  /-- Characters that only an escape can show. -/
  hidden : Bool
  backslash : Bool
  newline : Bool
  /-- The longest runs of quotes. -/
  double : Nat
  single : Nat

/-- The longest run of a character. -/
def longestRun (c : Char) (chars : List Char) : Nat :=
  (chars.foldl (fun (run, best) d =>
    let run := if d = c then run + 1 else 0
    (run, max run best)) (0, 0)).2

def demands (chars : List Char) : Demands where
  hidden := chars.any fun c => c != '\n' && !inLine c
  backslash := chars.contains '\\'
  newline := chars.contains '\n'
  double := longestRun '"' chars
  single := longestRun '\'' chars

/-- A control character in an escape of four digits. -/
def controlEscape (c : Char) : String :=
  let digits := (Nat.toDigits 16 c.toNat).map Char.toUpper
  "\\u" ++ String.ofList (List.replicate (4 - digits.length) '0' ++ digits)

/-- The characters of a text with escapes; `quotes` counts the quotes just written. More
quotes in a row than `limit` are escaped. -/
def escapeChars (limit : Nat) (long : Bool) : Nat → List Char → List String
  | _, [] => []
  | quotes, c :: rest =>
    if c = '"' then
      if quotes < limit then "\"" :: escapeChars limit long (quotes + 1) rest
      else "\\\"" :: escapeChars limit long 0 rest
    else
      let shown :=
        if c = '\x08' then "\\b"
        else if c = '\t' then "\\t"
        else if c = '\n' then if long then "\n" else "\\n"
        else if c = '\x0c' then "\\f"
        else if c = '\r' then "\\r"
        else if c = '\\' then "\\\\"
        else if inLine c then c.toString
        else controlEscape c
      shown :: escapeChars limit long 0 rest

/-- A text in quotes: the plainest that need no escapes, else double ones with escapes. -/
def quote (text : String) : String :=
  let chars := text.toList
  let d := demands chars
  let basic := "\"" ++ String.join (escapeChars 0 false 0 chars) ++ "\""
  let start := if d.newline then "\n" else ""
  let longBasic := "\"\"\"" ++ start ++ String.join (escapeChars 2 true 0 chars) ++ "\"\"\""
  if !d.hidden && !d.backslash && d.double == 0 && !d.newline then basic
  else if !d.hidden && d.single == 0 && !d.newline then "'" ++ text ++ "'"
  else if !d.hidden && !d.backslash && d.double ≤ 2 then longBasic
  else if !d.hidden && d.single ≤ 2 then "'''" ++ start ++ text ++ "'''"
  else if d.newline then longBasic
  else basic

end CilPolicy.Toml
