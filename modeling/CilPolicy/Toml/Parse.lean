import CilPolicy.Toml.Quoted
import CilPolicy.Toml.Scalar

/-!
Reading a TOML document. A line is a header or a value under a key; a value may go on over
several lines. The lines are gathered into one table.
-/

namespace CilPolicy.Toml

/-- The line at which a document cannot be read. -/
structure ReadFault where
  line : Nat
deriving DecidableEq, Repr

def ReadFault.message (f : ReadFault) : String :=
  s!"TOML cannot be read from line {f.line} on"

/-- A character of a key without quotes. -/
def isKeyChar (c : Char) : Bool :=
  c.isAlphanum || c == '_' || c == '-'

/-- One part of a key. -/
def keyPart? (chars : List Char) : Option (String × List Char) :=
  let word := chars.takeWhile isKeyChar
  if word.isEmpty then lineText? chars else some (String.ofList word, chars.drop word.length)

/-- A key as the path to its table and its last part. -/
structure DottedKey where
  path : List String
  last : String

/-- A key has fewer dots than this, and a value no more brackets around it. -/
def depthLimit : Nat := 80

/-- A key with its dots; the first argument bounds the number of parts. -/
def key? : Nat → List String → List Char → Option (DottedKey × List Char)
  | 0, _, _ => none
  | n + 1, path, chars => do
    let (part, rest) ← keyPart? (chars.dropWhile isBlank)
    match rest.dropWhile isBlank with
    | '.' :: rest => key? n (path ++ [part]) rest
    | rest => return (⟨path, part⟩, rest)

/-- A key with its dots. -/
def dottedKey? (chars : List Char) : Option (DottedKey × List Char) :=
  key? depthLimit [] chars

/-- Leaves out blanks, line ends and comments. -/
def gap? : Bool → List Char → Option (List Char)
  | _, [] => some []
  | _, '\n' :: rest => gap? false rest
  | _, '\r' :: '\n' :: rest => gap? false rest
  | true, c :: rest => if inLine c then gap? true rest else none
  | false, c :: rest =>
    if isBlank c then gap? false rest
    else if c = '#' then gap? true rest
    else some (c :: rest)

/-- The end of a line, with a comment before it or not. -/
def lineEnd? : Bool → List Char → Option (List Char)
  | _, [] => some []
  | _, '\n' :: rest => some rest
  | _, '\r' :: '\n' :: rest => some rest
  | true, c :: rest => if inLine c then lineEnd? true rest else none
  | false, c :: rest =>
    if isBlank c then lineEnd? false rest
    else if c = '#' then lineEnd? true rest
    else none

/-- A character of a word without quotes. -/
def isScalarChar (c : Char) : Bool :=
  c.isAlphanum || c == '_' || c == '-' || c == '+' || c == '.' || c == ':'

/-- A word without quotes; one blank may part a day from a time. -/
def word (chars : List Char) : List Char × List Char :=
  let first := chars.takeWhile isScalarChar
  let rest := chars.drop first.length
  match rest with
  | ' ' :: c :: more =>
    if c.isDigit && (TomlValue.date? first).any (·.2.isEmpty) then
      let second := (c :: more).takeWhile isScalarChar
      (first ++ ' ' :: second, (c :: more).drop second.length)
    else (first, rest)
  | _ => (first, rest)

mutual

/-- A value; the first number bounds the steps and the second the brackets. -/
def value? (dialect : TomlDialect) : Nat → Nat → List Char → Option (TomlValue × List Char)
  | 0, _, _ => none
  | n + 1, depth, chars =>
    match chars, depth with
    | '[' :: rest, depth + 1 => items? dialect n depth [] rest
    | '\x7b' :: rest, depth + 1 => fields? dialect n depth [] rest
    | '[' :: _, 0 | '\x7b' :: _, 0 => none
    | '"' :: _, _ | '\'' :: _, _ => (text? chars).map fun (s, rest) => (.text s, rest)
    | _, _ => do
      let (scalar, rest) := word chars
      return (← TomlValue.scalar? dialect scalar, rest)

/-- The rest of an array behind its bracket or a comma. -/
def items? (dialect : TomlDialect) :
    Nat → Nat → List TomlValue → List Char → Option (TomlValue × List Char)
  | 0, _, _, _ => none
  | n + 1, depth, acc, chars => do
    match ← gap? false chars with
    | ']' :: rest => return (.list false acc.reverse, rest)
    | chars =>
      let (item, rest) ← value? dialect n depth chars
      match ← gap? false rest with
      | ',' :: rest => items? dialect n depth (item :: acc) rest
      | ']' :: rest => return (.list false (item :: acc).reverse, rest)
      | _ => none

/-- The rest of an inline table behind its brace or a comma. -/
def fields? (dialect : TomlDialect) :
    Nat → Nat → TomlFields → List Char → Option (TomlValue × List Char)
  | 0, _, _, _ => none
  | n + 1, depth, acc, chars => do
    match ← gap? false chars with
    | '\x7d' :: rest => return (.table .inline acc, rest)
    | chars =>
      let (key, rest) ← dottedKey? chars
      let '=' :: rest ← gap? false rest | none
      let (item, rest) ← value? dialect n depth (← gap? false rest)
      let acc ← acc.insert dialect key.path key.last item
      match ← gap? false rest with
      | ',' :: rest => fields? dialect n depth acc rest
      | '\x7d' :: rest => return (.table .inline acc, rest)
      | _ => none

end

/-- A line of a document. -/
inductive Line where
  /-- Opens a table. -/
  | table (key : DottedKey)
  /-- Opens the next table of an array. -/
  | item (key : DottedKey)
  /-- Gives a key its value. -/
  | entry (key : DottedKey) (value : TomlValue)

/-- One line, up to its end. -/
def line? (dialect : TomlDialect) (chars : List Char) : Option (Line × List Char) := do
  let (line, rest) ← (match chars with
    | '[' :: '[' :: rest => do
      let (key, rest) ← dottedKey? rest
      let ']' :: ']' :: rest := rest | none
      return (.item key, rest)
    | '[' :: rest => do
      let (key, rest) ← dottedKey? rest
      let ']' :: rest := rest | none
      return (.table key, rest)
    | chars => do
      let (key, rest) ← dottedKey? chars
      let '=' :: rest := rest | none
      let (value, rest) ← value? dialect (2 * rest.length + 2) depthLimit (rest.dropWhile isBlank)
      return (.entry key value, rest) : Option (Line × List Char))
  return (line, ← lineEnd? false rest)

/-- The table of a document and the path of the table that takes its next values. -/
structure Builder where
  fields : TomlFields := []
  header : List String := []

/-- Takes one line in. -/
def Builder.add? (dialect : TomlDialect) (b : Builder) : Line → Option Builder
  | .table key => do
    return ⟨← b.fields.openTable key.path key.last, key.path ++ [key.last]⟩
  | .item key => do
    return ⟨← b.fields.openItem key.path key.last, key.path ++ [key.last]⟩
  | .entry key value => do
    let fields ← TomlFields.modifyAt .header
      (fun _ inner => inner.insert dialect key.path key.last value) b.header .headed b.fields
    return { b with fields }

/-- All lines; the first argument bounds their number. The answer in a fault is what could
not be read. -/
def lines (dialect : TomlDialect) : Nat → Builder → List Char → Except (List Char) TomlFields
  | 0, _, rest => .error rest
  | n + 1, b, chars =>
    match gap? false chars with
    | none => .error chars
    | some [] => .ok b.fields
    | some chars =>
      match line? dialect chars with
      | none => .error chars
      | some (line, rest) =>
        match b.add? dialect line with
        | none => .error chars
        | some b => lines dialect n b rest

/-- Reads a document. A byte-order mark may stand in front. -/
def parse (dialect : TomlDialect) (source : String) : Except ReadFault TomlFields :=
  let chars := match source.toList with
    | c :: rest => if c.toNat = 0xFEFF then rest else c :: rest
    | [] => []
  match lines dialect (chars.length + 1) {} chars with
  | .ok fields => .ok fields
  | .error rest => .error ⟨1 + (chars.take (chars.length - rest.length)).count '\n'⟩

end CilPolicy.Toml
