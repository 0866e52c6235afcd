/-!
Structured values for reports, and their text as indented JSON.
-/

namespace CilPolicy

/-- A value of a report. -/
inductive Document where
  | null
  | flag (value : Bool)
  | number (value : Nat)
  | text (value : String)
  | list (items : List Document)
  | record (fields : List (String × Document))
deriving Repr, Inhabited

/-- The named parts of a record. -/
abbrev Fields := List (String × Document)

namespace Document

instance : Coe String Document := ⟨text⟩
instance : Coe Nat Document := ⟨number⟩
instance : Coe Bool Document := ⟨flag⟩

/-- The value, or null when there is none. -/
def ofOption (f : α → Document) : Option α → Document
  | some a => f a
  | none => null

def texts (items : List String) : Document :=
  list (items.map text)

/-- A character of a JSON text; control characters are escaped. -/
def jsonChar (c : Char) : String :=
  if c = '"' then "\\\""
  else if c = '\\' then "\\\\"
  else if c = '\n' then "\\n"
  else if c = '\r' then "\\r"
  else if c = '\t' then "\\t"
  else if c = '\x08' then "\\b"
  else if c = '\x0c' then "\\f"
  else if c.toNat < 0x20 then
    "\\u00" ++ String.ofList [Nat.digitChar (c.toNat / 16), Nat.digitChar (c.toNat % 16)]
  else c.toString

def jsonText (s : String) : String :=
  "\"" ++ String.join (s.toList.map jsonChar) ++ "\""

/-- A line end and the blanks in front of the next line. -/
def lineBreak (indent : Nat) : String :=
  "\n" ++ String.ofList (List.replicate indent ' ')

mutual

/-- The value as JSON, two blanks for each level. -/
def json (indent : Nat) : Document → String
  | null => "null"
  | flag b => toString b
  | number n => toString n
  | text s => jsonText s
  | list [] => "[]"
  | list (x :: xs) =>
    "[" ++ lineBreak (indent + 2) ++ json (indent + 2) x ++ jsonItems (indent + 2) xs
      ++ lineBreak indent ++ "]"
  | record [] => "\x7b\x7d"
  | record ((key, value) :: fields) =>
    "\x7b" ++ lineBreak (indent + 2) ++ jsonText key ++ ": " ++ json (indent + 2) value
      ++ jsonFields (indent + 2) fields ++ lineBreak indent ++ "\x7d"

/-- The items behind the first one. -/
def jsonItems (indent : Nat) : List Document → String
  | [] => ""
  | x :: xs => "," ++ lineBreak indent ++ json indent x ++ jsonItems indent xs

/-- The fields behind the first one. -/
def jsonFields (indent : Nat) : List (String × Document) → String
  | [] => ""
  | (key, value) :: fields =>
    "," ++ lineBreak indent ++ jsonText key ++ ": " ++ json indent value ++ jsonFields indent fields

end

end Document

end CilPolicy
