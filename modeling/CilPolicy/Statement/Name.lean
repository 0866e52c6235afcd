/-!
Names that a policy may declare: a letter, then letters, digits, underscores and
dashes, and no word that means something else in an expression.
-/

namespace CilPolicy

/-- What a name is declared for; it decides which words are reserved. -/
inductive NameKind where
  | bool
  | permission
  | user
  | role
  | type
  | category
  | extended
  | other
deriving DecidableEq, Repr

/-- Words that a name of the kind must not be. -/
def NameKind.reserved : NameKind → List String
  | bool => ["eq", "neq", "and", "or", "not", "xor"]
  | permission | user | role => ["all", "and", "or", "not", "xor"]
  | type => ["all", "self", "and", "or", "not", "xor"]
  | category | extended => ["all", "range", "and", "or", "not", "xor"]
  | other => []

/-- Why a name may not be declared. -/
inductive NameFault where
  | tooLong
  | firstNotLetter (name : String)
  | badCharacter (c : Char) (name : String)
  | reserved (name : String)
deriving DecidableEq, Repr

/-- A name has fewer bytes than this. -/
def maxNameLength : Nat := 2048

def NameFault.message : NameFault → String
  | tooLong => s!"Name length greater than max name length of {maxNameLength}"
  | firstNotLetter name => s!"First character in {name} is not a letter"
  | badCharacter c name => s!"Invalid character \"{c}\" in {name}"
  | reserved name => s!"Name {name} is a reserved word"

/-- A character that may follow the first letter; dots only in qualified names. -/
def isNameChar (qualified : Bool) (c : Char) : Bool :=
  c.isAlphanum || c == '_' || c == '-' || (qualified && c == '.')

/-- The first thing wrong with a name. -/
def NameKind.fault? (kind : NameKind) (qualified : Bool) (name : String) : Option NameFault :=
  if maxNameLength ≤ name.utf8ByteSize then some .tooLong
  else match name.toList with
    | [] => some (.firstNotLetter name)
    | first :: rest =>
      if !first.isAlpha then some (.firstNotLetter name)
      else match rest.find? (!isNameChar qualified ·) with
        | some c => some (.badCharacter c name)
        | none => if kind.reserved.contains name then some (.reserved name) else none

end CilPolicy
