import CilPolicy.Word

/-!
Where a piece of source stands: its file and line and, where line marks say so,
the high-level sources it was made from.
-/

namespace CilPolicy

/-- A file and line, and the high-level places it came from, innermost first. -/
structure Location where
  file : String := ""
  line : Nat := 0
  origins : List (String × Nat) := []
deriving DecidableEq, Repr, Inhabited

/-- The location as the end of a message. -/
def Location.text (l : Location) : String :=
  s!" at {l.file}:{l.line}" ++
    String.join (l.origins.map fun (path, line) => s!" from {path}:{line}")

/-- A line mark whose region is open. A mark that `expands` has its whole region
come from one high-level line; any other has each line come from one. -/
structure LineMark where
  expands : Bool
  path : String
  line : Nat
  /-- Value of the line counter where the mark stands. -/
  offset : Nat
deriving DecidableEq, Repr

/-- The file and the open line marks around a node, innermost first. -/
structure Scope where
  file : Option String := none
  marks : List LineMark := []
deriving DecidableEq, Repr, Inhabited

/-- The scope, line and line counter of a node. -/
structure Position where
  scope : Scope := {}
  line : Nat := 0
  offset : Nat := 0
deriving DecidableEq, Repr, Inhabited

namespace Position

/-- Line numbers are 32 bits wide. -/
def lineModulus : Nat := wordBound

/-- One high-level place for each mark. A mark's own place is counted in the lines
of the mark around it. -/
def originsOf (offset : Nat) : List LineMark → List (String × Nat)
  | [] => []
  | mark :: outer =>
    let line := if mark.expands then mark.line
      else (mark.line + offset) % lineModulus - (mark.offset + 1)
    (mark.path, line) :: originsOf mark.offset outer

def location (p : Position) : Location where
  file := p.scope.file.getD "<unknown>"
  line := p.line
  origins := originsOf p.offset p.scope.marks

end Position

end CilPolicy
