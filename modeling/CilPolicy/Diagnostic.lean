import CilPolicy.Files.Path
import CilPolicy.Kernel.Error
import CilPolicy.Source.Parse
import CilPolicy.Statement.Name
import CilPolicy.Statement.Shape
import CilPolicy.Violation

/-!
Why a policy is refused, with the place in its source where there is one.
-/

namespace CilPolicy

/-- A refusal of a policy. -/
inductive Diagnostic where
  | parse (fault : ParseFault) (line : Nat) (path : String)
  | shape (fault : ShapeFault) (place : Location)
  | invalidName (fault : NameFault) (place : Location)
  | redeclared (keyword name : String) (place : Location)
  | unresolved (kind name statement : String) (place : Location)
  | violation (cause : Violation) (place : Option Location)
  | kernel (error : KernelError)
  | unreadable (path : String) (fault : FileFault)
deriving DecidableEq, Repr

namespace Diagnostic

/-- The place in the source, if the refusal has one. -/
def place? : Diagnostic → Option Location
  | shape _ place | invalidName _ place | redeclared _ _ place | unresolved _ _ _ place => some place
  | violation _ place => place
  | parse .. | kernel _ | unreadable .. => none

def message : Diagnostic → String
  | parse fault line path => s!"{fault.message} at line {line} of {path}"
  | shape fault place => fault.message ++ place.text
  | invalidName fault place => fault.message ++ place.text
  | redeclared keyword name place => s!"Re-declaration of {keyword} {name}" ++ place.text
  | unresolved kind name statement place =>
    s!"Failed to resolve {kind} {name} in {statement} statement" ++ place.text
  | violation cause place => cause.message ++ ((place.map Location.text).getD "")
  | kernel error => s!"failed to build binary policy: {error.message}"
  | unreadable path fault => s!"failed to read {path}: {fault.message}"

/-- The message, followed by what lies behind it. -/
def causes (d : Diagnostic) : List String :=
  d.message :: match d with
    | kernel error => [error.message]
    | unreadable _ fault => [fault.message]
    | _ => []

end Diagnostic

end CilPolicy
