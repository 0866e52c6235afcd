import CilPolicy.Statement.Expr

/-!
What can be wrong with the shape of a statement. Each cause is a constructor;
`ShapeFault.message` holds the wording.
-/

namespace CilPolicy

/-- What is wrong inside a statement whose keyword is known. -/
inductive ShapeDetail where
  | arguments
  | truthValue
  | number (text : String)
  | address (text : String)
  | operatorAlone (op : Operator)
  | operatorInSet (op : Operator)
  | operatorInCondition (op : Operator)
  | operatorForRange (op : Operator)
  | classPermissions
  | level
  | range
  | context
  | extended
  | extendedKind (word : String)
  | permission
  | unordered
  | defaultObject (word : String)
  | defaultRange
  | fileKind (word : String)
  | filesystemUse (word : String)
  | protocol (word : String)
  | portRange
  | handleUnknown (word : String)
deriving DecidableEq, Repr

def ShapeDetail.message : ShapeDetail → String
  | arguments => "Invalid syntax"
  | truthValue => "Value must be either 'true' or 'false'"
  | number text => s!"Invalid number '{text}'"
  | address text => s!"Bad ip address or netmask: {text}"
  | operatorAlone op => s!"Operator ({op.keyword}) not in an expression"
  | operatorInSet op => s!"Invalid operator ({op.keyword}) for set expression"
  | operatorInCondition op => s!"Invalid operator ({op.keyword}) for boolean or tunable expression"
  | operatorForRange op =>
    s!"Operator ({op.keyword}) only valid for catset and permissionx expression"
  | classPermissions => "Bad class-permissions list syntax"
  | level => "Bad level"
  | range => "Bad levelrange"
  | context => "Bad context"
  | extended => "Bad permissionx content"
  | extendedKind word => s!"Unknown permissionx kind, {word}. Must be \"ioctl\""
  | permission => "Bad permission"
  | unordered => "The 'unordered' keyword may only start a classorder list"
  | defaultObject word => s!"Expected either 'source' or 'target', got {word}"
  | defaultRange => "Invalid default range"
  | fileKind word => s!"Invalid file type \"{word}\""
  | filesystemUse word => s!"Invalid fsuse type \"{word}\""
  | protocol word => s!"Invalid protocol \"{word}\""
  | portRange => "Port value out of range"
  | handleUnknown word => s!"Unknown handleunknown value: {word}"

/-- Why a list is not a statement. -/
inductive ShapeFault where
  | noKeyword
  | unsupported (keyword : String)
  | unknownKeyword (keyword : String)
  | malformed (keyword : String) (detail : ShapeDetail)
deriving DecidableEq, Repr

def ShapeFault.message : ShapeFault → String
  | noKeyword => "Keyword expected after open parenthesis"
  | unsupported keyword => s!"{keyword} statements are not supported"
  | unknownKeyword keyword => s!"Invalid keyword {keyword}"
  | malformed keyword detail => s!"{detail.message}: bad {keyword} statement"

end CilPolicy
