import CilPolicy.Database.Registry
import CilPolicy.Violation

/-!
Aliases. An alias is bound to a declaration that may itself be an alias; following
the chain has to end at one that is none. A chain that runs in a circle is found by
a walk that compares each place with an anchor and moves the anchor up after two,
four, eight … steps.
-/

namespace CilPolicy

/-- What the chains of aliases need to know of a declaration. -/
structure AliasLink where
  name : String
  location : Location
  isAlias : Bool
  actual : Option Id
deriving Repr

namespace AliasLink

/-- Why a chain has no end. -/
inductive ChainFault where
  | unbound (aliasName : Id)
  | circle (anchor : Id)
deriving DecidableEq, Repr

/-- Follows the chain from `current`. The anchor has been passed `steps` ago and moves
up when the number of steps reaches `limit`. With fewer than 2^30 aliases the walk ends
before `limit` exceeds 2^30, so a signed counter of 32 bits is enough for it. -/
def follow (links : Array AliasLink) :
    (fuel current anchor steps limit : Nat) → Except ChainFault Id
  | 0, _, anchor, _, _ => .error (.circle anchor)
  | fuel + 1, current, anchor, steps, limit =>
    match links[current]? with
    | none => .ok current
    | some link =>
      if !link.isAlias then .ok current
      else match link.actual with
        | none => .error (.unbound current)
        | some next =>
          if next = anchor then .error (.circle anchor)
          else if steps + 1 = limit then follow links fuel next next 0 (2 * limit)
          else follow links fuel next anchor (steps + 1) limit

/-- A walk of this many steps has met its end or its anchor. -/
def followFuel (links : Array AliasLink) : Nat :=
  4 * links.size + 8

/-- The names on the way from `current` back to the anchor, the anchor not included. -/
def circleFrom (links : Array AliasLink) (anchor : Id) : (fuel : Nat) → Option Id → List String
  | 0, _ => []
  | fuel + 1, current =>
    match current with
    | none => []
    | some id =>
      if id = anchor then []
      else match links[id]? with
        | none => []
        | some link => link.name :: circleFrom links anchor fuel link.actual

/-- The names on the circle through the anchor, the anchor first. -/
def circle (links : Array AliasLink) (anchor : Id) : List String :=
  match links[anchor]? with
  | none => []
  | some link => link.name :: circleFrom links anchor links.size link.actual

/-- What the alias with the number stands for in the end. -/
def resolve (links : Array AliasLink) (id : Id) (link : AliasLink) : Except (Violation × Location) Id :=
  match link.actual with
  | none => .error (.aliasUnbound, link.location)
  | some _ =>
    match follow links (followFuel links) id id 0 2 with
    | .ok actual => .ok actual
    | .error (.unbound other) =>
      .error (.aliasOfUnbound link.name ((links[other]?.map (·.name)).getD ""), link.location)
    | .error (.circle anchor) => .error (.aliasCycle (circle links anchor), link.location)

/-- Each alias with what it stands for; the first alias without an end is refused. -/
def resolveAll (links : Array AliasLink) : Except (Violation × Location) (List (Id × Id)) :=
  (links.toList.zipIdx.filter (·.1.isAlias)).mapM fun (link, id) => do
    return (id, ← resolve links id link)

end AliasLink

end CilPolicy
