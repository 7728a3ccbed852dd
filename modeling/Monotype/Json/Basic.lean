import Monotype.Binary64.Basic
import Monotype.OrderedMap
import Monotype.Text.Basic

/-!
# JSON values

A JSON value keeps what its text says: integers of any size are apart from floating-point numbers,
and the members of an object stand in the order in which their names first arrived.
-/

namespace Monotype

inductive Json where
  | null
  | bool (value : Bool)
  | int (value : Int)
  | float (value : Binary64)
  | str (value : Text)
  | arr (items : List Json)
  | obj (members : List (Text × Json))
  deriving Repr, Inhabited

namespace Json

/-- The member of that name among some members. -/
abbrev get? (members : List (Text × Json)) (name : Text) : Option Json := members.lookup name

def member? (name : Text) : Json → Option Json
  | .obj members => get? members name
  | _ => none

def members : Json → List (Text × Json)
  | .obj members => members
  | _ => []

def items : Json → List Json
  | .arr items => items
  | _ => []

mutual

/-- How deeply lists and objects nest. -/
def depth : Json → Nat
  | .arr items => depthOfItems items + 1
  | .obj members => depthOfMembers members + 1
  | _ => 0

def depthOfItems : List Json → Nat
  | [] => 0
  | v :: vs => max (depth v) (depthOfItems vs)

def depthOfMembers : List (Text × Json) → Nat
  | [] => 0
  | (_, v) :: ms => max (depth v) (depthOfMembers ms)

end

def text? : Json → Option Text
  | .str s => some s
  | _ => none

def int? : Json → Option Int
  | .int n => some n
  | _ => none

end Json

end Monotype
