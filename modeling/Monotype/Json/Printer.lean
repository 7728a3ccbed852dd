import Monotype.Binary64.Shortest
import Monotype.Json.Basic
import Monotype.Text.Quoted

/-!
# Text of JSON values

The text is pure ASCII: other characters are written as escapes, outside the basic plane as
surrogate pairs.  There are two layouts: one line with a space after commas and colons, and one item
per line with a fixed indent per level.  An empty list or object is two brackets in both.
-/

namespace Monotype

namespace Json

def unitEscape (n : Nat) : List Char :=
  '\\' :: 'u' :: Text.hexDigits 4 n

def escapedChar (c : Char) : List Char :=
  if c = '"' then ['\\', '"']
  else if c = '\\' then ['\\', '\\']
  else if c = '\n' then ['\\', 'n']
  else if c = '\r' then ['\\', 'r']
  else if c = '\t' then ['\\', 't']
  else if c.toNat = 8 then ['\\', 'b']
  else if c.toNat = 12 then ['\\', 'f']
  else if 0x20 ≤ c.toNat ∧ c.toNat < 0x7f then [c]
  else if c.toNat < 0x10000 then unitEscape c.toNat
  else
    let n := c.toNat - 0x10000
    unitEscape (0xd800 + n / 0x400) ++ unitEscape (0xdc00 + n % 0x400)

def escapedPoint : Point → List Char
  | .char c => escapedChar c
  | .lone u => unitEscape u.unit

def stringText (t : Text) : String :=
  String.ofList ('"' :: t.points.flatMap escapedPoint ++ ['"'])

/-- A JSON number for a floating-point number; what is not finite is spelled out. -/
def floatText : Binary64 → String
  | .nan => "NaN"
  | .infinite negative => if negative then "-Infinity" else "Infinity"
  | x => x.text

inductive Layout where
  | line
  | lines (indent : Nat)
  deriving DecidableEq, Repr

namespace Layout

def lead (l : Layout) (level : Nat) : String :=
  match l with
  | .line => ""
  | .lines indent => "\n" ++ String.ofList (List.replicate (indent * level) ' ')

def comma : Layout → String
  | .line => ", "
  | .lines _ => ","

/-- Items between brackets; the brackets stand at `level`. -/
def enclose (l : Layout) (level : Nat) (opening closing : String) (items : List String) : String :=
  match items with
  | [] => opening ++ closing
  | items =>
      opening ++ l.comma.intercalate (items.map (l.lead (level + 1) ++ ·)) ++ l.lead level ++
        closing

end Layout

mutual

def render (l : Layout) (level : Nat) : Json → String
  | .null => "null"
  | .bool b => if b then "true" else "false"
  | .int n => toString n
  | .float x => floatText x
  | .str s => stringText s
  | .arr items => l.enclose level "[" "]" (renderItems l (level + 1) items)
  | .obj members => l.enclose level "\x7b" "\x7d" (renderMembers l (level + 1) members)

def renderItems (l : Layout) (level : Nat) : List Json → List String
  | [] => []
  | v :: vs => render l level v :: renderItems l level vs

def renderMembers (l : Layout) (level : Nat) : List (Text × Json) → List String
  | [] => []
  | (name, v) :: ms => (stringText name ++ ": " ++ render l level v) :: renderMembers l level ms

end

def compact (v : Json) : String := render .line 0 v

def pretty (indent : Nat) (v : Json) : String := render (.lines indent) 0 v

end Json

end Monotype
