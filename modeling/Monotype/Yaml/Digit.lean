/-!
# Digits of several bases

Digits with letters for the values from ten on, and the numbers that they spell.
-/

namespace Monotype

namespace Yaml

def digitValue? (c : Char) : Option Nat :=
  if '0' ≤ c ∧ c ≤ '9' then some (c.toNat - '0'.toNat)
  else if 'a' ≤ c ∧ c ≤ 'f' then some (c.toNat - 'a'.toNat + 10)
  else if 'A' ≤ c ∧ c ≤ 'F' then some (c.toNat - 'A'.toNat + 10)
  else none

def isDigitOf (base : Nat) (c : Char) : Bool :=
  match digitValue? c with
  | some d => d < base
  | none => false

def isSpacedDigitOf (base : Nat) (c : Char) : Bool := c = '_' || isDigitOf base c

/-- The number that digits of a base spell; what is no digit is passed over. -/
def valueIn (base : Nat) (cs : List Char) : Nat :=
  cs.foldl (fun n c =>
    match digitValue? c with
    | some d => n * base + d
    | none => n) 0

end Yaml

end Monotype
