import Monotype.Ty.Basic

/-!
# Supplies of fresh type variables

A supply hands out the variables from its next number on, each once.
-/

namespace Monotype

/-- A supply of type variables. -/
structure Supply where
  next : Int
  deriving DecidableEq, Repr

namespace Supply

def initial : Supply := ⟨0⟩

def fresh (s : Supply) : Ty := .var s.next

def advance (s : Supply) : Supply := ⟨s.next + 1⟩

end Supply

end Monotype
